import SchemaLang.Proofs.Outline.Text

/-! Each part of a well-formed schema stands on one line, behind its indentation. -/
namespace SchemaLang

open Outline

namespace Outline.Node

/-- All texts of the node are plain. -/
inductive Plain : Node → Prop where
  | node : Line.Plain line → (∀ c ∈ children, Plain c) → Plain (.node line children)

theorem Plain.lines (plain : Plain n) (level : Nat) : ∀ l ∈ n.lines level, Line.Plain l.text := by
  induction plain generalizing level with
  | node plain _ ih =>
    rw [Node.lines, allLines_eq_flatMap]
    refine List.forall_mem_cons.mpr ⟨plain, fun l mem => ?_⟩
    obtain ⟨c, inside, mem⟩ := List.mem_flatMap.mp mem
    exact ih c inside (level + 1) l mem

end Outline.Node

/-- No line ends inside the text. -/
def Clear (t : String) : Prop := ∀ c ∈ t.toList, c ≠ '\n'

instance : Decidable (Clear t) :=
  decidable_of_iff (t.toList.all (· != '\n') = true) (by simp [Clear])

theorem clear_append : Clear (t ++ u) ↔ Clear t ∧ Clear u := by
  simp [Clear, or_imp, forall_and]

theorem Compact.clear (compact : Compact t) : Clear t := by
  rintro c mem rfl
  exact absurd (compact '\n' mem) (by decide)

theorem plain_of_name (named : IsIdentifier t) (clear : Clear u) : Line.Plain (t ++ u) where
  single := clear_append.mpr ⟨(IsWord.compact named.1).clear, clear⟩
  solid := by
    obtain ⟨⟨c, run, same, start, _⟩, _⟩ := named
    rw [String.toList_append, same]
    rintro d ⟨⟩ rfl
    exact absurd start (by decide)

theorem clear_write (n : Nat) : Clear (Radix.decimal.write n) :=
  (Literal.isIntLiteral_write n).compact.clear

theorem value_plain {v : Value} (named : IsIdentifier v.name) : v.node.Plain := by
  refine .node ?_ (by simp)
  rw [String.append_assoc]
  exact plain_of_name named (clear_append.mpr ⟨by decide, clear_write _⟩)

theorem clear_size {size : OctetsSize} (wellFormed : size.WellFormed) : Clear size.text := by
  cases wellFormed with
  | fixed => exact clear_write _
  | sized named => exact (IsWord.compact named.1).clear

theorem clear_sizeText (wellFormed : MemberType.WellFormed type octets) :
    Clear (sizeText octets) := by
  cases wellFormed with
  | octets sized =>
    exact clear_append.mpr ⟨clear_append.mpr ⟨by decide, clear_size sized⟩, by decide⟩
  | builtin | named => exact (by decide : Clear "")

theorem clear_widenedText (type : MemberType) : Clear (widenedText type) := by
  cases type with
  | named => exact (by decide : Clear "")
  | builtin kind => cases kind <;> decide

theorem member_plain {m : Member} (wellFormed : m.WellFormed) : m.node.Plain := by
  refine .node ?_ (by simp)
  rw [String.append_assoc, String.append_assoc, String.append_assoc]
  apply plain_of_name wellFormed.name
  simp only [clear_append]
  exact ⟨by decide, (type_compact wellFormed.type).clear, clear_sizeText wellFormed.type,
    clear_widenedText _⟩

theorem members_plain {members : List Member} (wellFormed : ∀ m ∈ members, m.WellFormed) :
    ∀ n ∈ members.map Member.node, n.Plain :=
  List.forall_mem_map.mpr fun m mem => member_plain (wellFormed m mem)

theorem enum_plain {e : Enum} (wellFormed : e.WellFormed) : e.node.Plain := by
  refine .node ⟨?_, by simp⟩ ?_
  · exact clear_append.mpr ⟨by decide, (IsWord.compact wellFormed.name.1).clear⟩
  · exact List.forall_mem_map.mpr fun v mem => value_plain (wellFormed.values v mem)

theorem clear_supertypeText {supertype : Option String}
    (reference : ∀ t ∈ supertype, IsScopedName t) : Clear (supertypeText supertype) := by
  cases supertype with
  | none => exact (by decide : Clear "")
  | some name => exact clear_append.mpr ⟨by decide, (reference name rfl).compact.clear⟩

theorem struct_plain {s : Struct} (wellFormed : s.WellFormed) : s.node.Plain := by
  refine .node ⟨?_, by simp⟩ (members_plain wellFormed.members)
  change Clear _
  simp only [clear_append]
  have typeId := (Literal.isIntLiteral_writeHex s.typeId).compact.clear
  have name := (IsWord.compact wellFormed.name.1).clear
  exact ⟨⟨⟨⟨⟨by decide, name⟩, by decide⟩, typeId⟩, by decide⟩,
    clear_supertypeText wellFormed.supertype⟩

theorem case_plain {c : Case} (wellFormed : c.WellFormed) : c.node.Plain := by
  refine .node ⟨?_, by simp⟩ (members_plain wellFormed)
  have value := (Literal.isIntLiteral_writeDecimal c.value).compact.clear
  exact clear_append.mpr ⟨clear_append.mpr ⟨by decide, value⟩, by decide⟩

theorem union_plain {u : Union} (wellFormed : u.WellFormed) : u.node.Plain := by
  refine .node ⟨?_, by simp⟩ ?_
  · exact clear_append.mpr ⟨by decide, (IsWord.compact wellFormed.name.1).clear⟩
  · exact List.forall_mem_map.mpr fun c mem => case_plain (wellFormed.cases c mem)

theorem scope_plain (wellFormed : Scope.WellFormed level s) : s.node.Plain := by
  induction wellFormed with
  | scope named _ scopes enums structs unions ih =>
    rw [Scope.node_eq]
    refine .node ⟨?_, by simp⟩ ?_
    · change Clear _
      simp only [clear_append]
      exact ⟨⟨⟨⟨by decide, (IsWord.compact named.1).clear⟩, by decide⟩, clear_write _⟩, by decide⟩
    · intro n mem
      simp only [List.mem_append, List.mem_map] at mem
      rcases mem with ((⟨e, mem, rfl⟩ | ⟨t, mem, rfl⟩) | ⟨u, mem, rfl⟩) | ⟨child, mem, rfl⟩
      · exact enum_plain (enums e mem)
      · exact struct_plain (structs t mem)
      · exact union_plain (unions u mem)
      · exact ih child mem

/-- Every line of the outline of a well-formed schema can be told from its indentation. -/
theorem lines_plain {s : Specification} (wellFormed : s.WellFormed) :
    ∀ l ∈ s.lines, Line.Plain l.text := by
  intro l mem
  rw [s.lines_eq, Node.allLines_eq_flatMap] at mem
  obtain ⟨n, node, mem⟩ := List.mem_flatMap.mp mem
  obtain ⟨scope, inside, rfl⟩ := List.mem_map.mp node
  exact (scope_plain (wellFormed.scopes scope inside)).lines 0 l mem

end SchemaLang
