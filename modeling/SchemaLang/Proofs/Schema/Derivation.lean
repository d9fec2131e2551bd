import SchemaLang.Proofs.Grammar.Phrase
import SchemaLang.Proofs.Literal.Numeral
import SchemaLang.Proofs.ParseTree.Meaning
import SchemaLang.Proofs.Schema.WellFormed

/-! What the grammar and the literals guarantee of a schema: a tree that is derived and has no
faults means a well-formed schema. -/
namespace SchemaLang

variable {π : Type}

theorem Token.faults_eq_nil_iff {read : Text → Except LiteralFault α} {t : Token π} :
    t.faults read = [] ↔ ∃ a, read t.text.toList = .ok a := by
  unfold Token.faults
  cases read t.text.toList <;> simp

theorem Token.size_wellFormed {t : Token π} (faultless : t.faults Literal.readSize = []) :
    (OctetsSize.fixed t.size).WellFormed := by
  obtain ⟨n, read⟩ := Token.faults_eq_nil_iff.mp faultless
  have same : t.size = n := by simp [Token.size, read, Except.toOption]
  exact .fixed (same ▸ Literal.one_le_of_readSize read)

namespace ParseTree

theorem Enum.ordinals (e : Enum π) (i : Nat) (h : i < e.meaning.values.length) :
    e.meaning.values[i].ordinal = i := by
  simp [Enum.meaning]

theorem Item.enum?_eq_some {i : Item π} : i.enum? = some e ↔ i = .declaration (.enum e) := by
  cases i with
  | scope => simp [Item.enum?]
  | declaration d => cases d <;> simp [Item.enum?]

theorem Item.struct?_eq_some {i : Item π} : i.struct? = some s ↔ i = .declaration (.struct s) := by
  cases i with
  | scope => simp [Item.struct?]
  | declaration d => cases d <;> simp [Item.struct?]

theorem Item.union?_eq_some {i : Item π} : i.union? = some u ↔ i = .declaration (.union u) := by
  cases i with
  | scope => simp [Item.union?]
  | declaration d => cases d <;> simp [Item.union?]

theorem Item.mem_enums {items : List (Item π)} :
    e ∈ Item.enums items ↔ ∃ t, .declaration (.enum t) ∈ items ∧ t.meaning = e := by
  simp [Item.enums, Item.enum?_eq_some]

theorem Item.mem_structs {items : List (Item π)} :
    s ∈ Item.structs items ↔ ∃ t, .declaration (.struct t) ∈ items ∧ t.meaning = s := by
  simp [Item.structs, Item.struct?_eq_some]

theorem Item.mem_unions {items : List (Item π)} :
    u ∈ Item.unions items ↔ ∃ t, .declaration (.union t) ∈ items ∧ t.meaning = u := by
  simp [Item.unions, Item.union?_eq_some]

end ParseTree

namespace Phrase

/-- Repetition asks no more than that each value is derived from some tokens. -/
theorem many_iff : (∃ ts, Many phrase ts as) ↔ ∀ a ∈ as, ∃ ts, phrase ts a := by
  constructor
  · intro ⟨ts, many⟩
    induction many with
    | nil => simp
    | cons first _ ih => exact List.forall_mem_cons.mpr ⟨⟨_, first⟩, ih⟩
  · intro each
    induction as with
    | nil => exact ⟨[], .nil⟩
    | cons a as ih =>
      obtain ⟨⟨ts, first⟩, others⟩ := List.forall_mem_cons.mp each
      obtain ⟨us, later⟩ := ih others
      exact ⟨ts ++ us, .cons first later⟩

theorem Many.each (many : Many phrase ts as) : ∀ a ∈ as, ∃ us, phrase us a :=
  many_iff.mp ⟨ts, many⟩

theorem typeSpec_wellFormed (derived : TypeSpec ts t) (faultless : t.faults = []) :
    t.type.WellFormed t.shape := by
  cases derived with
  | primitive other => exact .builtin other
  | fixed => exact .octets (Token.size_wellFormed faultless)
  | sized named => exact .octets (.sized named)
  | named reference => exact .named reference

theorem member_wellFormed (derived : Member ts m) (faultless : m.type.faults = []) :
    m.meaning.WellFormed := by
  obtain ⟨typed, named⟩ := derived
  exact ⟨named, typeSpec_wellFormed typed faultless⟩

theorem members_wellFormed (derived : Many Member ts members)
    (faultless : members.flatMap (·.type.faults) = []) :
    ∀ m ∈ members.map ParseTree.Member.meaning, m.WellFormed := by
  refine List.forall_mem_map.mpr fun m mem => ?_
  obtain ⟨us, derived⟩ := derived.each m mem
  exact member_wellFormed derived (List.flatMap_eq_nil_iff.mp faultless m mem)

theorem enumValue_named (derived : EnumValue ts v) : IsIdentifier v.name.text := by
  obtain ⟨named, _⟩ := derived
  exact named

theorem enumValues_named (first : EnumValue ts value)
    (others : Many (After "," EnumValue) us values) :
    ∀ v ∈ value :: values, IsIdentifier v.name.text := by
  refine List.forall_mem_cons.mpr ⟨enumValue_named first, fun v mem => ?_⟩
  obtain ⟨_, ⟨other⟩⟩ := others.each v mem
  exact enumValue_named other

theorem enum_wellFormed (derived : Enum ts e) : e.meaning.WellFormed := by
  obtain ⟨named, first, others, _⟩ := derived
  refine ⟨named, by simp [ParseTree.Enum.meaning], ?_, ParseTree.Enum.ordinals _⟩
  intro v mem
  obtain ⟨pair, inside, rfl⟩ := List.mem_map.mp mem
  exact enumValues_named first others _ (List.fst_mem_of_mem_zipIdx inside)

theorem struct_wellFormed (derived : Struct ts s) (faultless : s.faults = []) :
    s.meaning.WellFormed := by
  obtain ⟨named, _, inherits, members⟩ := derived
  obtain ⟨_, faultless⟩ := List.append_eq_nil_iff.mp faultless
  refine ⟨named, ?_, members_wellFormed members faultless⟩
  rcases inherits with _ | ⟨⟨⟨reference⟩⟩⟩
  · simp [ParseTree.Struct.meaning]
  · simpa [ParseTree.Struct.meaning] using reference

theorem case_wellFormed (derived : Case ts c) (faultless : c.faults = []) :
    c.meaning.WellFormed := by
  obtain ⟨_, members⟩ := derived
  exact members_wellFormed members (List.append_eq_nil_iff.mp faultless).2

theorem union_wellFormed (derived : Union ts u) (faultless : u.cases.flatMap (·.faults) = []) :
    u.meaning.WellFormed := by
  obtain ⟨named, _, cases⟩ := derived
  refine ⟨named, List.forall_mem_map.mpr fun c mem => ?_⟩
  obtain ⟨us, derived⟩ := cases.each c mem
  exact case_wellFormed derived (List.flatMap_eq_nil_iff.mp faultless c mem)

end Phrase

open ParseTree (Item)

/-- What the items of a scope are. -/
def Sound (items : List (Item Unit)) : Prop := ∀ i ∈ items, (∃ ts, Phrase.Item ts i) ∧ i.faults = []

variable {items : List (Item Unit)}

theorem sound_iff : Sound items ↔
    (∃ ts, Phrase.Many Phrase.Item ts items) ∧ Item.allFaults items = [] := by
  rw [Phrase.many_iff, Item.allFaults_eq, List.flatMap_eq_nil_iff]
  constructor
  · intro sound
    exact ⟨fun i mem => (sound i mem).1, fun i mem => (sound i mem).2⟩
  · intro ⟨derived, faultless⟩ i mem
    exact ⟨derived i mem, faultless i mem⟩

theorem enums_wellFormed (sound : Sound items) : ∀ e ∈ Item.enums items, e.WellFormed := by
  intro e mem
  obtain ⟨t, inside, rfl⟩ := Item.mem_enums.mp mem
  obtain ⟨⟨_, derived⟩, _⟩ := sound _ inside
  cases derived with
  | declaration declared =>
    cases declared with
    | enum derived => exact Phrase.enum_wellFormed derived

theorem structs_wellFormed (sound : Sound items) : ∀ s ∈ Item.structs items, s.WellFormed := by
  intro s mem
  obtain ⟨t, inside, rfl⟩ := Item.mem_structs.mp mem
  obtain ⟨⟨_, derived⟩, faultless⟩ := sound _ inside
  cases derived with
  | declaration declared =>
    cases declared with
    | struct derived => exact Phrase.struct_wellFormed derived faultless

theorem unions_wellFormed (sound : Sound items) : ∀ u ∈ Item.unions items, u.WellFormed := by
  intro u mem
  obtain ⟨t, inside, rfl⟩ := Item.mem_unions.mp mem
  obtain ⟨⟨_, derived⟩, faultless⟩ := sound _ inside
  cases derived with
  | declaration declared =>
    cases declared with
    | union derived => exact Phrase.union_wellFormed derived faultless

mutual
theorem innerScope_wellFormed (i : Item Unit) (derived : Phrase.Item ts i)
    (faultless : i.faults = []) (level : Nat) : ∀ s ∈ i.scope? level, s.WellFormed level := by
  cases i with
  | declaration d => simp [Item.scope?]
  | scope name items =>
    obtain ⟨named, inner⟩ := derived
    have sound := sound_iff.mpr ⟨⟨_, inner⟩, faultless⟩
    simp only [Item.scope?, Option.mem_some_iff, forall_eq']
    exact .scope named rfl (innerScopes_wellFormed items sound (level + 1)) (enums_wellFormed sound)
      (structs_wellFormed sound) (unions_wellFormed sound)
theorem innerScopes_wellFormed (items : List (Item Unit)) (sound : Sound items) (level : Nat) :
    ∀ s ∈ Item.scopes level items, s.WellFormed level := by
  cases items with
  | nil => simp [Item.scopes]
  | cons i is =>
    obtain ⟨⟨⟨_, derived⟩, faultless⟩, sound⟩ := List.forall_mem_cons.mp sound
    intro s mem
    rcases List.mem_append.mp mem with first | later
    · exact innerScope_wellFormed i derived faultless level s (Option.mem_toList.mp first)
    · exact innerScopes_wellFormed is sound level s later
end

theorem scope_wellFormed (derived : Phrase.Scope ts s) (faultless : Item.allFaults s.items = []) :
    (s.meaning level).WellFormed level := by
  obtain ⟨named, inner⟩ := derived
  have sound := sound_iff.mpr ⟨⟨_, inner⟩, faultless⟩
  exact .scope named rfl (innerScopes_wellFormed _ sound (level + 1)) (enums_wellFormed sound)
    (structs_wellFormed sound) (unions_wellFormed sound)

theorem specification_wellFormed (derived : Phrase.Specification ts tree)
    (faultless : tree.faults = []) : tree.meaning.WellFormed := by
  cases derived with
  | scopes first others =>
    obtain ⟨faultless, faultlessOthers⟩ := List.append_eq_nil_iff.mp faultless
    refine ⟨by simp [ParseTree.Specification.meaning], List.forall_mem_map.mpr ?_⟩
    refine List.forall_mem_cons.mpr ⟨scope_wellFormed first faultless, fun s mem => ?_⟩
    obtain ⟨_, other⟩ := others.each s mem
    exact scope_wellFormed other (List.flatMap_eq_nil_iff.mp faultlessOthers s mem)

end SchemaLang
