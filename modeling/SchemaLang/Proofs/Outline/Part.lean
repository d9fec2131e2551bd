import SchemaLang.Proofs.Outline.Text

/-! The nodes of enums, structs, unions and their parts, read back: the text of a node determines
what the part itself says, and its children what the part holds. -/
namespace SchemaLang

open Outline

theorem size_text_injective {x y : OctetsSize} (wellFormed : x.WellFormed)
    (wellFormed' : y.WellFormed) (same : x.text = y.text) : x = y := by
  have apart (n : UInt32) (field : String) (named : IsIdentifier field) :
      Radix.decimal.write n.toNat ≠ field := by
    rintro rfl
    obtain ⟨⟨c, run, chars, start, _⟩, _⟩ := named
    have digit := Radix.digit?_decimal.mp (Radix.digit_of_mem_write (chars ▸ List.mem_cons_self))
    rw [not_digit_of_start start] at digit
    cases digit
  cases wellFormed with
  | fixed =>
    cases wellFormed' with
    | fixed => rw [UInt32.toNat_inj.mp (Radix.write_injective same)]
    | sized named => exact absurd same (apart _ _ named)
  | sized named =>
    cases wellFormed' with
    | fixed => exact absurd same.symm (apart _ _ named)
    | sized => exact congrArg OctetsSize.sized same

theorem keyword_injective {p q : Primitive} (same : p.keyword = q.keyword) : p = q :=
  Option.some.inj (p.ofKeyword?_keyword.symm.trans (same ▸ q.ofKeyword?_keyword))

theorem type_text_injective (wellFormed : MemberType.WellFormed t x)
    (wellFormed' : MemberType.WellFormed u y) (same : t.text = u.text) : t = u := by
  cases t with
  | builtin kind =>
    cases u with
    | builtin kind' => exact congrArg MemberType.builtin (keyword_injective same)
    | named =>
      cases wellFormed' with
      | named reference => exact absurd same.symm (reference.ne_keyword kind)
  | named =>
    cases wellFormed with
    | named reference =>
      cases u with
      | builtin kind' => exact absurd same (reference.ne_keyword kind')
      | named => exact congrArg MemberType.named same

theorem value_node_injective {v w : Value} (named : IsIdentifier v.name)
    (named' : IsIdentifier w.name) (same : v.node = w.node) : v = w := by
  have text := congrArg String.toList (Node.node.inj same).1
  simp only [String.toList_append, List.append_assoc] at text
  obtain ⟨name, rest⟩ := name_cut named named' (by simp; decide) (by simp; decide) text
  have ordinal := Radix.write_injective (String.toList_injective (List.append_cancel_left rest))
  cases v
  cases w
  cases name
  cases ordinal
  rfl

/-- Behind the type of a member stands a blank, a bracket or nothing. -/
theorem member_tail (octets : Option OctetsSize) (type : MemberType) :
    ∀ c ∈ ((sizeText octets).toList ++ (widenedText type).toList).head?, isTokenChar c = false := by
  unfold sizeText widenedText
  split
  · simp; decide
  · split
    · simp; decide
    · simp

theorem sizeText_injective (wellFormed : MemberType.WellFormed t x)
    (wellFormed' : MemberType.WellFormed t y) (same : sizeText x = sizeText y) : x = y := by
  cases wellFormed with
  | octets sized =>
    cases wellFormed' with
    | octets sized' =>
      have text := (String.append_right_inj _).mp ((String.append_left_inj _).mp same)
      exact congrArg some (size_text_injective sized sized' text)
    | builtin other => exact absurd rfl other
  | builtin other =>
    cases wellFormed' with
    | octets => exact absurd rfl other
    | builtin => rfl
  | named =>
    cases wellFormed' with
    | named => rfl

theorem member_node_injective {m k : Member} (wellFormed : m.WellFormed)
    (wellFormed' : k.WellFormed) (same : m.node = k.node) : m = k := by
  have text := congrArg String.toList (Node.node.inj same).1
  simp only [String.toList_append, List.append_assoc] at text
  obtain ⟨name, rest⟩ :=
    name_cut wellFormed.name wellFormed'.name (by simp; decide) (by simp; decide) text
  obtain ⟨type, tail⟩ := compact_cut (type_compact wellFormed.type) (type_compact wellFormed'.type)
    (member_tail _ _) (member_tail _ _) (List.append_cancel_left rest)
  replace type := type_text_injective wellFormed.type wellFormed'.type type
  obtain ⟨_, sized⟩ := wellFormed
  obtain ⟨_, sized'⟩ := wellFormed'
  cases m
  cases k
  cases name
  cases type
  obtain rfl := sizeText_injective sized sized' (String.toList_injective (List.append_cancel_right tail))
  rfl

theorem map_injective {f : σ → τ} {as bs : List σ}
    (injective : ∀ a ∈ as, ∀ b ∈ bs, f a = f b → a = b) (same : as.map f = bs.map f) : as = bs := by
  induction as generalizing bs with
  | nil => exact (List.map_eq_nil_iff.mp same.symm).symm
  | cons a as ih =>
    cases bs with
    | nil => cases same
    | cons b bs =>
      obtain ⟨first, later⟩ := List.cons.inj same
      obtain rfl := injective a List.mem_cons_self b List.mem_cons_self first
      have rest := ih (fun a mem b mem' =>
        injective a (List.mem_cons_of_mem _ mem) b (List.mem_cons_of_mem _ mem')) later
      rw [rest]

theorem members_injective {ms ks : List Member} (wellFormed : ∀ m ∈ ms, m.WellFormed)
    (wellFormed' : ∀ k ∈ ks, k.WellFormed) (same : ms.map Member.node = ks.map Member.node) :
    ms = ks :=
  map_injective (fun m mem k mem' => member_node_injective (wellFormed m mem) (wellFormed' k mem'))
    same

theorem enum_node_injective {e f : Enum} (wellFormed : e.WellFormed) (wellFormed' : f.WellFormed)
    (same : e.node = f.node) : e = f := by
  obtain ⟨text, values⟩ := Node.node.inj same
  have name := (String.append_right_inj _).mp text
  replace values := map_injective (fun v mem w mem' =>
    value_node_injective (wellFormed.values v mem) (wellFormed'.values w mem')) values
  cases e
  cases f
  cases name
  cases values
  rfl

theorem supertypeText_injective (same : supertypeText x = supertypeText y) : x = y := by
  have apart (name : String) : supertypeText (some name) ≠ "" := by simp [supertypeText]
  cases x with
  | none =>
    cases y with
    | none => rfl
    | some name => exact absurd same.symm (apart name)
  | some name =>
    cases y with
    | none => exact absurd same (apart name)
    | some => exact congrArg some ((String.append_right_inj _).mp same)

theorem struct_node_injective {s t : Struct} (wellFormed : s.WellFormed)
    (wellFormed' : t.WellFormed) (same : s.node = t.node) : s = t := by
  obtain ⟨text, members⟩ := Node.node.inj same
  replace text := congrArg String.toList text
  simp only [String.toList_append, List.append_assoc] at text
  obtain ⟨name, rest⟩ := name_cut wellFormed.name wellFormed'.name (by simp; decide)
    (by simp; decide) (List.append_cancel_left text)
  obtain ⟨typeId, rest⟩ := compact_cut (Literal.isIntLiteral_writeHex _).compact
    (Literal.isIntLiteral_writeHex _).compact (by simp; decide) (by simp; decide)
    (List.append_cancel_left rest)
  replace typeId := Literal.writeHex_injective typeId
  have supertype := supertypeText_injective (String.toList_injective (List.append_cancel_left rest))
  replace members := members_injective wellFormed.members wellFormed'.members members
  cases s
  cases t
  cases name
  cases typeId
  cases supertype
  cases members
  rfl

theorem case_node_injective {c d : Case} (wellFormed : c.WellFormed) (wellFormed' : d.WellFormed)
    (same : c.node = d.node) : c = d := by
  obtain ⟨text, members⟩ := Node.node.inj same
  have value := Literal.writeDecimal_injective
    ((String.append_right_inj _).mp ((String.append_left_inj _).mp text))
  replace members := members_injective wellFormed wellFormed' members
  cases c
  cases d
  cases value
  cases members
  rfl

theorem union_node_injective {u v : Union} (wellFormed : u.WellFormed) (wellFormed' : v.WellFormed)
    (same : u.node = v.node) : u = v := by
  obtain ⟨text, cases⟩ := Node.node.inj same
  have name := (String.append_right_inj _).mp text
  replace cases := map_injective (fun c mem d mem' =>
    case_node_injective (wellFormed.cases c mem) (wellFormed'.cases d mem')) cases
  cases u
  cases v
  cases name
  cases cases
  rfl

end SchemaLang
