import SchemaLang.Proofs.Schema.Derivation

/-! A schema written back as a tree. For a well-formed schema the grammar derives the tree, nothing
is wrong with it and it means the schema. -/
namespace SchemaLang

open ParseTree (Item)

/-- A token without a place. -/
def Token.ofText (text : String) : Token Unit := ⟨text, ()⟩

def Enum.tree (e : Enum) : ParseTree.Enum Unit :=
  ⟨.ofText e.name, e.values.map fun v => ⟨.ofText v.name, none⟩⟩

def MemberType.tree : MemberType → Option OctetsSize → ParseTree.TypeSpec Unit
  | .builtin _, some (.fixed n) =>
    .octets (.ofText "octets") (some (.ofText (Radix.decimal.write n.toNat))) none
  | .builtin _, some (.sized field) => .octets (.ofText "octets") none (some (.ofText field))
  | .builtin kind, none => .primitive kind (.ofText kind.keyword)
  | .named name, _ => .named (.ofText name)

def Member.tree (m : Member) : ParseTree.Member Unit := ⟨m.type.tree m.octets, .ofText m.name⟩

def Struct.tree (s : Struct) : ParseTree.Struct Unit :=
  { name := .ofText s.name
    typeId := some (.ofText (Literal.writeDecimal s.typeId))
    supertype := s.supertype.map .ofText
    members := s.members.map Member.tree }

def Case.tree (c : Case) : ParseTree.Case Unit :=
  ⟨.ofText (Literal.writeDecimal c.value), c.members.map Member.tree⟩

def Union.tree (u : Union) : ParseTree.Union Unit := ⟨.ofText u.name, none, u.cases.map Case.tree⟩

mutual
def Scope.item : Scope → Item Unit
  | ⟨name, _, scopes, enums, structs, unions⟩ =>
    .scope (.ofText name)
      (enums.map (.declaration <| .enum ·.tree) ++ structs.map (.declaration <| .struct ·.tree) ++
        unions.map (.declaration <| .union ·.tree) ++ Scope.allItems scopes)
def Scope.allItems : List Scope → List (Item Unit)
  | [] => []
  | s :: rest => s.item :: Scope.allItems rest
end

/-- What a scope holds, one kind after the other. -/
def Scope.items (s : Scope) : List (Item Unit) :=
  s.enums.map (.declaration <| .enum ·.tree) ++ s.structs.map (.declaration <| .struct ·.tree) ++
    s.unions.map (.declaration <| .union ·.tree) ++ s.scopes.map Scope.item

theorem Scope.allItems_eq (scopes : List Scope) : Scope.allItems scopes = scopes.map Scope.item := by
  induction scopes with
  | nil => rfl
  | cons s scopes ih => rw [Scope.allItems, ih, List.map_cons]

theorem Scope.item_eq (s : Scope) : s.item = .scope (.ofText s.name) s.items := by
  cases s
  rw [Scope.item, Scope.allItems_eq]
  rfl

def Scope.tree (s : Scope) : ParseTree.Scope Unit := ⟨.ofText s.name, s.items⟩

def Specification.tree (s : Specification) : ParseTree.Specification Unit := ⟨s.scopes.map (·.tree)⟩

/-- The tree is derived, has no faults and means the schema. -/
structure Expresses (phrase : Phrase τ) (faults : τ → List (Fault Unit)) (meaning : τ → σ) (tree : τ)
    (schema : σ) : Prop where
  derived : ∃ ts, phrase ts tree
  faultless : faults tree = []
  means : meaning tree = schema

theorem expresses_all {tree : σ → τ}
    (each : ∀ a ∈ as, Expresses phrase faults meaning (tree a) a) :
    Expresses (Phrase.Many phrase) (·.flatMap faults) (·.map meaning) (as.map tree) as where
  derived := Phrase.many_iff.mpr (List.forall_mem_map.mpr fun a mem => (each a mem).derived)
  faultless :=
    List.flatMap_eq_nil_iff.mpr (List.forall_mem_map.mpr fun a mem => (each a mem).faultless)
  means := by
    rw [List.map_map]
    exact (List.map_congr_left fun a mem => (each a mem).means).trans (List.map_id as)

theorem number_ofText (v : Int32) : (Token.ofText (Literal.writeDecimal v)).number = v := by
  simp [Token.number, Token.ofText, Literal.readInt_writeDecimal, Except.toOption]

theorem number_faultless (v : Int32) :
    (Token.ofText (Literal.writeDecimal v)).faults Literal.readInt = [] := by
  simp [Token.faults, Token.ofText, Literal.readInt_writeDecimal]

theorem size_ofText {n : UInt32} (positive : 1 ≤ n.toNat) :
    (Token.ofText (Radix.decimal.write n.toNat)).size = n := by
  simp [Token.size, Token.ofText, Literal.readSize_write positive, Except.toOption]

theorem size_faultless {n : UInt32} (positive : 1 ≤ n.toNat) :
    (Token.ofText (Radix.decimal.write n.toNat)).faults Literal.readSize = [] := by
  simp [Token.faults, Token.ofText, Literal.readSize_write positive]

theorem type_expresses (wellFormed : type.WellFormed size) :
    Expresses Phrase.TypeSpec ParseTree.TypeSpec.faults (fun t => (t.type, t.shape))
      (type.tree size) (type, size) := by
  cases wellFormed with
  | octets sized =>
    cases sized with
    | fixed positive =>
      have means := congrArg (fun n => (MemberType.builtin .octets, some (OctetsSize.fixed n)))
        (size_ofText positive)
      exact ⟨⟨_, .fixed (Literal.isIntLiteral_write _)⟩, size_faultless positive, means⟩
    | sized named => exact ⟨⟨_, .sized named⟩, rfl, rfl⟩
  | builtin other =>
    refine ⟨⟨_, .primitive other⟩, ?_, rfl⟩
    unfold MemberType.tree ParseTree.TypeSpec.faults
    split <;> simp_all
  | named reference => exact ⟨⟨_, .named reference⟩, rfl, rfl⟩

theorem member_expresses (wellFormed : Member.WellFormed m) :
    Expresses Phrase.Member (·.type.faults) (·.meaning) m.tree m := by
  obtain ⟨⟨_, typed⟩, faultless, means⟩ := type_expresses wellFormed.type
  obtain ⟨type, shape⟩ := Prod.mk.inj means
  refine ⟨⟨_, .member typed wellFormed.name⟩, faultless, ?_⟩
  simp [Member.tree, ParseTree.Member.meaning, type, shape, Token.ofText]

theorem members_express (wellFormed : ∀ m ∈ members, Member.WellFormed m) :
    Expresses (Phrase.Many Phrase.Member) (·.flatMap (·.type.faults)) (·.map (·.meaning))
      (members.map Member.tree) members :=
  expresses_all fun m mem => member_expresses (wellFormed m mem)

theorem values_derived {values : List Value} (named : ∀ v ∈ values, IsIdentifier v.name) :
    ∃ ts, Phrase.Many (.After "," Phrase.EnumValue) ts
      (values.map fun v => ⟨.ofText v.name, none⟩) :=
  Phrase.many_iff.mpr (List.forall_mem_map.mpr fun v mem =>
    ⟨_, .token (.value (named v mem) .none)⟩)

/-- Counting the values again gives their ordinals. -/
theorem enum_means (ordinals : ∀ (i : Nat) (h : i < values.length), values[i].ordinal = i) :
    (Enum.tree ⟨name, values⟩).meaning = ⟨name, values⟩ := by
  refine congrArg (Enum.mk name) (List.ext_getElem (by simp [Enum.tree]) fun i _ inside => ?_)
  simp only [Enum.tree, List.getElem_map, List.getElem_zipIdx, Nat.zero_add]
  exact congrArg (Value.mk _) (ordinals i inside).symm

theorem enum_expresses (wellFormed : Enum.WellFormed e) :
    Expresses Phrase.Enum (fun _ => []) (·.meaning) e.tree e := by
  obtain ⟨name, values⟩ := e
  obtain ⟨named, nonempty, names, ordinals⟩ := wellFormed
  refine ⟨?_, rfl, enum_means ordinals⟩
  cases values with
  | nil => exact absurd rfl nonempty
  | cons v values =>
    obtain ⟨first, others⟩ := List.forall_mem_cons.mp names
    obtain ⟨ts, derived⟩ := values_derived others
    exact ⟨_, .enum named (.value first .none) derived .absent⟩

theorem supertype_derived {supertype : Option String}
    (reference : ∀ t ∈ supertype, IsScopedName t) :
    ∃ ts, Phrase.Optional (.After "extends" (.Terminal IsScopedName)) ts
      (supertype.map .ofText) := by
  cases supertype with
  | none => exact ⟨[], .none⟩
  | some t => exact ⟨_, .some (.token (.token (reference t rfl)))⟩

theorem struct_expresses (wellFormed : Struct.WellFormed s) :
    Expresses Phrase.Struct (·.faults) (·.meaning) s.tree s := by
  obtain ⟨⟨_, members⟩, faultless, means⟩ := members_express wellFormed.members
  obtain ⟨_, inherits⟩ := supertype_derived wellFormed.supertype
  have typeId := Phrase.TypeId.typeId (Literal.isIntLiteral_writeDecimal s.typeId)
  refine ⟨⟨_, .struct wellFormed.name (.some typeId) inherits members⟩, ?_, ?_⟩
  · simpa [Struct.tree, ParseTree.Struct.faults, number_faultless] using faultless
  · have typeId : ((some (Token.ofText (Literal.writeDecimal s.typeId))).map Token.number).getD 0 =
        s.typeId := number_ofText s.typeId
    have supertype : (s.supertype.map Token.ofText).map Token.text = s.supertype := by
      cases s.supertype <;> rfl
    simp only [Struct.tree, ParseTree.Struct.meaning, typeId, supertype, means]
    rfl

theorem case_expresses (wellFormed : Case.WellFormed c) :
    Expresses Phrase.Case (·.faults) (·.meaning) c.tree c := by
  obtain ⟨⟨_, derived⟩, faultless, means⟩ := members_express wellFormed
  refine ⟨⟨_, .case (Literal.isIntLiteral_writeDecimal _) derived⟩, ?_, ?_⟩
  · simpa [Case.tree, ParseTree.Case.faults, number_faultless] using faultless
  · simp only [Case.tree, ParseTree.Case.meaning, number_ofText, means]

theorem union_expresses (wellFormed : Union.WellFormed u) :
    Expresses Phrase.Union (·.cases.flatMap (·.faults)) (·.meaning) u.tree u := by
  obtain ⟨⟨_, derived⟩, faultless, means⟩ :=
    expresses_all fun c mem => case_expresses (wellFormed.cases c mem)
  refine ⟨⟨_, .union wellFormed.name .none derived⟩, faultless, ?_⟩
  simp only [Union.tree, ParseTree.Union.meaning, means, Token.ofText]

variable {s : Scope}

theorem enums_items (wellFormed : ∀ e ∈ s.enums, Enum.WellFormed e) :
    Item.enums s.items = s.enums := by
  have means := (expresses_all fun e mem => enum_expresses (wellFormed e mem)).means
  simpa [Item.enums, Scope.items, Item.enum?, Scope.item_eq, Function.comp_def] using means

theorem structs_items (wellFormed : ∀ t ∈ s.structs, Struct.WellFormed t) :
    Item.structs s.items = s.structs := by
  have means := (expresses_all fun t mem => struct_expresses (wellFormed t mem)).means
  simpa [Item.structs, Scope.items, Item.struct?, Scope.item_eq, Function.comp_def] using means

theorem unions_items (wellFormed : ∀ u ∈ s.unions, Union.WellFormed u) :
    Item.unions s.items = s.unions := by
  have means := (expresses_all fun u mem => union_expresses (wellFormed u mem)).means
  simpa [Item.unions, Scope.items, Item.union?, Scope.item_eq, Function.comp_def] using means

theorem scopes_items (means : ∀ child ∈ s.scopes, child.tree.meaning level = child) :
    Item.scopes level s.items = s.scopes := by
  have scope? (child : Scope) : child.item.scope? level = some (child.tree.meaning level) := by
    rw [Scope.item_eq]
    rfl
  have same := (List.map_congr_left means).trans (List.map_id s.scopes)
  simpa [Item.scopes_eq, Scope.items, scope?, Item.scope?, Function.comp_def] using same

theorem scope_means (scopes : ∀ child ∈ s.scopes, child.tree.meaning (s.depth + 1) = child)
    (enums : ∀ e ∈ s.enums, Enum.WellFormed e) (structs : ∀ t ∈ s.structs, Struct.WellFormed t)
    (unions : ∀ u ∈ s.unions, Union.WellFormed u) : s.tree.meaning s.depth = s := by
  simp only [ParseTree.Scope.meaning, Scope.tree, enums_items enums, structs_items structs,
    unions_items unions, scopes_items scopes]
  cases s
  rfl

theorem item_derived (derived : Phrase.Scope ts s.tree) : Phrase.Item ts s.item := by
  rw [Scope.item_eq]
  cases derived with
  | scope named inner => exact .scope named inner

theorem items_sound (scopes : ∀ child ∈ s.scopes,
      (∃ ts, Phrase.Scope ts child.tree) ∧ Item.allFaults child.items = [])
    (enums : ∀ e ∈ s.enums, Enum.WellFormed e) (structs : ∀ t ∈ s.structs, Struct.WellFormed t)
    (unions : ∀ u ∈ s.unions, Union.WellFormed u) : Sound s.items := by
  intro i mem
  simp only [Scope.items, List.mem_append, List.mem_map] at mem
  rcases mem with ((⟨e, mem, rfl⟩ | ⟨t, mem, rfl⟩) | ⟨u, mem, rfl⟩) | ⟨child, mem, rfl⟩
  · obtain ⟨⟨_, derived⟩, _, _⟩ := enum_expresses (enums e mem)
    exact ⟨⟨_, .declaration (.enum derived .absent)⟩, rfl⟩
  · obtain ⟨⟨_, derived⟩, faultless, _⟩ := struct_expresses (structs t mem)
    exact ⟨⟨_, .declaration (.struct derived .absent)⟩, faultless⟩
  · obtain ⟨⟨_, derived⟩, faultless, _⟩ := union_expresses (unions u mem)
    exact ⟨⟨_, .declaration (.union derived .absent)⟩, faultless⟩
  · obtain ⟨⟨_, derived⟩, faultless⟩ := scopes child mem
    refine ⟨⟨_, item_derived derived⟩, ?_⟩
    rwa [Scope.item_eq]

theorem scope_expresses (wellFormed : Scope.WellFormed level s) :
    Expresses Phrase.Scope (fun t => Item.allFaults t.items) (·.meaning level) s.tree s := by
  induction wellFormed with
  | scope named depth scopes enums structs unions ih =>
    have inner := items_sound (fun child mem => ⟨(ih child mem).derived, (ih child mem).faultless⟩)
      enums structs unions
    obtain ⟨⟨_, derived⟩, faultless⟩ := sound_iff.mp inner
    subst depth
    refine ⟨⟨_, .scope named derived⟩, faultless, ?_⟩
    exact scope_means (fun child mem => (ih child mem).means) enums structs unions

theorem specification_expresses {s : Specification} (wellFormed : s.WellFormed) :
    Expresses Phrase.Specification (·.faults) (·.meaning) s.tree s := by
  obtain ⟨scopes⟩ := s
  have each := expresses_all fun scope mem => scope_expresses (wellFormed.scopes scope mem)
  refine ⟨?_, each.faultless, congrArg Specification.mk each.means⟩
  cases scopes with
  | nil => exact absurd rfl wellFormed.nonempty
  | cons first others =>
    obtain ⟨_, derived⟩ := each.derived
    cases derived with
    | cons first others => exact ⟨_, .scopes first others⟩

end SchemaLang
