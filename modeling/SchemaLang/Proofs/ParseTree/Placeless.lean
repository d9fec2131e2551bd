import SchemaLang.Proofs.ParseTree.Meaning

/-! Changing the places of a tree leaves its meaning as it is, and its faults move along. -/
namespace SchemaLang

variable {π ρ : Type} (f : π → ρ)

@[simp] theorem Token.faults_map (read : Text → Except LiteralFault α) (t : Token π) :
    (t.map f).faults read = (t.faults read).map (·.map f) := by
  unfold Token.faults Token.map
  cases read t.text.toList <;> rfl

namespace ParseTree

@[simp] theorem Enum.meaning_map (e : Enum π) : (e.map f).meaning = e.meaning := by
  simp [Enum.meaning, Enum.map, EnumValue.map, Token.map, List.zipIdx_map]

@[simp] theorem Member.meaning_map (m : Member π) : (m.map f).meaning = m.meaning := by
  obtain ⟨type, name⟩ := m
  cases type with
  | primitive | named => rfl
  | octets keyword size field => cases size <;> cases field <;> rfl

@[simp] theorem Struct.meaning_map (s : Struct π) : (s.map f).meaning = s.meaning := by
  obtain ⟨name, typeId, supertype, members⟩ := s
  cases typeId <;> cases supertype <;>
    simp [Struct.meaning, Struct.map, Function.comp_def, Token.map, Token.number]

@[simp] theorem Case.meaning_map (c : Case π) : (c.map f).meaning = c.meaning := by
  simp [Case.meaning, Case.map, Function.comp_def, Token.map, Token.number]

@[simp] theorem Union.meaning_map (u : Union π) : (u.map f).meaning = u.meaning := by
  simp [Union.meaning, Union.map, Function.comp_def, Token.map]

@[simp] theorem Item.enum?_map (i : Item π) : (i.map f).enum? = i.enum?.map (·.map f) := by
  cases i with
  | scope => rfl
  | declaration d => cases d <;> rfl

@[simp] theorem Item.struct?_map (i : Item π) : (i.map f).struct? = i.struct?.map (·.map f) := by
  cases i with
  | scope => rfl
  | declaration d => cases d <;> rfl

@[simp] theorem Item.union?_map (i : Item π) : (i.map f).union? = i.union?.map (·.map f) := by
  cases i with
  | scope => rfl
  | declaration d => cases d <;> rfl

@[simp] theorem Item.enums_map (items : List (Item π)) :
    Item.enums (Item.mapAll f items) = Item.enums items := by
  simp [Item.enums, Item.mapAll_eq, List.filterMap_map, List.map_filterMap, Function.comp_def]

@[simp] theorem Item.structs_map (items : List (Item π)) :
    Item.structs (Item.mapAll f items) = Item.structs items := by
  simp [Item.structs, Item.mapAll_eq, List.filterMap_map, List.map_filterMap, Function.comp_def]

@[simp] theorem Item.unions_map (items : List (Item π)) :
    Item.unions (Item.mapAll f items) = Item.unions items := by
  simp [Item.unions, Item.mapAll_eq, List.filterMap_map, List.map_filterMap, Function.comp_def]

mutual
theorem Item.scope?_map (i : Item π) (depth : Nat) : (i.map f).scope? depth = i.scope? depth := by
  cases i with
  | declaration d => rfl
  | scope name items =>
    simp only [Item.map, Item.scope?, Item.scopes_map items, Item.enums_map, Item.structs_map,
      Item.unions_map]
    rfl
theorem Item.scopes_map (items : List (Item π)) (depth : Nat) :
    Item.scopes depth (Item.mapAll f items) = Item.scopes depth items := by
  cases items with
  | nil => rfl
  | cons i is => rw [Item.mapAll, Item.scopes, Item.scopes, i.scope?_map, Item.scopes_map is]
end

theorem Scope.meaning_map (s : Scope π) (depth : Nat) :
    (s.map f).meaning depth = s.meaning depth := by
  simp only [Scope.meaning, Scope.map, Item.scopes_map, Item.enums_map, Item.structs_map,
    Item.unions_map]
  rfl

theorem Specification.meaning_map (s : Specification π) : (s.map f).meaning = s.meaning := by
  simp [Specification.meaning, Specification.map, Function.comp_def, Scope.meaning_map]

@[simp] theorem TypeSpec.faults_map (t : TypeSpec π) :
    (t.map f).faults = t.faults.map (·.map f) := by
  cases t with
  | primitive kind keyword => cases kind <;> rfl
  | named => rfl
  | octets keyword size field =>
    cases size with
    | none => cases field <;> rfl
    | some size =>
      have read := Token.faults_map f Literal.readSize size
      cases field with
      | none => exact read
      | some field =>
        rw [TypeSpec.faults, List.map_append, ← read]
        rfl

@[simp] theorem Struct.faults_map (s : Struct π) : (s.map f).faults = s.faults.map (·.map f) := by
  obtain ⟨name, typeId, supertype, members⟩ := s
  cases typeId <;> simp [Struct.faults, Struct.map, Member.map, List.flatMap_map, List.map_flatMap]

@[simp] theorem Case.faults_map (c : Case π) : (c.map f).faults = c.faults.map (·.map f) := by
  simp [Case.faults, Case.map, Member.map, List.flatMap_map, List.map_flatMap]

theorem Declaration.faults_map (d : Declaration π) :
    (d.map f).faults = d.faults.map (·.map f) := by
  cases d <;>
    simp [Declaration.faults, Declaration.map, Union.map, List.flatMap_map, List.map_flatMap]

mutual
theorem Item.faults_map (i : Item π) : (i.map f).faults = i.faults.map (·.map f) := by
  cases i with
  | declaration d => exact d.faults_map f
  | scope name items => exact Item.allFaults_map items
theorem Item.allFaults_map (items : List (Item π)) :
    Item.allFaults (Item.mapAll f items) = (Item.allFaults items).map (·.map f) := by
  cases items with
  | nil => rfl
  | cons i is =>
    rw [Item.mapAll, Item.allFaults, Item.allFaults, i.faults_map, Item.allFaults_map is,
      List.map_append]
end

theorem Specification.faults_map (s : Specification π) :
    (s.map f).faults = s.faults.map (·.map f) := by
  simp [Specification.faults, Specification.map, Scope.map, Item.allFaults_map, List.flatMap_map,
    List.map_flatMap]

end ParseTree
end SchemaLang
