import SchemaLang.Proofs.ParseTree.Story

/-! A tree without the literals that stand beside the values of its enums. It means what the tree
means and has the same story: a value is counted, and its literal is never read. -/
namespace SchemaLang.ParseTree

variable {π : Type}

/-! The values of all enums, in the order of the text. -/

def Declaration.values : Declaration π → List (EnumValue π)
  | .enum e => e.values
  | .struct _ | .union _ => []

mutual
def Item.values : Item π → List (EnumValue π)
  | .scope _ items => Item.allValues items
  | .declaration d => d.values
def Item.allValues : List (Item π) → List (EnumValue π)
  | [] => []
  | i :: is => i.values ++ Item.allValues is
end

def Scope.values (s : Scope π) : List (EnumValue π) := Item.allValues s.items

def Specification.values (s : Specification π) : List (EnumValue π) := s.scopes.flatMap Scope.values

theorem Item.allValues_eq (items : List (Item π)) :
    Item.allValues items = items.flatMap Item.values := by
  induction items with
  | nil => rfl
  | cons i is ih => rw [Item.allValues, ih, List.flatMap_cons]

def EnumValue.unnumbered (v : EnumValue π) : EnumValue π := { v with literal := none }

def Enum.unnumbered (e : Enum π) : Enum π := { e with values := e.values.map EnumValue.unnumbered }

def Declaration.unnumbered : Declaration π → Declaration π
  | .enum e => .enum e.unnumbered
  | .struct s => .struct s
  | .union u => .union u

mutual
def Item.unnumbered : Item π → Item π
  | .scope name items => .scope name (Item.allUnnumbered items)
  | .declaration d => .declaration d.unnumbered
def Item.allUnnumbered : List (Item π) → List (Item π)
  | [] => []
  | i :: is => i.unnumbered :: Item.allUnnumbered is
end

def Scope.unnumbered (s : Scope π) : Scope π := { s with items := Item.allUnnumbered s.items }

def Specification.unnumbered (s : Specification π) : Specification π :=
  ⟨s.scopes.map Scope.unnumbered⟩

theorem Item.allUnnumbered_eq (items : List (Item π)) :
    Item.allUnnumbered items = items.map Item.unnumbered := by
  induction items with
  | nil => rfl
  | cons i is ih => rw [Item.allUnnumbered, ih, List.map_cons]

@[simp] theorem Enum.meaning_unnumbered (e : Enum π) : e.unnumbered.meaning = e.meaning := by
  simp [meaning, unnumbered, EnumValue.unnumbered, List.zipIdx_map]

@[simp] theorem Declaration.meaning_unnumbered (d : Declaration π) :
    d.unnumbered.meaning = d.meaning := by
  cases d <;> simp [unnumbered, meaning]

@[simp] theorem Declaration.story_unnumbered (d : Declaration π) :
    d.unnumbered.story = d.story := by
  cases d with
  | struct | union => rfl
  | enum e => simp [unnumbered, story, Enum.story, Enum.unnumbered]

@[simp] theorem Item.enum?_unnumbered (i : Item π) :
    i.unnumbered.enum? = i.enum?.map Enum.unnumbered := by
  cases i with
  | scope => rfl
  | declaration d => cases d <;> rfl

@[simp] theorem Item.struct?_unnumbered (i : Item π) : i.unnumbered.struct? = i.struct? := by
  cases i with
  | scope => rfl
  | declaration d => cases d <;> rfl

@[simp] theorem Item.union?_unnumbered (i : Item π) : i.unnumbered.union? = i.union? := by
  cases i with
  | scope => rfl
  | declaration d => cases d <;> rfl

@[simp] theorem Item.enums_unnumbered (items : List (Item π)) :
    Item.enums (Item.allUnnumbered items) = Item.enums items := by
  simp [Item.enums, Item.allUnnumbered_eq, List.filterMap_map, List.map_filterMap,
    Function.comp_def]

@[simp] theorem Item.structs_unnumbered (items : List (Item π)) :
    Item.structs (Item.allUnnumbered items) = Item.structs items := by
  simp only [Item.structs, Item.allUnnumbered_eq, List.filterMap_map, Function.comp_def,
    Item.struct?_unnumbered]

@[simp] theorem Item.unions_unnumbered (items : List (Item π)) :
    Item.unions (Item.allUnnumbered items) = Item.unions items := by
  simp only [Item.unions, Item.allUnnumbered_eq, List.filterMap_map, Function.comp_def,
    Item.union?_unnumbered]

mutual
theorem Item.scope?_unnumbered (i : Item π) (depth : Nat) :
    i.unnumbered.scope? depth = i.scope? depth := by
  cases i with
  | declaration d => rfl
  | scope name items =>
    simp only [Item.unnumbered, Item.scope?, Item.scopes_unnumbered items, Item.enums_unnumbered,
      Item.structs_unnumbered, Item.unions_unnumbered]
theorem Item.scopes_unnumbered (items : List (Item π)) (depth : Nat) :
    Item.scopes depth (Item.allUnnumbered items) = Item.scopes depth items := by
  cases items with
  | nil => rfl
  | cons i is =>
    rw [Item.allUnnumbered, Item.scopes, Item.scopes, i.scope?_unnumbered,
      Item.scopes_unnumbered is]
end

theorem Scope.meaning_unnumbered (s : Scope π) (depth : Nat) :
    s.unnumbered.meaning depth = s.meaning depth := by
  simp only [Scope.meaning, Scope.unnumbered, Item.scopes_unnumbered, Item.enums_unnumbered,
    Item.structs_unnumbered, Item.unions_unnumbered]

theorem Specification.meaning_unnumbered (s : Specification π) :
    s.unnumbered.meaning = s.meaning := by
  simp [Specification.meaning, Specification.unnumbered, Function.comp_def,
    Scope.meaning_unnumbered]

mutual
theorem Item.story_unnumbered (i : Item π) (outer : String) (depth : Nat) :
    i.unnumbered.story outer depth = i.story outer depth := by
  cases i with
  | declaration d => simp [Item.unnumbered, Item.story]
  | scope name items =>
    have closed := Scope.meaning_unnumbered ⟨name, items⟩ (depth + 1)
    rw [Scope.unnumbered] at closed
    rw [Item.unnumbered, Item.story, closed, Item.allStory_unnumbered items, Item.story]
theorem Item.allStory_unnumbered (items : List (Item π)) (outer : String) (depth : Nat) :
    Item.allStory outer depth (Item.allUnnumbered items) = Item.allStory outer depth items := by
  cases items with
  | nil => rfl
  | cons i is =>
    rw [Item.allUnnumbered, Item.allStory, Item.allStory, i.story_unnumbered,
      Item.allStory_unnumbered is]
end

theorem Scope.story_unnumbered (s : Scope π) (depth : Nat) :
    s.unnumbered.story depth = s.story depth := by
  rw [Scope.story, s.meaning_unnumbered, Scope.unnumbered, Item.allStory_unnumbered, Scope.story]

theorem Specification.story_unnumbered (s : Specification π) : s.unnumbered.story = s.story := by
  simp [Specification.story, Specification.unnumbered, List.flatMap_map, Scope.story_unnumbered]

end SchemaLang.ParseTree
