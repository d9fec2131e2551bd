import SchemaLang.ParseTree

/-! The tokens that a tree keeps, in the order of the text. Words and marks that only structure the
text are not among them. -/
namespace SchemaLang.ParseTree

variable {π ρ : Type} (f : π → ρ)

def EnumValue.tokens (v : EnumValue π) : List (Token π) := v.name :: v.literal.toList

def Enum.tokens (e : Enum π) : List (Token π) := e.name :: e.values.flatMap EnumValue.tokens

def TypeSpec.tokens : TypeSpec π → List (Token π)
  | .primitive _ keyword => [keyword]
  | .octets keyword size sizeField => keyword :: (size.toList ++ sizeField.toList)
  | .named name => [name]

def Member.tokens (m : Member π) : List (Token π) := m.type.tokens ++ [m.name]

def Struct.tokens (s : Struct π) : List (Token π) :=
  s.name :: (s.typeId.toList ++ s.supertype.toList ++ s.members.flatMap Member.tokens)

def Case.tokens (c : Case π) : List (Token π) := c.value :: c.members.flatMap Member.tokens

def Union.tokens (u : Union π) : List (Token π) :=
  u.name :: (u.discriminantType.toList ++ u.cases.flatMap Case.tokens)

def Declaration.tokens : Declaration π → List (Token π)
  | .enum e => e.tokens
  | .struct s => s.tokens
  | .union u => u.tokens

mutual
def Item.tokens : Item π → List (Token π)
  | .scope name items => name :: Item.allTokens items
  | .declaration d => d.tokens
def Item.allTokens : List (Item π) → List (Token π)
  | [] => []
  | i :: is => i.tokens ++ Item.allTokens is
end

def Scope.tokens (s : Scope π) : List (Token π) := s.name :: Item.allTokens s.items

def Specification.tokens (s : Specification π) : List (Token π) := s.scopes.flatMap Scope.tokens

theorem Item.allTokens_eq (items : List (Item π)) :
    Item.allTokens items = items.flatMap Item.tokens := by
  induction items with
  | nil => rfl
  | cons i is ih => rw [Item.allTokens, ih, List.flatMap_cons]

/-- A list of parts whose tokens move along with the parts. -/
theorem flatMap_tokens {α β : Type} {tokens : α → List (Token π)} {tokens' : β → List (Token ρ)}
    {view : α → β} (each : ∀ a, tokens' (view a) = (tokens a).map (·.map f)) (as : List α) :
    (as.map view).flatMap tokens' = (as.flatMap tokens).map (·.map f) := by
  rw [List.flatMap_map, List.map_flatMap, funext each]

@[simp] theorem EnumValue.tokens_map (v : EnumValue π) :
    (v.map f).tokens = v.tokens.map (·.map f) := by
  obtain ⟨name, literal⟩ := v
  cases literal <;> rfl

theorem Enum.tokens_map (e : Enum π) : (e.map f).tokens = e.tokens.map (·.map f) := by
  simp [tokens, map, flatMap_tokens f (EnumValue.tokens_map f)]

theorem TypeSpec.tokens_map (t : TypeSpec π) : (t.map f).tokens = t.tokens.map (·.map f) := by
  cases t with
  | primitive | named => rfl
  | octets keyword size sizeField => cases size <;> cases sizeField <;> rfl

theorem Member.tokens_map (m : Member π) : (m.map f).tokens = m.tokens.map (·.map f) := by
  simp [tokens, map, TypeSpec.tokens_map]

theorem Struct.tokens_map (s : Struct π) : (s.map f).tokens = s.tokens.map (·.map f) := by
  obtain ⟨name, typeId, supertype, members⟩ := s
  cases typeId <;> cases supertype <;>
    simp [tokens, map, flatMap_tokens f (Member.tokens_map f)]

theorem Case.tokens_map (c : Case π) : (c.map f).tokens = c.tokens.map (·.map f) := by
  simp [tokens, map, flatMap_tokens f (Member.tokens_map f)]

theorem Union.tokens_map (u : Union π) : (u.map f).tokens = u.tokens.map (·.map f) := by
  obtain ⟨name, discriminantType, cases⟩ := u
  cases discriminantType <;> simp [tokens, map, flatMap_tokens f (Case.tokens_map f)]

theorem Declaration.tokens_map (d : Declaration π) :
    (d.map f).tokens = d.tokens.map (·.map f) := by
  cases d with
  | enum e => exact e.tokens_map f
  | struct s => exact s.tokens_map f
  | union u => exact u.tokens_map f

mutual
theorem Item.tokens_map (i : Item π) : (i.map f).tokens = i.tokens.map (·.map f) := by
  cases i with
  | declaration d => exact d.tokens_map f
  | scope name items => exact congrArg (name.map f :: ·) (Item.allTokens_map items)
theorem Item.allTokens_map (items : List (Item π)) :
    Item.allTokens (Item.mapAll f items) = (Item.allTokens items).map (·.map f) := by
  cases items with
  | nil => rfl
  | cons i is =>
    rw [Item.mapAll, Item.allTokens, Item.allTokens, i.tokens_map, Item.allTokens_map is,
      List.map_append]
end

theorem Scope.tokens_map (s : Scope π) : (s.map f).tokens = s.tokens.map (·.map f) := by
  rw [tokens, map, Item.allTokens_map]
  rfl

theorem Specification.tokens_map (s : Specification π) :
    (s.map f).tokens = s.tokens.map (·.map f) :=
  flatMap_tokens f (Scope.tokens_map f) s.scopes

end SchemaLang.ParseTree
