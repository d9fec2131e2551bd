import SchemaLang.Primitive

/-! The parse tree of a schema, one type for each production of the grammar. Tokens keep
their exact text and a place, whose type is left open: the recognizer places a token by the
source that starts with it, a report by line and column. -/
namespace SchemaLang

structure Token (π : Type) where
  text : String
  place : π
  deriving DecidableEq, Repr

def Token.map (f : π → ρ) (t : Token π) : Token ρ := ⟨t.text, f t.place⟩

namespace ParseTree

structure EnumValue (π : Type) where
  name : Token π
  literal : Option (Token π)
  deriving DecidableEq, Repr

structure Enum (π : Type) where
  name : Token π
  values : List (EnumValue π)
  deriving DecidableEq, Repr

inductive TypeSpec (π : Type) where
  | primitive (kind : Primitive) (keyword : Token π)
  | octets (keyword : Token π) (size sizeField : Option (Token π))
  | named (name : Token π)
  deriving DecidableEq, Repr

structure Member (π : Type) where
  type : TypeSpec π
  name : Token π
  deriving DecidableEq, Repr

structure Struct (π : Type) where
  name : Token π
  typeId : Option (Token π)
  supertype : Option (Token π)
  members : List (Member π)
  deriving DecidableEq, Repr

structure Case (π : Type) where
  value : Token π
  members : List (Member π)
  deriving DecidableEq, Repr

structure Union (π : Type) where
  name : Token π
  discriminantType : Option (Token π)
  cases : List (Case π)
  deriving DecidableEq, Repr

inductive Declaration (π : Type) where
  | enum (e : Enum π)
  | struct (s : Struct π)
  | union (u : Union π)
  deriving DecidableEq, Repr

/-- What a scope holds: scopes and declarations in the order in which they are written. -/
inductive Item (π : Type) where
  | scope (name : Token π) (items : List (Item π))
  | declaration (d : Declaration π)
  deriving Repr

structure Scope (π : Type) where
  name : Token π
  items : List (Item π)
  deriving Repr

structure Specification (π : Type) where
  scopes : List (Scope π)
  deriving Repr

variable {π ρ : Type} (f : π → ρ)

def EnumValue.map (v : EnumValue π) : EnumValue ρ := ⟨v.name.map f, v.literal.map (·.map f)⟩

def Enum.map (e : Enum π) : Enum ρ := ⟨e.name.map f, e.values.map (·.map f)⟩

def TypeSpec.map : TypeSpec π → TypeSpec ρ
  | .primitive kind keyword => .primitive kind (keyword.map f)
  | .octets keyword size sizeField =>
    .octets (keyword.map f) (size.map (·.map f)) (sizeField.map (·.map f))
  | .named name => .named (name.map f)

def Member.map (m : Member π) : Member ρ := ⟨m.type.map f, m.name.map f⟩

def Struct.map (s : Struct π) : Struct ρ :=
  ⟨s.name.map f, s.typeId.map (·.map f), s.supertype.map (·.map f), s.members.map (·.map f)⟩

def Case.map (c : Case π) : Case ρ := ⟨c.value.map f, c.members.map (·.map f)⟩

def Union.map (u : Union π) : Union ρ :=
  ⟨u.name.map f, u.discriminantType.map (·.map f), u.cases.map (·.map f)⟩

def Declaration.map : Declaration π → Declaration ρ
  | .enum e => .enum (e.map f)
  | .struct s => .struct (s.map f)
  | .union u => .union (u.map f)

mutual
def Item.map : Item π → Item ρ
  | .scope name items => .scope (name.map f) (Item.mapAll items)
  | .declaration d => .declaration (d.map f)
def Item.mapAll : List (Item π) → List (Item ρ)
  | [] => []
  | i :: is => i.map :: Item.mapAll is
end

def Scope.map (s : Scope π) : Scope ρ := ⟨s.name.map f, Item.mapAll f s.items⟩

def Specification.map (s : Specification π) : Specification ρ := ⟨s.scopes.map (·.map f)⟩

theorem Item.mapAll_eq (items : List (Item π)) : Item.mapAll f items = items.map (·.map f) := by
  induction items with
  | nil => rfl
  | cons i is ih => rw [Item.mapAll, ih, List.map_cons]

end ParseTree
end SchemaLang
