import SchemaLang.OctetsSize
import SchemaLang.Primitive

/-! A schema: scopes that hold enums, structs, unions and further scopes. Everything is kept in
the order of its declaration, nothing is merged, and names that refer to other declarations
stay unresolved. -/
namespace SchemaLang

structure Value where
  name : String
  ordinal : Nat
  deriving DecidableEq, Repr

structure Enum where
  name : String
  values : List Value := []
  deriving DecidableEq, Repr

structure Member where
  name : String
  type : MemberType
  octets : Option OctetsSize := none
  deriving DecidableEq, Repr

structure Struct where
  name : String
  typeId : Int32 := 0
  supertype : Option String := none
  members : List Member := []
  deriving DecidableEq, Repr

structure Case where
  value : Int32
  members : List Member := []
  deriving DecidableEq, Repr

structure Union where
  name : String
  cases : List Case := []
  deriving DecidableEq, Repr

/-- The depth of a scope counts the scopes around it. -/
structure Scope where
  name : String
  depth : Nat
  scopes : List Scope := []
  enums : List Enum := []
  structs : List Struct := []
  unions : List Union := []
  deriving Repr

structure Specification where
  scopes : List Scope := []
  deriving Repr

inductive Declaration where
  | enum (e : Enum)
  | struct (s : Struct)
  | union (u : Union)
  deriving DecidableEq, Repr

def Declaration.name : Declaration → String
  | enum e => e.name
  | struct s => s.name
  | union u => u.name

def Enum.add (e : Enum) (v : Value) : Enum := { e with values := e.values ++ [v] }

def Struct.add (s : Struct) (m : Member) : Struct := { s with members := s.members ++ [m] }

def Case.add (c : Case) (m : Member) : Case := { c with members := c.members ++ [m] }

def Union.add (u : Union) (c : Case) : Union := { u with cases := u.cases ++ [c] }

def Specification.add (s : Specification) (child : Scope) : Specification :=
  { s with scopes := s.scopes ++ [child] }

namespace Scope

def addScope (s child : Scope) : Scope := { s with scopes := s.scopes ++ [child] }

def addEnum (s : Scope) (e : Enum) : Scope := { s with enums := s.enums ++ [e] }

def addStruct (s : Scope) (t : Struct) : Scope := { s with structs := s.structs ++ [t] }

def addUnion (s : Scope) (u : Union) : Scope := { s with unions := s.unions ++ [u] }

/-- A declaration joins those of its own kind. -/
def declare (s : Scope) : Declaration → Scope
  | .enum e => s.addEnum e
  | .struct t => s.addStruct t
  | .union u => s.addUnion u

end Scope
end SchemaLang
