import SchemaLang.BuildError
import SchemaLang.ParseTree
import SchemaLang.Schema.Basic

/-! What a parse tree means, read off by recursion on the tree alone: the schema that it
describes, in which a number that cannot be read counts as zero, and the faults that stand in the
way of that schema, in the order of the text. -/
namespace SchemaLang

variable {π : Type}

/-- What is wrong with a schema, with its place in the text. -/
inductive Fault (π : Type) where
  | literal (text : String) (fault : LiteralFault) (place : π)
  | octets (fault : OctetsFault) (place : π)
  deriving DecidableEq, Repr

namespace Fault

def map (f : π → ρ) : Fault π → Fault ρ
  | literal text fault place => literal text fault (f place)
  | octets fault place => octets fault (f place)

def error : Fault Position → BuildError
  | literal text fault place => .malformedLiteral text fault (some place)
  | octets fault place => .ambiguousOctets fault (some place)

end Fault

/-- The value, unless there is a fault. Of several faults the first one counts. -/
def settle (faults : List (Fault Position)) (value : α) : Except BuildError α :=
  match faults with
  | [] => .ok value
  | fault :: _ => .error fault.error

namespace Token

def number (t : Token π) : Int32 := (Literal.readInt t.text.toList).toOption.getD 0

def size (t : Token π) : UInt32 := (Literal.readSize t.text.toList).toOption.getD 0

/-- A literal that cannot be read is a fault at its place. -/
def faults (read : Text → Except LiteralFault α) (t : Token π) : List (Fault π) :=
  match read t.text.toList with
  | .ok _ => []
  | .error fault => [.literal t.text fault t.place]

end Token

namespace ParseTree

/-- Values are counted. What is written beside them does not count. -/
def Enum.meaning (e : Enum π) : SchemaLang.Enum :=
  ⟨e.name.text, e.values.zipIdx.map fun (v, i) => ⟨v.name.text, i⟩⟩

def TypeSpec.type : TypeSpec π → MemberType
  | .primitive kind _ => .builtin kind
  | .octets .. => .builtin .octets
  | .named name => .named name.text

def TypeSpec.shape : TypeSpec π → Option OctetsSize
  | .octets _ (some size) _ => some (.fixed size.size)
  | .octets _ none (some field) => some (.sized field.text)
  | _ => none

def Member.meaning (m : Member π) : SchemaLang.Member := ⟨m.name.text, m.type.type, m.type.shape⟩

def Struct.meaning (s : Struct π) : SchemaLang.Struct :=
  { name := s.name.text
    typeId := (s.typeId.map Token.number).getD 0
    supertype := s.supertype.map Token.text
    members := s.members.map Member.meaning }

def Case.meaning (c : Case π) : SchemaLang.Case := ⟨c.value.number, c.members.map Member.meaning⟩

def Union.meaning (u : Union π) : SchemaLang.Union := ⟨u.name.text, u.cases.map Case.meaning⟩

def Declaration.meaning : Declaration π → SchemaLang.Declaration
  | .enum e => .enum e.meaning
  | .struct s => .struct s.meaning
  | .union u => .union u.meaning

def Item.enum? : Item π → Option (Enum π)
  | .declaration (.enum e) => some e
  | _ => none

def Item.struct? : Item π → Option (Struct π)
  | .declaration (.struct s) => some s
  | _ => none

def Item.union? : Item π → Option (Union π)
  | .declaration (.union u) => some u
  | _ => none

def Item.enums (items : List (Item π)) : List SchemaLang.Enum :=
  (items.filterMap Item.enum?).map Enum.meaning

def Item.structs (items : List (Item π)) : List SchemaLang.Struct :=
  (items.filterMap Item.struct?).map Struct.meaning

def Item.unions (items : List (Item π)) : List SchemaLang.Union :=
  (items.filterMap Item.union?).map Union.meaning

mutual
/-- The scope that an item is, if it is one. -/
def Item.scope? (depth : Nat) : Item π → Option SchemaLang.Scope
  | .scope name items =>
    some
      { name := name.text
        depth
        scopes := Item.scopes (depth + 1) items
        enums := Item.enums items
        structs := Item.structs items
        unions := Item.unions items }
  | .declaration _ => none
def Item.scopes (depth : Nat) : List (Item π) → List SchemaLang.Scope
  | [] => []
  | i :: is => (i.scope? depth).toList ++ Item.scopes depth is
end

theorem Item.scopes_eq (depth : Nat) (items : List (Item π)) :
    Item.scopes depth items = items.filterMap (Item.scope? depth) := by
  induction items with
  | nil => rfl
  | cons i is ih =>
    rw [Item.scopes, ih, List.filterMap_cons]
    cases i.scope? depth <;> rfl

def Scope.meaning (depth : Nat) (s : Scope π) : SchemaLang.Scope :=
  { name := s.name.text
    depth
    scopes := Item.scopes (depth + 1) s.items
    enums := Item.enums s.items
    structs := Item.structs s.items
    unions := Item.unions s.items }

def Specification.meaning (s : Specification π) : SchemaLang.Specification :=
  ⟨s.scopes.map (Scope.meaning 0)⟩

/-- Octets have a size or a size field. The size is read before the two are compared. -/
def TypeSpec.faults : TypeSpec π → List (Fault π)
  | .primitive .octets keyword => [.octets .neither keyword.place]
  | .primitive _ _ => []
  | .octets keyword none none => [.octets .neither keyword.place]
  | .octets _ none (some _) => []
  | .octets _ (some size) none => size.faults Literal.readSize
  | .octets keyword (some size) (some field) =>
    size.faults Literal.readSize ++ [.octets (.both size.size field.text) keyword.place]
  | .named _ => []

def Struct.faults (s : Struct π) : List (Fault π) :=
  s.typeId.toList.flatMap (Token.faults Literal.readInt) ++ s.members.flatMap (·.type.faults)

def Case.faults (c : Case π) : List (Fault π) :=
  c.value.faults Literal.readInt ++ c.members.flatMap (·.type.faults)

def Declaration.faults : Declaration π → List (Fault π)
  | .enum _ => []
  | .struct s => s.faults
  | .union u => u.cases.flatMap Case.faults

mutual
def Item.faults : Item π → List (Fault π)
  | .scope _ items => Item.allFaults items
  | .declaration d => d.faults
def Item.allFaults : List (Item π) → List (Fault π)
  | [] => []
  | i :: is => i.faults ++ Item.allFaults is
end

theorem Item.allFaults_eq (items : List (Item π)) :
    Item.allFaults items = items.flatMap Item.faults := by
  induction items with
  | nil => rfl
  | cons i is ih => rw [Item.allFaults, ih, List.flatMap_cons]

def Specification.faults (s : Specification π) : List (Fault π) :=
  s.scopes.flatMap fun scope => Item.allFaults scope.items

end ParseTree
end SchemaLang
