import SchemaLang.Literal
import SchemaLang.Schema.Basic

/-! A schema as an outline: one line for each node, indented by its nesting. Within a scope
enums come first, then structs, unions and inner scopes, each in the order of declaration. -/
namespace SchemaLang

structure Line where
  level : Nat
  text : String
  deriving DecidableEq, Repr

namespace Line

def indentWidth : Nat := 4

def render (l : Line) : String :=
  String.ofList (List.replicate (indentWidth * l.level) ' ') ++ l.text ++ "\n"

end Line

namespace Outline

def value (level : Nat) (v : Value) : Line :=
  ⟨level, v.name ++ " = " ++ Radix.decimal.write v.ordinal⟩

def enum (level : Nat) (e : Enum) : List Line :=
  ⟨level, "enum " ++ e.name⟩ :: e.values.map (value (level + 1))

/-- An unsigned member also shows the signed type that holds its values. -/
def member (level : Nat) (m : Member) : Line :=
  let size := match m.octets with
    | some size => "[" ++ size.text ++ "]"
    | none => ""
  let widened := match m.type.widened with
    | some type => " (as " ++ type.text ++ ")"
    | none => ""
  ⟨level, m.name ++ ": " ++ m.type.text ++ size ++ widened⟩

def struct (level : Nat) (s : Struct) : List Line :=
  let supertype := match s.supertype with
    | some name => " extends " ++ name
    | none => ""
  ⟨level, "struct " ++ s.name ++ " [" ++ Literal.writeHex s.typeId ++ "]" ++ supertype⟩ ::
    s.members.map (member (level + 1))

def unionCase (level : Nat) (c : Case) : List Line :=
  ⟨level, "case " ++ Literal.writeDecimal c.value ++ ":"⟩ :: c.members.map (member (level + 1))

def union (level : Nat) (u : Union) : List Line :=
  ⟨level, "union " ++ u.name⟩ :: u.cases.flatMap (unionCase (level + 1))

mutual
def scope (level : Nat) : Scope → List Line
  | ⟨name, depth, scopes, enums, structs, unions⟩ =>
    ⟨level, "scope " ++ name ++ " (depth " ++ Radix.decimal.write depth ++ ")"⟩ ::
      (enums.flatMap (enum (level + 1)) ++ structs.flatMap (struct (level + 1)) ++
        unions.flatMap (union (level + 1)) ++ allScopes (level + 1) scopes)
def allScopes (level : Nat) : List Scope → List Line
  | [] => []
  | s :: rest => scope level s ++ allScopes level rest
end

end Outline

namespace Specification

def lines (s : Specification) : List Line := Outline.allScopes 0 s.scopes

def render (s : Specification) : String := String.join (s.lines.map Line.render)

end Specification
end SchemaLang
