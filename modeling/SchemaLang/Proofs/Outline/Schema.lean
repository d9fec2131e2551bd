import SchemaLang.Proofs.Outline.Node

/-! The outline of a schema is the outline of a tree with one node for each of its parts. -/
namespace SchemaLang

open Outline

def Value.node (v : Value) : Node := .node (v.name ++ " = " ++ Radix.decimal.write v.ordinal) []

def Enum.node (e : Enum) : Node := .node ("enum " ++ e.name) (e.values.map Value.node)

def sizeText (octets : Option OctetsSize) : String :=
  match octets with
  | some size => "[" ++ size.text ++ "]"
  | none => ""

def widenedText (type : MemberType) : String :=
  match type.widened with
  | some type => " (as " ++ type.text ++ ")"
  | none => ""

def Member.node (m : Member) : Node :=
  .node (m.name ++ ": " ++ m.type.text ++ sizeText m.octets ++ widenedText m.type) []

def supertypeText (supertype : Option String) : String :=
  match supertype with
  | some name => " extends " ++ name
  | none => ""

def Struct.node (s : Struct) : Node :=
  .node ("struct " ++ s.name ++ " [" ++ Literal.writeHex s.typeId ++ "]" ++ supertypeText s.supertype)
    (s.members.map Member.node)

def Case.node (c : Case) : Node :=
  .node ("case " ++ Literal.writeDecimal c.value ++ ":") (c.members.map Member.node)

def Union.node (u : Union) : Node := .node ("union " ++ u.name) (u.cases.map Case.node)

mutual
def Scope.node : Scope → Node
  | ⟨name, depth, scopes, enums, structs, unions⟩ =>
    .node ("scope " ++ name ++ " (depth " ++ Radix.decimal.write depth ++ ")")
      (enums.map Enum.node ++ structs.map Struct.node ++ unions.map Union.node ++
        Scope.allNodes scopes)
def Scope.allNodes : List Scope → List Node
  | [] => []
  | s :: rest => s.node :: Scope.allNodes rest
end

theorem Scope.allNodes_eq (scopes : List Scope) : allNodes scopes = scopes.map node := by
  induction scopes with
  | nil => rfl
  | cons s scopes ih => rw [allNodes, ih, List.map_cons]

theorem Scope.node_eq (s : Scope) : s.node =
    .node ("scope " ++ s.name ++ " (depth " ++ Radix.decimal.write s.depth ++ ")")
      (s.enums.map Enum.node ++ s.structs.map Struct.node ++ s.unions.map Union.node ++
        s.scopes.map Scope.node) := by
  cases s
  rw [node, allNodes_eq]

def Specification.nodes (s : Specification) : List Node := s.scopes.map Scope.node

namespace Outline

open Node

theorem lines_map {α : Type} {node : α → Node} {lines : α → List Line}
    (same : ∀ a, lines a = (node a).lines level) (as : List α) :
    as.flatMap lines = allLines level (as.map node) := by
  rw [allLines_eq_flatMap, List.flatMap_map, funext same]

theorem line_map {α : Type} {node : α → Node} {line : α → Line}
    (same : ∀ a, [line a] = (node a).lines level) (as : List α) :
    as.map line = allLines level (as.map node) := by
  rw [← lines_map same, List.map_eq_flatMap]

theorem members_eq (level : Nat) (members : List Member) :
    members.map (member level) = allLines level (members.map Member.node) :=
  line_map (fun _ => rfl) members

theorem enum_eq (level : Nat) (e : Enum) : enum level e = e.node.lines level := by
  have values : e.values.map (value (level + 1)) = allLines (level + 1) (e.values.map Value.node) :=
    line_map (fun _ => rfl) e.values
  rw [enum, values]
  rfl

theorem struct_eq (level : Nat) (s : Struct) : struct level s = s.node.lines level := by
  rw [struct, members_eq]
  rfl

theorem unionCase_eq (level : Nat) (c : Case) : unionCase level c = c.node.lines level := by
  rw [unionCase, members_eq]
  rfl

theorem union_eq (level : Nat) (u : Union) : union level u = u.node.lines level := by
  rw [union, lines_map (unionCase_eq (level + 1))]
  rfl

mutual
theorem scope_eq (level : Nat) (s : Scope) : scope level s = s.node.lines level := by
  cases s with
  | mk name depth scopes enums structs unions =>
    rw [scope, lines_map (enum_eq (level + 1)), lines_map (struct_eq (level + 1)),
      lines_map (union_eq (level + 1)), allScopes_eq, ← allLines_append, ← allLines_append,
      ← allLines_append]
    rfl
theorem allScopes_eq (level : Nat) (scopes : List Scope) :
    allScopes level scopes = allLines level (Scope.allNodes scopes) := by
  cases scopes with
  | nil => rfl
  | cons s scopes => rw [allScopes, scope_eq, allScopes_eq, Scope.allNodes, allLines]
end

end Outline

theorem Specification.lines_eq (s : Specification) : s.lines = Node.allLines 0 s.nodes := by
  rw [lines, Outline.allScopes_eq, Scope.allNodes_eq]
  rfl

end SchemaLang
