import SchemaLang.Proofs.Compiler.Image
import SchemaLang.Proofs.Outline.Part
import SchemaLang.Proofs.Outline.Plain

/-! The rendering of a compiled schema determines the schema. The text gives the lines, the lines
give the tree, and the nodes of the tree give the parts of the schema. -/
namespace SchemaLang

open Outline

/-- How the text of a node begins, which tells scopes, enums, structs and unions apart. -/
def Outline.Node.kind (n : Node) : Text := n.text.toList.take 2

theorem enum_kind (e : Enum) : e.node.kind = ['e', 'n'] := by
  simp [Enum.node, Node.kind, Node.text]

theorem struct_kind (s : Struct) : s.node.kind = ['s', 't'] := by
  simp [Struct.node, Node.kind, Node.text]

theorem union_kind (u : Union) : u.node.kind = ['u', 'n'] := by
  simp [Union.node, Node.kind, Node.text]

theorem scope_kind (s : Scope) : s.node.kind = ['s', 'c'] := by
  simp [Scope.node_eq, Node.kind, Node.text]

theorem kind_cut (kind : Text) {ns ns' ms ms' : List Node} (inside : ∀ n ∈ ns, n.kind = kind)
    (inside' : ∀ n ∈ ns', n.kind = kind) (outside : ∀ m ∈ ms, m.kind ≠ kind)
    (outside' : ∀ m ∈ ms', m.kind ≠ kind) (same : ns ++ ms = ns' ++ ms') : ns = ns' ∧ ms = ms' :=
  cut_unique (p := fun n => n.kind == kind) (by simpa using inside) (by simpa using inside')
    (fun m mem => by simpa using outside m (List.mem_of_mem_head? mem))
    (fun m mem => by simpa using outside' m (List.mem_of_mem_head? mem)) same

theorem later_enums (s : Scope) : ∀ m ∈ s.structs.map Struct.node ++
    (s.unions.map Union.node ++ s.scopes.map Scope.node), m.kind ≠ ['e', 'n'] := by
  simp [or_imp, forall_and, struct_kind, union_kind, scope_kind]

theorem later_structs (s : Scope) :
    ∀ m ∈ s.unions.map Union.node ++ s.scopes.map Scope.node, m.kind ≠ ['s', 't'] := by
  simp [or_imp, forall_and, union_kind, scope_kind]

theorem later_unions (s : Scope) : ∀ m ∈ s.scopes.map Scope.node, m.kind ≠ ['u', 'n'] := by
  simp [scope_kind]

/-- The four parts of a scope, each of its kind, are found again behind one another. -/
theorem children_cut {s t : Scope}
    (same : s.enums.map Enum.node ++ s.structs.map Struct.node ++ s.unions.map Union.node ++
        s.scopes.map Scope.node =
      t.enums.map Enum.node ++ t.structs.map Struct.node ++ t.unions.map Union.node ++
        t.scopes.map Scope.node) :
    s.enums.map Enum.node = t.enums.map Enum.node ∧
      s.structs.map Struct.node = t.structs.map Struct.node ∧
      s.unions.map Union.node = t.unions.map Union.node ∧
      s.scopes.map Scope.node = t.scopes.map Scope.node := by
  simp only [List.append_assoc] at same
  obtain ⟨enums, same⟩ := kind_cut ['e', 'n'] (by simp [enum_kind]) (by simp [enum_kind])
    (later_enums s) (later_enums t) same
  obtain ⟨structs, same⟩ := kind_cut ['s', 't'] (by simp [struct_kind]) (by simp [struct_kind])
    (later_structs s) (later_structs t) same
  obtain ⟨unions, scopes⟩ := kind_cut ['u', 'n'] (by simp [union_kind]) (by simp [union_kind])
    (later_unions s) (later_unions t) same
  exact ⟨enums, structs, unions, scopes⟩

theorem scope_ext {s t : Scope} (name : s.name = t.name) (depth : s.depth = t.depth)
    (scopes : s.scopes = t.scopes) (enums : s.enums = t.enums) (structs : s.structs = t.structs)
    (unions : s.unions = t.unions) : s = t := by
  cases s
  cases t
  simp_all

theorem scope_node_injective (wellFormed : Scope.WellFormed level s)
    (wellFormed' : Scope.WellFormed level t) (same : s.node = t.node) : s = t := by
  induction wellFormed generalizing t with
  | scope named depth scopes enums structs unions ih =>
    cases wellFormed' with
    | scope named' depth' scopes' enums' structs' unions' =>
      rw [Scope.node_eq, Scope.node_eq] at same
      obtain ⟨text, children⟩ := Node.node.inj same
      replace text := congrArg String.toList text
      simp only [String.toList_append, List.append_assoc] at text
      obtain ⟨name, _⟩ := name_cut named named' (by simp; decide) (by simp; decide)
        (List.append_cancel_left text)
      obtain ⟨sameEnums, sameStructs, sameUnions, sameScopes⟩ := children_cut children
      replace sameEnums := map_injective (fun e mem f mem' =>
        enum_node_injective (enums e mem) (enums' f mem')) sameEnums
      replace sameStructs := map_injective (fun x mem y mem' =>
        struct_node_injective (structs x mem) (structs' y mem')) sameStructs
      replace sameUnions := map_injective (fun u mem v mem' =>
        union_node_injective (unions u mem) (unions' v mem')) sameUnions
      replace sameScopes := map_injective (fun x mem y mem' =>
        ih x mem (scopes' y mem')) sameScopes
      exact scope_ext name (depth.trans depth'.symm) sameScopes sameEnums sameStructs sameUnions

theorem nodes_injective {s t : Specification} (wellFormed : s.WellFormed)
    (wellFormed' : t.WellFormed) (same : s.nodes = t.nodes) : s = t := by
  have scopes := map_injective (fun x mem y mem' =>
    scope_node_injective (wellFormed.scopes x mem) (wellFormed'.scopes y mem')) same
  cases s
  cases t
  exact congrArg Specification.mk scopes

/-- Two well-formed schemas are rendered alike only if they are the same. -/
theorem render_wellFormed_injective {s t : Specification} (wellFormed : s.WellFormed)
    (wellFormed' : t.WellFormed) (same : s.render = t.render) : s = t := by
  have lines := Line.join_render_injective (lines_plain wellFormed) (lines_plain wellFormed') same
  rw [s.lines_eq, t.lines_eq] at lines
  exact nodes_injective wellFormed wellFormed' (Node.allLines_injective lines)

namespace Compiler

/-- What is rendered alike was compiled to the same schema, by whatever compilers and texts. -/
theorem render_injective {c d : Compiler} {text text' : String} {s t : Specification}
    (left : (c.compile text).1.result = .ok s) (right : (d.compile text').1.result = .ok t)
    (same : s.render = t.render) : s = t :=
  render_wellFormed_injective (wellFormed_of_compile left) (wellFormed_of_compile right) same

/-- A comment, a type id that is zero and a mark at the end are not rendered. -/
theorem render_injective_commented : ∃ s t,
    (compile {} "scope a \x7b struct s \x7b uint8 x; \x7d \x7d").1.result = .ok s ∧
      (compile {} "// note\nscope a \x7b struct s [0x0] \x7b uint8 x; \x7d; \x7d").1.result =
        .ok t ∧ s.render = t.render ∧ s = t := by
  let struct : Struct := ⟨"s", 0, none, [⟨"x", .builtin .uint8, none⟩]⟩
  have left : (compile {} "scope a \x7b struct s \x7b uint8 x; \x7d \x7d").1.result =
      .ok ⟨[⟨"a", 0, [], [], [struct], []⟩]⟩ := by cbv
  have right :
      (compile {} "// note\nscope a \x7b struct s [0x0] \x7b uint8 x; \x7d; \x7d").1.result =
        .ok ⟨[⟨"a", 0, [], [], [struct], []⟩]⟩ := by cbv
  exact ⟨_, _, left, right, rfl, render_injective left right rfl⟩

end Compiler
end SchemaLang
