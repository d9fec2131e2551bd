import SchemaLang.Schema.Outline

/-! Outlines of trees in general: a node stands on a line of its own above its children, which are
indented by one level more. The lines determine the trees, since a line that is indented less
ends the children before it. -/
namespace SchemaLang.Outline

inductive Node where
  | node (text : String) (children : List Node)

mutual
def Node.lines (level : Nat) : Node → List Line
  | .node text children => ⟨level, text⟩ :: Node.allLines (level + 1) children
def Node.allLines (level : Nat) : List Node → List Line
  | [] => []
  | n :: rest => n.lines level ++ Node.allLines level rest
end

namespace Node

def text : Node → String
  | node text _ => text

theorem allLines_append (level : Nat) (ns ms : List Node) :
    allLines level (ns ++ ms) = allLines level ns ++ allLines level ms := by
  induction ns with
  | nil => rfl
  | cons n ns ih => rw [List.cons_append, allLines, allLines, ih, List.append_assoc]

theorem allLines_eq_flatMap (level : Nat) (ns : List Node) :
    allLines level ns = ns.flatMap (·.lines level) := by
  induction ns with
  | nil => rfl
  | cons n ns ih => rw [allLines, ih, List.flatMap_cons]

/-- The first line, if there is one, is indented less than a level. -/
def Below (level : Nat) (lines : List Line) : Prop := ∀ l ∈ lines.head?, l.level < level

theorem below_nil (level : Nat) : Below level [] := by
  intro l mem
  cases mem

theorem Below.not_line {line : String} (below : Below level (⟨level, line⟩ :: later)) : False :=
  Nat.lt_irrefl level (below _ rfl)

/-- The lines of trees at a level are followed by no line of a deeper level. -/
theorem Below.allLines (below : Below level rest) (ns : List Node) :
    Below (level + 1) (allLines level ns ++ rest) := by
  intro l mem
  cases ns with
  | nil => exact Nat.lt_succ_of_lt (below l mem)
  | cons n ns =>
    cases n with
    | node text children =>
      obtain rfl : ⟨level, text⟩ = l := Option.some.inj mem
      exact Nat.lt_succ_self level

mutual
theorem lines_append_injective (n m : Node) (level : Nat) (below : Below (level + 1) rest)
    (below' : Below (level + 1) rest') (same : n.lines level ++ rest = m.lines level ++ rest') :
    n = m ∧ rest = rest' := by
  cases n with
  | node text children =>
    cases m with
    | node text' children' =>
      obtain ⟨line, inner⟩ := List.cons.inj same
      obtain ⟨rfl, after⟩ :=
        allLines_append_injective children children' (level + 1) below below' inner
      cases line
      exact ⟨rfl, after⟩
theorem allLines_append_injective (ns ms : List Node) (level : Nat) (below : Below level rest)
    (below' : Below level rest') (same : allLines level ns ++ rest = allLines level ms ++ rest') :
    ns = ms ∧ rest = rest' := by
  cases ns with
  | nil =>
    cases ms with
    | nil => exact ⟨rfl, same⟩
    | cons m ms =>
      cases m with
      | node text children =>
        obtain rfl : rest = _ := same
        exact below.not_line.elim
  | cons n ns =>
    cases ms with
    | nil =>
      cases n with
      | node text children =>
        obtain rfl : _ = rest' := same
        exact below'.not_line.elim
    | cons m ms =>
      rw [allLines, allLines, List.append_assoc, List.append_assoc] at same
      obtain ⟨rfl, later⟩ :=
        lines_append_injective n m level (below.allLines ns) (below'.allLines ms) same
      obtain ⟨rfl, after⟩ := allLines_append_injective ns ms level below below' later
      exact ⟨rfl, after⟩
end

/-- Trees with the same outline are the same. -/
theorem allLines_injective (same : allLines level ns = allLines level ms) : ns = ms :=
  (allLines_append_injective ns ms level (below_nil level) (below_nil level)
    (congrArg (· ++ []) same)).1

end Node
end SchemaLang.Outline
