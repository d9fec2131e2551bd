import SchemaLang.Proofs.Compiler.Image
import SchemaLang.Proofs.Outline.Plain

/-! The layout of a rendering: one line for each element of the schema, in preorder, indented by its
nesting alone. A scope also shows a depth, which was counted when the schema was assembled, and it
agrees with the indentation. -/
namespace SchemaLang

namespace Outline

inductive Element where
  | scope (s : Scope)
  | enum (e : Enum)
  | value (v : Value)
  | struct (s : Struct)
  | member (m : Member)
  | union (u : Union)
  | case (c : Case)

namespace Element

def node : Element → Node
  | scope s => s.node
  | enum e => e.node
  | value v => v.node
  | struct s => s.node
  | member m => m.node
  | union u => u.node
  | case c => c.node

def text (x : Element) : String := x.node.text

/-- What is directly inside. A scope shows its enums first, its inner scopes last. -/
def children : Element → List Element
  | scope s => s.enums.map enum ++ s.structs.map struct ++ s.unions.map union ++ s.scopes.map scope
  | enum e => e.values.map value
  | struct s => s.members.map member
  | union u => u.cases.map case
  | case c => c.members.map member
  | value _ | member _ => []

theorem node_eq (x : Element) : x.node = .node x.text (x.children.map node) := by
  cases x with
  | scope s =>
    simp only [text, node, s.node_eq, Node.text, children, List.map_append, List.map_map]
    rfl
  | enum e => simp only [node, Enum.node, text, Node.text, children, List.map_map]; rfl
  | struct s => simp only [node, Struct.node, text, Node.text, children, List.map_map]; rfl
  | union u => simp only [node, Union.node, text, Node.text, children, List.map_map]; rfl
  | case c => simp only [node, Case.node, text, Node.text, children, List.map_map]; rfl
  | value | member => rfl

end Element

/-- Elements side by side at a level, each before all that is inside it. -/
inductive Preorder : Nat → List Element → List (Nat × Element) → Prop where
  | nil : Preorder level [] []
  | cons : Preorder (level + 1) x.children inside → Preorder level xs later →
      Preorder level (x :: xs) ((level, x) :: inside ++ later)

def line (p : Nat × Element) : Line := ⟨p.1, p.2.text⟩

mutual
theorem Node.lines_preorder (n : Node) (x : Element) (same : x.node = n) (level : Nat) :
    ∃ inside, Preorder (level + 1) x.children inside ∧
      n.lines level = ((level, x) :: inside).map line := by
  cases n with
  | node text children =>
    rw [x.node_eq] at same
    obtain ⟨rfl, children⟩ := Node.node.inj same
    obtain ⟨inside, preorder, lines⟩ := Node.allLines_preorder _ x.children children (level + 1)
    exact ⟨inside, preorder, congrArg (_ :: ·) lines⟩
theorem Node.allLines_preorder (ns : List Node) (xs : List Element)
    (same : xs.map Element.node = ns) (level : Nat) :
    ∃ listing, Preorder level xs listing ∧ allLines level ns = listing.map line := by
  cases ns with
  | nil =>
    obtain rfl := List.map_eq_nil_iff.mp same
    exact ⟨[], .nil, rfl⟩
  | cons n ns =>
    cases xs with
    | nil => cases same
    | cons x xs =>
      obtain ⟨first, rest⟩ := List.cons.inj same
      obtain ⟨inside, preorder, lines⟩ := Node.lines_preorder n x first level
      obtain ⟨later, others, more⟩ := Node.allLines_preorder ns xs rest level
      refine ⟨_, .cons preorder others, ?_⟩
      rw [allLines, lines, more, List.map_append]
end

/-- A scope is well-formed for the level at which it stands. -/
def Element.Fits (level : Nat) : Element → Prop
  | .scope s => Scope.WellFormed level s
  | _ => True

theorem Element.Fits.children {x : Element} (fits : x.Fits level) :
    ∀ y ∈ x.children, y.Fits (level + 1) := by
  cases x with
  | scope s =>
    obtain ⟨-, -, scopes, -⟩ : Scope.WellFormed level s := fits
    intro y mem
    simp only [Element.children, List.mem_append, List.mem_map] at mem
    rcases mem with ((⟨_, _, rfl⟩ | ⟨_, _, rfl⟩) | ⟨_, _, rfl⟩) | ⟨child, mem, rfl⟩
    · trivial
    · trivial
    · trivial
    · exact scopes child mem
  | value | member => simp [Element.children]
  | enum | struct | union | case => simp [Element.children, Element.Fits]

theorem Preorder.fits (preorder : Preorder level xs listing) (fits : ∀ x ∈ xs, x.Fits level) :
    ∀ p ∈ listing, p.2.Fits p.1 := by
  induction preorder with
  | nil => simp
  | cons _ _ inside later =>
    obtain ⟨first, others⟩ := List.forall_mem_cons.mp fits
    refine List.forall_mem_cons.mpr ⟨first, fun p mem => ?_⟩
    rcases List.mem_append.mp mem with mem | mem
    · exact inside first.children p mem
    · exact later others p mem

/-- A line without its end shows an element: four spaces for each level and then its text. For a
scope the text ends with a depth that asks for the same spaces. -/
structure Shows (p : Nat × Element) (line : Text) : Prop where
  single : '\n' ∉ line
  indentation : (line.takeWhile (· = ' ')).length = 4 * p.1
  text : line.dropWhile (· = ' ') = p.2.text.toList
  depth : ∀ s, p.2 = .scope s →
    p.2.text = "scope " ++ s.name ++ " (depth " ++ Radix.decimal.write s.depth ++ ")" ∧
      (line.takeWhile (· = ' ')).length = 4 * s.depth

theorem shows_body {p : Nat × Element} (plain : Line.Plain p.2.text) (fits : p.2.Fits p.1) :
    Shows p (line p).body := by
  have spaces : ∀ c ∈ List.replicate (4 * p.1) ' ', decide (c = ' ') = true := by
    intro c mem
    simp [(List.mem_replicate.mp mem).2]
  have solid : p.2.text.toList.takeWhile (· = ' ') = [] ∧
      p.2.text.toList.dropWhile (· = ' ') = p.2.text.toList := by
    have head := plain.solid
    cases same : p.2.text.toList with
    | nil => exact ⟨rfl, rfl⟩
    | cons c rest => simp [head c (by simp [same])]
  have indentation : (line p).body.takeWhile (· = ' ') = List.replicate (4 * p.1) ' ' := by
    rw [← List.append_nil (List.replicate ..), ← solid.1]
    exact List.takeWhile_append_of_pos spaces
  have text : (line p).body.dropWhile (· = ' ') = p.2.text.toList :=
    (List.dropWhile_append_of_pos spaces).trans solid.2
  refine ⟨fun mem => ?_, by rw [indentation, List.length_replicate], text, fun s same => ?_⟩
  · exact absurd (Line.single_body plain '\n' mem) (by decide)
  · rw [same] at fits
    obtain ⟨-, depth, -⟩ : Scope.WellFormed p.1 s := fits
    rw [same, indentation, List.length_replicate, Element.text, Element.node, s.node_eq]
    exact ⟨rfl, congrArg (4 * ·) depth.symm⟩

end Outline

theorem Line.join_render_toList (ls : List Line) :
    (String.join (ls.map render)).toList = (ls.map body).flatMap (· ++ ['\n']) := by
  induction ls with
  | nil => rfl
  | cons l ls ih =>
    rw [render_cons_toList, ih, List.map_cons, List.flatMap_cons, List.append_assoc]
    rfl

namespace Compiler

open Outline

/-- The rendering of what was compiled is one line for each element in preorder. -/
theorem render_layout {c : Compiler} (compiled : (c.compile text).1.result = .ok schema) :
    ∃ listing lines, Preorder 0 (schema.scopes.map .scope) listing ∧
      schema.render.toList = lines.flatMap (· ++ ['\n']) ∧ List.Forall₂ Shows listing lines := by
  have wellFormed := wellFormed_of_compile compiled
  obtain ⟨listing, preorder, lines⟩ :=
    Node.allLines_preorder schema.nodes (schema.scopes.map .scope) (List.map_map) 0
  rw [← schema.lines_eq] at lines
  have fits := preorder.fits (List.forall_mem_map.mpr wellFormed.scopes)
  have plain := lines_plain wellFormed
  rw [lines] at plain
  refine ⟨listing, (listing.map line).map Line.body, preorder, ?_, ?_⟩
  · rw [Specification.render, lines, Line.join_render_toList]
  · rw [List.map_map]
    refine List.forall₂_map_right_iff.mpr (List.forall₂_same.mpr fun p mem => ?_)
    exact shows_body (plain _ (List.mem_map_of_mem mem)) (fits p mem)

/-- The struct stands above the scope that is written before it. -/
theorem render_layout_nested :
    let text :=
      "scope a \x7b scope b \x7b enum e \x7b x, y \x7d \x7d struct s \x7b int8 z; \x7d \x7d"
    ∃ schema listing lines, (compile {} text).1.result = .ok schema ∧
      schema.lines.map (·.level) = [0, 1, 2, 1, 2, 3, 3] ∧
      Preorder 0 (schema.scopes.map .scope) listing ∧
      schema.render.toList = lines.flatMap (· ++ ['\n']) ∧ List.Forall₂ Shows listing lines := by
  intro text
  have compiled : (compile {} text).1.result = .ok ⟨[⟨"a", 0,
      [⟨"b", 1, [], [⟨"e", [⟨"x", 0⟩, ⟨"y", 1⟩]⟩], [], []⟩], [],
      [⟨"s", 0, none, [⟨"z", .builtin .int8, none⟩]⟩], []⟩]⟩ := by cbv
  obtain ⟨listing, lines, layout⟩ := render_layout compiled
  exact ⟨_, listing, lines, compiled, rfl, layout⟩

end Compiler
end SchemaLang
