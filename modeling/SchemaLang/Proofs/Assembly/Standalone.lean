import SchemaLang.Proofs.Assembly.Refinement
import SchemaLang.Proofs.ParseTree.Numeral
import SchemaLang.Proofs.Schema.Derivation

/-! Scopes and declarations by themselves. Each is assembled to what it is in a unit, except that a
scope by itself stands at depth zero; and what is wrong with it alone is what is wrong with any unit
in which nothing else is wrong. -/
namespace SchemaLang

mutual
/-- The scope and the scopes in it, further down by some levels. -/
def Scope.deeper (levels : Nat) : Scope → Scope
  | ⟨name, depth, scopes, enums, structs, unions⟩ =>
    ⟨name, depth + levels, Scope.allDeeper levels scopes, enums, structs, unions⟩
def Scope.allDeeper (levels : Nat) : List Scope → List Scope
  | [] => []
  | s :: rest => s.deeper levels :: Scope.allDeeper levels rest
end

/-- The scope to which a path leads that takes one inner scope after the other. -/
def Scope.within? (s : Scope) : List Nat → Option Scope
  | [] => some s
  | i :: path => s.scopes[i]?.bind (·.within? path)

def Specification.at? (s : Specification) (i : Nat) (path : List Nat) : Option Scope :=
  s.scopes[i]?.bind (·.within? path)

namespace ParseTree

variable {π : Type}

def Scope.asItem (s : Scope π) : Item π := .scope s.name s.items

def Item.asScope? : Item π → Option (Scope π)
  | .scope name items => some ⟨name, items⟩
  | .declaration _ => none

/-- The scopes directly inside. -/
def Scope.inner (s : Scope π) : List (Scope π) := s.items.filterMap Item.asScope?

def Scope.within? (s : Scope π) : List Nat → Option (Scope π)
  | [] => some s
  | i :: path => s.inner[i]?.bind (·.within? path)

def Specification.at? (s : Specification π) (i : Nat) (path : List Nat) : Option (Scope π) :=
  s.scopes[i]?.bind (·.within? path)

theorem Item.scope?_eq (i : Item π) (depth : Nat) :
    i.scope? depth = i.asScope?.map (Scope.meaning depth) := by
  cases i <;> rfl

theorem Scope.meaning_scopes (s : Scope π) (depth : Nat) :
    (s.meaning depth).scopes = s.inner.map (Scope.meaning (depth + 1)) := by
  have each : Item.scope? (π := π) (depth + 1) = fun i => i.asScope?.map (meaning (depth + 1)) :=
    funext fun i => i.scope?_eq (depth + 1)
  rw [Scope.meaning, Item.scopes_eq, Scope.inner, List.map_filterMap, each]

/-- A path leads to the meaning of the scope to which it leads in the tree. -/
theorem Scope.within?_meaning (s : Scope π) (depth : Nat) (path : List Nat) :
    (s.meaning depth).within? path =
      (s.within? path).map (Scope.meaning (depth + path.length)) := by
  induction path generalizing s depth with
  | nil => rfl
  | cons i path ih =>
    rw [SchemaLang.Scope.within?, Scope.within?, s.meaning_scopes, List.getElem?_map,
      List.length_cons]
    cases s.inner[i]? with
    | none => rfl
    | some t =>
      have next := ih t (depth + 1)
      rw [Nat.add_right_comm, Nat.add_assoc] at next
      exact next

theorem Specification.at?_meaning (s : Specification π) (i : Nat) (path : List Nat) :
    s.meaning.at? i path = (s.at? i path).map (Scope.meaning path.length) := by
  rw [SchemaLang.Specification.at?, Specification.at?, Specification.meaning, List.getElem?_map]
  cases s.scopes[i]? with
  | none => rfl
  | some t => simpa using t.within?_meaning 0 path

mutual
theorem Item.scope?_deeper (i : Item π) (depth levels : Nat) :
    i.scope? (depth + levels) = (i.scope? depth).map (·.deeper levels) := by
  cases i with
  | declaration d => rfl
  | scope name items =>
    have inside := Item.scopes_deeper items (depth + 1) levels
    rw [Nat.add_right_comm] at inside
    rw [Item.scope?, Item.scope?, inside]
    rfl
theorem Item.scopes_deeper (items : List (Item π)) (depth levels : Nat) :
    Item.scopes (depth + levels) items =
      SchemaLang.Scope.allDeeper levels (Item.scopes depth items) := by
  cases items with
  | nil => rfl
  | cons i is =>
    rw [Item.scopes, Item.scopes, i.scope?_deeper, Item.scopes_deeper is]
    cases i.scope? depth <;> rfl
end

/-- Where a scope stands decides no more than depths. -/
theorem Scope.meaning_deeper (s : Scope π) (depth levels : Nat) :
    s.meaning (depth + levels) = (s.meaning depth).deeper levels := by
  have inside := Item.scopes_deeper s.items (depth + 1) levels
  rw [Nat.add_right_comm] at inside
  rw [Scope.meaning, Scope.meaning, inside]
  rfl

theorem Item.faults_of_mem {items : List (Item π)} (faultless : Item.allFaults items = [])
    (mem : i ∈ items) : i.faults = [] := by
  rw [Item.allFaults_eq] at faultless
  exact List.flatMap_eq_nil_iff.mp faultless i mem

theorem Scope.within?_faultless {s : Scope π} (faultless : Item.allFaults s.items = [])
    (found : s.within? path = some n) : Item.allFaults n.items = [] := by
  induction path generalizing s with
  | nil =>
    obtain rfl := Option.some.inj found
    exact faultless
  | cons i path ih =>
    obtain ⟨t, inside, found⟩ := Option.bind_eq_some_iff.mp found
    obtain ⟨item, mem, same⟩ := List.mem_filterMap.mp (List.mem_of_getElem? inside)
    cases item with
    | declaration d => cases same
    | scope name items =>
      obtain rfl : ⟨name, items⟩ = t := Option.some.inj same
      have sound : Item.allFaults items = [] := Item.faults_of_mem faultless mem
      exact ih sound found

theorem Specification.at?_faultless {s : Specification π} (faultless : s.faults = [])
    (found : s.at? i path = some n) : Item.allFaults n.items = [] := by
  obtain ⟨t, top, found⟩ := Option.bind_eq_some_iff.mp found
  exact Scope.within?_faultless
    (List.flatMap_eq_nil_iff.mp faultless t (List.mem_of_getElem? top)) found

theorem Specification.faults_eq_items (s : Specification π) :
    s.faults = Item.allFaults (s.scopes.map Scope.asItem) := by
  rw [Item.allFaults_eq, List.flatMap_map]
  rfl

end ParseTree

theorem refusal?_settle (faults : List (Fault Position)) (value : α) :
    refusal? (settle faults value) = faults.head?.map Fault.error := by
  cases faults <;> rfl

/-- Parts that settle one after the other settle together, up to the first fault. -/
theorem mapM_settle (faults : α → List (Fault Position)) (value : α → β) (as : List α) :
    as.mapM (fun a => settle (faults a) (value a)) =
      settle (as.flatMap faults) (as.map value) := by
  induction as with
  | nil => rfl
  | cons a as ih =>
    rw [List.mapM_cons, ih, List.flatMap_cons, List.map_cons]
    cases faults a with
    | cons => rfl
    | nil => cases as.flatMap faults <;> rfl

namespace Assembler

open ParseTree (Item)

variable (b : Assembler)

theorem buildScope_result (s : ParseTree.Scope Position) :
    (b.buildScope s).1.result = settle (Item.allFaults s.items) (s.meaning 0) :=
  (Assembly.scope_runs s []).settles

theorem buildDeclaration_result (d : ParseTree.Declaration Position) :
    (b.buildDeclaration d).1.result = settle d.faults d.meaning :=
  Assembly.declaration_settles d

theorem build_eq_mapM (a : Assembler) (tree : ParseTree.Specification Position) :
    (a.build tree).1.result =
      .mk <$> tree.scopes.mapM fun s => (b.buildScope s).1.result := by
  have result : (a.build tree).1.result = settle tree.faults tree.meaning :=
    (Assembly.specification_runs tree).settles
  rw [result, funext (buildScope_result b), mapM_settle, ParseTree.Specification.faults]
  cases List.flatMap (fun s => Item.allFaults s.items) tree.scopes <;> rfl

/-- What the assembler has against an item by itself. -/
def error? (b : Assembler) : Item Position → Option BuildError
  | .scope name items => refusal? (b.buildScope ⟨name, items⟩).1.result
  | .declaration d => refusal? (b.buildDeclaration d).1.result

theorem error?_eq (i : Item Position) : b.error? i = i.faults.head?.map Fault.error := by
  cases i with
  | scope name items => rw [error?, buildScope_result, refusal?_settle, Item.faults]
  | declaration d => rw [error?, buildDeclaration_result, refusal?_settle, Item.faults]

theorem error?_eq_none_iff {b : Assembler} {i : Item Position} :
    b.error? i = none ↔ i.faults = [] := by
  rw [error?_eq, Option.map_eq_none_iff, List.head?_eq_none_iff]

/-- The items hold a part, at whatever level, and there is nothing against the others. -/
inductive Surrounds (b : Assembler) (part : Item Position) : List (Item Position) → Prop where
  | beside : (∀ i ∈ before ++ after, b.error? i = none) →
      Surrounds b part (before ++ part :: after)
  | around : Surrounds b part items → (∀ i ∈ before ++ after, b.error? i = none) →
      Surrounds b part (before ++ .scope name items :: after)

variable {b}

theorem allFaults_around (others : ∀ i ∈ before ++ after, b.error? i = none) :
    Item.allFaults (before ++ part :: after) = part.faults := by
  have faultless : (before ++ after).flatMap Item.faults = [] :=
    List.flatMap_eq_nil_iff.mpr fun i mem => error?_eq_none_iff.mp (others i mem)
  rw [List.flatMap_append, List.append_eq_nil_iff] at faultless
  rw [Item.allFaults_eq, List.flatMap_append, List.flatMap_cons, faultless.1, faultless.2,
    List.nil_append, List.append_nil]

theorem Surrounds.allFaults (surrounds : Surrounds b part items) :
    Item.allFaults items = part.faults := by
  induction surrounds with
  | beside others => exact allFaults_around others
  | around _ others ih => exact (allFaults_around others).trans ih

/-- A scope of a unit, at some level, beside the node for which it was built. -/
structure Detached (b : Assembler) (level : Nat) (n : ParseTree.Scope Position) (built : Scope) :
    Prop where
  scope : ∃ alone, (b.buildScope n).1.result = .ok alone ∧ built = alone.deeper level
  enums : List.Forall₂ (fun e e' => (b.buildDeclaration (.enum e)).1.result = .ok (.enum e'))
    (n.items.filterMap Item.enum?) built.enums
  structs : List.Forall₂ (fun s s' => (b.buildDeclaration (.struct s)).1.result = .ok (.struct s'))
    (n.items.filterMap Item.struct?) built.structs
  unions : List.Forall₂ (fun u u' => (b.buildDeclaration (.union u)).1.result = .ok (.union u'))
    (n.items.filterMap Item.union?) built.unions

theorem detached_of_faultless (b : Assembler) {n : ParseTree.Scope Position}
    (faultless : Item.allFaults n.items = []) (level : Nat) :
    b.Detached level n (n.meaning level) := by
  have declared {d} (mem : .declaration d ∈ n.items) :
      (b.buildDeclaration d).1.result = .ok d.meaning := by
    rw [buildDeclaration_result, show d.faults = [] from Item.faults_of_mem faultless mem]
    rfl
  refine ⟨⟨n.meaning 0, ?_, ?_⟩, ?_, ?_, ?_⟩
  · rw [buildScope_result, faultless]
    rfl
  · rw [← n.meaning_deeper, Nat.zero_add]
  all_goals
    refine List.forall₂_map_right_iff.mpr (List.forall₂_same.mpr fun part mem => ?_)
    obtain ⟨i, inside, same⟩ := List.mem_filterMap.mp mem
  · exact declared (ParseTree.Item.enum?_eq_some.mp same ▸ inside)
  · exact declared (ParseTree.Item.struct?_eq_some.mp same ▸ inside)
  · exact declared (ParseTree.Item.union?_eq_some.mp same ▸ inside)

/-- A unit is what its scopes are one after the other, up to the first error. In a unit that is
assembled every scope, on whatever path, is what it is by itself but for its depth, and every
declaration is what it is by itself. An error of some part by itself is the error of each unit that
holds the part and nothing else that is wrong. -/
theorem standalone_agrees (a b : Assembler) (tree : ParseTree.Specification Position) :
    (a.build tree).1.result =
        .mk <$> tree.scopes.mapM (fun s => (b.buildScope s).1.result) ∧
      (∀ schema, (a.build tree).1.result = .ok schema → ∀ i path,
        Option.Rel (b.Detached path.length) (tree.at? i path) (schema.at? i path)) ∧
      ∀ part e, b.error? part = some e →
        b.Surrounds part (tree.scopes.map ParseTree.Scope.asItem) →
          (a.build tree).1.result = .error e := by
  have result : (a.build tree).1.result = settle tree.faults tree.meaning :=
    (Assembly.specification_runs tree).settles
  refine ⟨build_eq_mapM b a tree, fun schema built i path => ?_, fun part e wrong surrounds => ?_⟩
  · rw [result] at built
    cases faultless : tree.faults with
    | cons => simp [faultless, settle] at built
    | nil =>
      obtain rfl : tree.meaning = schema := by simpa [faultless, settle] using built
      rw [tree.at?_meaning]
      cases found : tree.at? i path with
      | none => exact .none
      | some n => exact .some (detached_of_faultless b (tree.at?_faultless faultless found) _)
  · rw [error?_eq] at wrong
    rw [result, tree.faults_eq_items, surrounds.allFaults]
    cases faults : part.faults with
    | nil => simp [faults] at wrong
    | cons fault others =>
      obtain rfl : fault.error = e := by simpa [faults] using wrong
      rfl

/-- An enum two scopes deep, and a type id that is wrong beside it. -/
theorem standalone_agrees_nested :
    let word (text : String) : Token Position := ⟨text, ⟨1, 1⟩⟩
    let enum : ParseTree.Enum Position := ⟨word "e", [⟨word "x", some (word "7")⟩]⟩
    let nested : ParseTree.Scope Position := ⟨word "b", [.declaration (.enum enum)]⟩
    let tree : ParseTree.Specification Position := ⟨[⟨word "a", [nested.asItem]⟩]⟩
    let wrong : Item Position := .declaration (.struct ⟨word "s", some (word "1z"), none, []⟩)
    let schema : Specification := ⟨[⟨"a", 0, [⟨"b", 1, [], [⟨"e", [⟨"x", 0⟩]⟩], [], []⟩], [], [], []⟩]⟩
    let error : BuildError := .malformedLiteral "1z" .invalidDigit (some ⟨1, 1⟩)
    (build {} tree).1.result = .ok schema ∧
      Option.Rel (Detached {} 1) (some nested) (schema.at? 0 [0]) ∧
      error? {} wrong = some error ∧
      (build {} ⟨[⟨word "a", [nested.asItem, .scope (word "c") [wrong]]⟩]⟩).1.result =
        .error error := by
  intro word enum nested tree wrong schema error
  have built : (build {} tree).1.result = .ok schema := rfl
  have refused : error? {} wrong = some error := by cbv
  have sound : error? {} nested.asItem = none := rfl
  have inside : Surrounds {} wrong [nested.asItem, .scope (word "c") [wrong]] :=
    show Surrounds {} wrong ([nested.asItem] ++ .scope (word "c") ([] ++ wrong :: []) :: []) from
      .around (.beside (by simp)) (by simp [sound])
  have whole : Surrounds {} wrong [.scope (word "a") [nested.asItem, .scope (word "c") [wrong]]] :=
    show Surrounds {} wrong ([] ++ .scope (word "a") _ :: []) from .around inside (by simp)
  exact ⟨built, (standalone_agrees {} {} tree).2.1 schema built 0 [0], refused,
    (standalone_agrees {} {} _).2.2 wrong error refused whole⟩

end Assembler
end SchemaLang
