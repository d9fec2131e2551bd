import SchemaLang.Proofs.Assembly.Refinement

/-! The stack of open scopes is kept in balance on every way out. A scope takes away exactly what it
put on the stack, an item reaches no further down than the scope on top, and the branches for a
stack that has run empty are never taken. -/
namespace SchemaLang

/-- One node is appended to one of the collections, and everything else stays as it is. -/
inductive Scope.Gains (s : Scope) : Scope → Prop where
  | scope (child : Scope) : Gains s { s with scopes := s.scopes ++ [child] }
  | enum (e : Enum) : Gains s { s with enums := s.enums ++ [e] }
  | struct (t : Struct) : Gains s { s with structs := s.structs ++ [t] }
  | union (u : Union) : Gains s { s with unions := s.unions ++ [u] }

theorem Scope.gains_declare (s : Scope) (d : Declaration) : s.Gains (s.declare d) := by
  cases d with
  | enum e => exact .enum e
  | struct t => exact .struct t
  | union u => exact .union u

namespace Assembly

open ParseTree (Item)

theorem gains_grown (depth : Nat) (i : Item Position) (top : Scope) :
    top.Gains (grown depth [i] top) := by
  cases i with
  | scope name items => exact grown_scope depth name items top ▸ .scope _
  | declaration d => exact grown_declaration depth d top ▸ top.gains_declare d.meaning

/-- On every way out a scope leaves the stack as it found it. -/
theorem scope_restores (s : ParseTree.Scope Position) (opened : List Scope) :
    (scope s opened).2 = opened :=
  (scope_runs s opened).stack

/-- What is wrong with a tree never is a part that the assembly itself left out. -/
theorem settle_ne_missing (faults : List (Fault Position)) (value : α) (part : Part) :
    settle faults value ≠ .error (.missing part) := by
  rcases faults with _ | ⟨⟨⟩ | ⟨⟩, faults⟩ <;> simp [settle, Fault.error]

/-- An item that has a fault leaves the top as it was, and any other adds one node to it. -/
theorem item_gains (i : Item Position) (top : Scope) (opened : List Scope) :
    ∃ left, (item i (top :: opened)).2 = left :: opened ∧
      ((∃ e, (item i (top :: opened)).1.result = .error e) ∧ left = top ∨
        (item i (top :: opened)).1.result = .ok () ∧ top.Gains left) := by
  have runs := item_runs i top opened
  refine ⟨_, runs.stack, ?_⟩
  rw [runs.settles]
  cases faults : i.faults with
  | nil =>
    rw [sound_cons_of_faultless faults]
    exact .inr ⟨rfl, gains_grown _ i top⟩
  | cons fault others =>
    rw [sound_cons_of_faulty (by simp [faults]), grown_nil]
    exact .inl ⟨⟨_, rfl⟩, rfl⟩

/-- Whatever stands on the stack, a scope leaves it as it was, whether it is assembled or fails. The
work inside comes back with one scope above that stack, which is the one that is closed. An item
leaves what is below the top, and the top gains one node or, if the item fails, nothing. No scope is
ever found missing. -/
theorem walk_balanced (opened : List Scope) :
    (∀ s : ParseTree.Scope Position, (scope s opened).2 = opened ∧
      (∃ built, (allItems s.items ({ name := s.name.text, depth := opened.length } :: opened)).2 =
        built :: opened) ∧
      ∀ part, (scope s opened).1.result ≠ .error (.missing part)) ∧
    ∀ (i : Item Position) (top : Scope),
      (∃ left, (item i (top :: opened)).2 = left :: opened ∧
        ((∃ e, (item i (top :: opened)).1.result = .error e) ∧ left = top ∨
          (item i (top :: opened)).1.result = .ok () ∧ top.Gains left)) ∧
      ∀ part, (item i (top :: opened)).1.result ≠ .error (.missing part) := by
  refine ⟨fun s => ⟨scope_restores s opened, ⟨_, (allItems_runs s.items _ opened).stack⟩,
    fun part => ?_⟩, fun i top => ⟨item_gains i top opened, fun part => ?_⟩⟩
  · rw [(scope_runs s opened).settles]
    exact settle_ne_missing _ _ part
  · rw [(item_runs i top opened).settles]
    exact settle_ne_missing _ _ part

end Assembly
end SchemaLang
