import SchemaLang.Proofs.Grammar.Piece
import SchemaLang.Proofs.Grammar.Trail

/-! Recognition comes to an end. Everything that is repeated reads something each time it is found,
so no repetition is ever stuck, and a scope looks for scopes only behind its own keyword. Nesting
therefore needs no bound: there is one recognizer of scopes that reads the scopes inside by itself,
and every bound from the length of the text on stands for it. -/
namespace SchemaLang

/-- One construct more in front of those that a repetition has come to. -/
def Outcome.prepend (a : α) : Outcome (List α) → Outcome (List α)
  | .found as rest => .found (a :: as) rest
  | .absent stop => .absent stop
  | .broken stop e => .broken stop e

namespace Scan

variable {p q : Scan α}

/-- The repetition without trust in what is repeated. If a construct is found and nothing was read,
the answer is `none`, whatever was found before. -/
def manyStrict (p : Scan α) (s : Text) : Option (Outcome (List α)) :=
  match p s with
  | .found a rest =>
    if rest.length < s.length then (manyStrict p rest).map (·.prepend a) else none
  | .absent _ => some (.found [] s)
  | .broken stop e => some (.broken stop e)
termination_by s.length

theorem many_next (head : p s = .found a middle) (shorter : middle.length < s.length) :
    p.many s = (p.many middle).prepend a := by
  rw [many.eq_def, head]
  simp only [shorter, if_true]
  cases p.many middle <;> rfl

theorem manyStrict_eq (progress : Progress p) (s : Text) : p.manyStrict s = some (p.many s) := by
  induction size : s.length using Nat.strongRecOn generalizing s with
  | ind n ih =>
    cases head : p s with
    | found a middle =>
      have shorter := progress head
      rw [manyStrict.eq_def, head, many_next head shorter]
      simp [shorter, ih middle.length (size ▸ shorter) middle rfl]
    | absent stop => rw [manyStrict.eq_def, many.eq_def, head]
    | broken stop e => rw [manyStrict.eq_def, many.eq_def, head]

/-- What is found takes something away from the text, and so its repetition never gets stuck. -/
def Repeatable (p : Scan α) : Prop := Consumes p ∧ ∀ s, p.manyStrict s = some (p.many s)

theorem Consumes.repeatable (consumes : Consumes p) : Repeatable p :=
  ⟨consumes, manyStrict_eq consumes.progress⟩

/-- What comes behind a construct matters only where the construct ends. -/
theorem bind_congr_at {f g : α → Scan β} (first : p s = q s)
    (later : ∀ a rest, p s = .found a rest → f a rest = g a rest) :
    (p >>= f) s = (q >>= g) s := by
  rw [bind_apply, bind_apply, ← first]
  cases same : p s with
  | found a rest => exact later a rest same
  | absent | broken => rfl

theorem many_congr (consumes : Consumes p) (same : ∀ t, t <:+ s → p t = q t) :
    p.many s = q.many s := by
  induction size : s.length using Nat.strongRecOn generalizing s with
  | ind n ih =>
    have here := same s List.suffix_rfl
    cases head : p s with
    | found a middle =>
      have shorter := consumes.progress head
      have inner (t : Text) (behind : t <:+ middle) : p t = q t :=
        same t (behind.trans (consumes head).1)
      rw [many_next head shorter, many_next (here ▸ head) shorter,
        ih middle.length (size ▸ shorter) inner rfl]
    | absent stop => rw [many.eq_def, many.eq_def, ← here, head]
    | broken stop e => rw [many.eq_def, many.eq_def, ← here, head]

theorem many1_congr (consumes : Consumes p) (same : ∀ t, t <:+ s → p t = q t) :
    p.many1 s = q.many1 s := by
  apply bind_congr_at (same s List.suffix_rfl)
  intro a middle head
  have inner := (consumes head).1
  exact bind_congr_at (many_congr consumes fun t behind => same t (behind.trans inner))
    fun _ _ _ => rfl

end Scan

namespace Grammar

open Scan

theorem Trails.consumes {p : Scan α} (trails : Trails p tokens) (progress : Progress p) :
    Consumes p := by
  intro s a rest found
  refine ⟨(trails found).suffix, ?_⟩
  rintro rfl
  exact Nat.lt_irrefl _ (progress found)

theorem enumValue_progress : Progress enumValue := by
  apply enumValue_sound.progress
  rintro _ _ ⟨named, -⟩
  obtain ⟨c, run, same, -⟩ := named.1
  refine ⟨_, List.mem_cons_self .., ?_⟩
  rintro rfl
  simp at same

theorem mark_progress : Progress (mark m) := by
  intro s u rest found
  have reads := mark_found_iff.mp found
  exact reads.length_lt (List.mem_singleton_self _) (by cases m <;> decide)

/-- A scope that reads the scopes inside by itself, to any depth. -/
def anyScope : Scan (ParseTree.Scope Text) := fun s => scope s.length s

/-- One scope or more up to the end of the text, where scopes are read by `p`. -/
def specificationWith (p : Scan (ParseTree.Scope Text)) :
    Scan (ParseTree.Specification Text) := do
  let scopes ← (many1 p).expecting .scope
  (do layout; ending).expecting .scopeOrEnd
  pure ⟨scopes⟩

theorem scope_consumes (bound : Nat) : Consumes (scope bound) :=
  (scope_trails bound).consumes (scope_progress bound)

theorem anyScope_consumes : Consumes anyScope := fun s _ _ found => scope_consumes s.length found

variable {p q : Scan (ParseTree.Scope Text)}

theorem itemWith_congr_at (same : p s = q s) : itemWith p s = itemWith q s := by
  simp only [itemWith, orElse_apply, map_eq, bind_apply, same]

theorem itemWith_consumes (inner : Consumes p) : Consumes (itemWith p) := by
  intro s i rest found
  simp only [itemWith, orElse_found_iff, map_found_iff] at found
  rcases found with ⟨c, found, -⟩ | ⟨-, d, found, -⟩
  · exact inner found
  · exact declaration_trails.consumes declaration_progress found

/-- What a scope is depends on the scopes inside only behind its own keyword. -/
theorem scopeWith_congr (consumes : Consumes p) (same : ∀ t, t <:+ s → t ≠ s → p t = q t) :
    scopeWith p s = scopeWith q s := by
  apply bind_congr_at rfl
  intro _ afterKeyword opens
  apply bind_congr_at rfl
  intro _ afterName named
  apply bind_congr_at rfl
  intro _ body brace
  have inside : body <:+ afterKeyword :=
    (mark_trails (expecting_found_iff.mp brace)).suffix.trans
      (name_trails (expecting_found_iff.mp named)).suffix
  have keyword_suffix := (keyword_trails (by decide) opens).suffix
  have shorter := keyword_progress (by decide) (by decide) opens
  refine bind_congr_at (many_congr (itemWith_consumes consumes) fun t behind => ?_)
    fun _ _ _ => rfl
  have within := behind.trans inside
  apply itemWith_congr_at
  refine same t (within.trans keyword_suffix) ?_
  rintro rfl
  exact absurd within.length_le (by omega)

theorem scopeWith_nil (p : Scan (ParseTree.Scope Text)) : scopeWith p [] = .absent [] := by
  have empty : Text.skipLayout [] = [] := Text.skipLayout_of_no_unit rfl
  simp only [scopeWith, keyword, bind_apply, layout, empty]
  rfl

/-- Two bounds that the text does not exceed stand for each other. -/
theorem scope_bounds {n m : Nat} (small : s.length ≤ n) (small' : s.length ≤ m) :
    scope n s = scope m s := by
  induction n generalizing m s with
  | zero =>
    obtain rfl := List.length_eq_zero_iff.mp (Nat.le_zero.mp small)
    cases m with
    | zero => rfl
    | succ m => exact (scopeWith_nil (scope m)).symm
  | succ n ih =>
    cases m with
    | zero =>
      obtain rfl := List.length_eq_zero_iff.mp (Nat.le_zero.mp small')
      exact scopeWith_nil (scope n)
    | succ m =>
      apply scopeWith_congr (scope_consumes n)
      intro t behind proper
      have shorter := length_lt_of_proper behind proper
      exact ih (by omega) (by omega)

theorem scope_eq_anyScope {bound : Nat} (small : s.length ≤ bound) : scope bound s = anyScope s :=
  scope_bounds small (Nat.le_refl _)

theorem anyScope_unfolds : anyScope = scopeWith anyScope := by
  funext s
  rw [← scope_eq_anyScope (Nat.le_succ s.length)]
  apply scopeWith_congr (scope_consumes s.length)
  intro t behind _
  exact scope_eq_anyScope behind.length_le

/-- By induction on the length of the text, since only shorter texts are read inside. -/
theorem eq_anyScope_of_unfolds (unfolds : p = scopeWith p) : p = anyScope := by
  funext s
  induction size : s.length using Nat.strongRecOn generalizing s with
  | ind n ih =>
    rw [unfolds, anyScope_unfolds]
    refine (scopeWith_congr anyScope_consumes fun t behind proper => ?_).symm
    exact (ih t.length (size ▸ length_lt_of_proper behind proper) t rfl).symm

theorem specification_eq {bound : Nat} (small : s.length ≤ bound) :
    specification bound s = specificationWith anyScope s := by
  have scopes : (scope bound).many1 s = anyScope.many1 s :=
    many1_congr (scope_consumes bound) fun t behind =>
      scope_eq_anyScope (Nat.le_trans behind.length_le small)
  refine bind_congr_at ?_ fun _ _ _ => rfl
  rw [expecting, expecting, scopes]

/-- Whatever is found leaves a proper suffix, and no repetition gets stuck: not that of the scopes of
a text, of the items of a scope, of the further values of an enum with their commas, of the members
and cases, nor that of the pieces of layout, words and references. Skipping layout is such a
repetition and never fails. A scope is decided by what its inner scopes are on proper suffixes of its
text, and so the recursion over scopes has one solution. A text is recognized by that solution, and a
bound on nesting that is not below the length of the text makes no difference. -/
theorem recognition_terminates :
    (∀ bound, Repeatable (scope bound) ∧ Repeatable (itemWith (scope bound))) ∧
      Consumes declaration ∧ Consumes enumValue ∧ Repeatable member ∧ Repeatable unionCase ∧
      (Consumes (mark .comma) ∧ Repeatable (do let _ ← mark .comma; enumValue)) ∧
      (Repeatable layoutPiece ∧ Repeatable wordPiece ∧ Repeatable qualification) ∧
      (∀ s, ∃ pieces rest, layoutPiece.manyStrict s = some (.found pieces rest) ∧
        layout s = .found () rest) ∧
      wordOfPieces = word ∧
      (∀ s p, (∀ t, t <:+ s → t ≠ s → p t = anyScope t) → scopeWith p s = anyScope s) ∧
      (∀ p, p = scopeWith p ↔ p = anyScope) ∧
      ∀ source, recognize source = specificationWith anyScope source ∧
        ∀ bound, source.length ≤ bound → specification bound source = recognize source := by
  refine ⟨fun bound => ⟨(scope_consumes bound).repeatable,
      (itemWith_consumes (scope_consumes bound)).repeatable⟩,
    declaration_trails.consumes declaration_progress,
    enumValue_trails.consumes enumValue_progress,
    (member_trails.consumes member_progress).repeatable,
    (unionCase_trails.consumes unionCase_progress).repeatable,
    ⟨mark_trails.consumes mark_progress,
      (furtherValue_trails.consumes furtherValue_progress).repeatable⟩,
    ⟨layoutPiece_consumes.repeatable, wordPiece_consumes.repeatable,
      qualification_consumes.repeatable⟩,
    fun s => ?_, wordOfPieces_eq, fun s p same => ?_, fun p => ⟨eq_anyScope_of_unfolds, ?_⟩,
    fun source => ⟨specification_eq (Nat.le_refl _), fun bound small =>
      (specification_eq small).trans (specification_eq (Nat.le_refl _)).symm⟩⟩
  · obtain ⟨pieces, found, -⟩ := many_layoutPiece s
    exact ⟨pieces, s.skipLayout, found ▸ layoutPiece_consumes.repeatable.2 s, rfl⟩
  · have agree (t : Text) (behind : t <:+ s) (proper : t ≠ s) : anyScope t = p t :=
      (same t behind proper).symm
    rw [anyScope_unfolds]
    exact (scopeWith_congr anyScope_consumes agree).symm
  · rintro rfl
    exact anyScope_unfolds

/-- The inner scopes are answered only where they are shorter than the whole text, and the bound is
far above its length. -/
theorem recognition_terminates_nested :
    let s := "scope a{scope b{};}".toList
    let p : Scan (ParseTree.Scope Text) := fun t => if t.length < 19 then anyScope t else missing t
    (∀ t, t <:+ s → t ≠ s → p t = anyScope t) ∧ scopeWith p s = anyScope s ∧
      s.length ≤ 100 ∧ specification 100 s = recognize s := by
  intro s p
  obtain ⟨-, -, -, -, -, -, -, -, -, inner, -, bounded⟩ := recognition_terminates
  have same (t : Text) (behind : t <:+ s) (proper : t ≠ s) : p t = anyScope t :=
    if_pos (length_lt_of_proper behind proper)
  have small : s.length ≤ 100 := by decide
  exact ⟨same, inner s p same, small, (bounded s).2 100 small⟩

end Grammar
end SchemaLang
