import SchemaLang.Proofs.Grammar.Parallel

/-! Scopes of parallel texts. The bounds on nesting may differ on the two sides as long as neither
text exceeds its own: every scope reads its keyword before it looks for scopes inside. -/
namespace SchemaLang

open Scan Grammar

/-- Related texts, neither longer than the bound on its side. -/
def Bounded (R : Text → Text → Prop) (n m : Nat) (s s' : Text) : Prop :=
  R s s' ∧ s.length ≤ n ∧ s'.length ≤ m

variable {R : Text → Text → Prop} {f g : Text → π} {n m : Nat}

theorem flip_bounded : flip (Bounded R n m) = Bounded (flip R) m n := by
  funext s' s
  simp only [flip, Bounded, and_comm]

theorem Follows.bounded (follows : Follows R R) : Follows (Bounded R n m) (Bounded R n m) where
  layout := by
    intro s s' ⟨related, small, small'⟩
    have shorter := s.skipLayout_length
    have shorter' := s'.skipLayout_length
    exact ⟨follows.layout related, by omega, by omega⟩
  ending related := follows.ending related.1
  step := by
    intro c s s' solid other ⟨related, small, small'⟩
    obtain ⟨t, rfl, next⟩ := follows.step solid other related
    simp only [List.length_cons] at small small'
    exact ⟨t, rfl, next, by omega, by omega⟩
  close := by
    intro s s' ⟨related, small, small'⟩
    obtain ⟨t, rfl, next⟩ := follows.close related
    simp only [List.length_cons] at small small'
    exact ⟨t, rfl, next, by omega, by omega⟩

theorem Parallel.bounded (par : Parallel R R f g) (n m : Nat) :
    Parallel (Bounded R n m) (Bounded R n m) f g where
  forth := par.forth.bounded
  back := flip_bounded ▸ par.back.bounded
  place related := par.place related.1

/-- What is read makes both texts shorter. -/
theorem Scan.Agree.shorter {V : α → β → Prop} {p : Scan α} {q : Scan β} (agree : Agree R V R p q)
    (progress : Progress p) (progress' : Progress q) :
    Agree (Bounded R (n + 1) (m + 1)) V (Bounded R n m) p q := by
  intro s s' ⟨related, small, small'⟩
  cases left : p s with
  | found a rest =>
    obtain ⟨b, rest', right, alike, rests⟩ := agree.found related left
    have shorter := progress left
    have shorter' := progress' right
    exact right ▸ .found alike ⟨rests, by omega, by omega⟩
  | absent stop =>
    obtain ⟨stop', right⟩ := agree.absent related ⟨stop, left⟩
    exact right ▸ .absent
  | broken stop e =>
    obtain ⟨stop', right⟩ := agree.broken related left
    exact right ▸ .broken

theorem Grammar.keyword_absent_of_empty (reserved : w ∈ reservedWords) : Absent (keyword w) [] :=
  keyword_absent_at_end (Text.skipLayout_of_no_unit rfl) reserved

theorem Grammar.quiet_ending : Quiet (do layout; ending) := by
  apply quiet_layout.bind
  intro _ s stop e
  cases s <;> simp [ending]

namespace Parallel

variable (par : Parallel R R f g)
include par

theorem itemWith_agree {p q : Scan (ParseTree.Scope Text)}
    (inner : Agree R (Alike (ParseTree.Scope.map f) (ParseTree.Scope.map g)) R p q) :
    Agree R (Alike (ParseTree.Item.map f) (ParseTree.Item.map g)) R (itemWith p) (itemWith q) := by
  apply Agree.orElse
  · apply inner.map
    intro c c' same
    obtain ⟨names, items⟩ := ParseTree.Scope.mk.inj same
    exact congrArg₂ ParseTree.Item.scope names items
  · apply (par.declaration_agree (par.mark_agree (by decide))).map
    intro d d' same
    exact congrArg ParseTree.Item.declaration same

/-- The keyword pays for the bounds on what is inside. -/
theorem scopeWith_agree {p q : Scan (ParseTree.Scope Text)} (progress : Progress p)
    (progress' : Progress q)
    (inner : Agree (Bounded R n m) (Alike (ParseTree.Scope.map f) (ParseTree.Scope.map g))
      (Bounded R n m) p q) :
    Agree (Bounded R (n + 1) (m + 1)) (Alike (ParseTree.Scope.map f) (ParseTree.Scope.map g))
      (Bounded R n m) (scopeWith p) (scopeWith q) := by
  have small := par.bounded n m
  have reads := keyword_progress (w := "scope") (by decide) (by decide)
  apply ((par.keyword_agree (by decide)).shorter reads reads).andThen
  apply (small.name_agree.expecting _).bind
  intro name name' names
  apply ((small.mark_agree (by decide)).expecting _).andThen
  apply ((small.itemWith_agree inner).many (item_progress progress) (item_progress progress')).bind
  intro items items' same
  apply (small.close_agree.expecting _).andThen
  have mapped : ParseTree.Item.mapAll f items = ParseTree.Item.mapAll g items' := by
    rw [ParseTree.Item.mapAll_eq, ParseTree.Item.mapAll_eq]
    exact same
  exact .pure (congrArg₂ ParseTree.Scope.mk names mapped)

theorem scope_agree (n m : Nat) :
    Agree (Bounded R n m) (Alike (ParseTree.Scope.map f) (ParseTree.Scope.map g)) (Bounded R n m)
      (scope n) (scope m) := by
  induction n generalizing m with
  | zero =>
    intro s s' ⟨related, small, small'⟩
    obtain rfl : s = [] := List.length_eq_zero_iff.mp (Nat.le_zero.mp small)
    have absent : Absent (keyword "scope") s' :=
      (par.keyword_agree (by decide)).absent related (keyword_absent_of_empty (by decide))
    obtain ⟨stop', right⟩ := scope_absent absent m
    exact right ▸ .absent
  | succ n ih =>
    cases m with
    | zero =>
      intro s s' ⟨related, small, small'⟩
      obtain rfl : s' = [] := List.length_eq_zero_iff.mp (Nat.le_zero.mp small')
      have absent : Absent (keyword "scope") s :=
        (par.symm.keyword_agree (by decide)).absent related (keyword_absent_of_empty (by decide))
      obtain ⟨stop, left⟩ := scope_absent absent (n + 1)
      exact left ▸ .absent
    | succ m =>
      apply (par.scopeWith_agree (scope_progress n) (scope_progress m) (ih m)).weaken
      · exact fun _ _ related => related
      · intro s s' ⟨related, small, small'⟩
        exact ⟨related, by omega, by omega⟩

theorem ending_carries : Carries R (Alike id id) R (do layout; ending) (do layout; ending) := by
  intro s s' u rest related found
  simp only [bind_found_iff, layout_found_iff, ending_found_iff] at found
  obtain ⟨_, _, rfl, ended, rfl⟩ := found
  have skipped := par.forth.layout related
  rw [ended] at skipped
  have ended' := par.forth.ending skipped
  refine ⟨u, [], ?_, rfl, ended' ▸ skipped⟩
  simpa [bind_found_iff, layout_found_iff, ending_found_iff] using ended'

theorem recognize_agree (related : R s s') :
    (recognize s).Agree (Alike (ParseTree.Specification.map f) (ParseTree.Specification.map g))
      (Bounded R s.length s'.length) (recognize s') := by
  have small := par.bounded s.length s'.length
  have scopes := (par.scope_agree s.length s'.length).many1 (scope_progress _) (scope_progress _)
  have reads : Agree (Bounded R s.length s'.length)
      (Alike (ParseTree.Specification.map f) (ParseTree.Specification.map g))
      (Bounded R s.length s'.length) (specification s.length) (specification s'.length) := by
    apply (scopes.expecting _).bind
    intro cs cs' same
    have ends := Agree.of_carries quiet_ending quiet_ending small.ending_carries
      small.symm.ending_carries
    apply (ends.expecting _).andThen
    exact .pure (congrArg ParseTree.Specification.mk same)
  exact reads ⟨related, Nat.le_refl _, Nat.le_refl _⟩

end Parallel
end SchemaLang
