import SchemaLang.Proofs.Grammar.Outcome

/-! Two recognizers on two texts. They agree if both find their constructs, with values that look
alike, or both miss them, or both break and expect the same. What is composed of recognizers that
agree agrees. -/
namespace SchemaLang

/-- The values are the same for an observer of either side. -/
abbrev Alike (view : α → γ) (view' : β → γ) (a : α) (b : β) : Prop := view a = view' b

/-- Failures agree wherever they stand; what is found leaves rests that are related. -/
inductive Outcome.Agree (V : α → β → Prop) (E : Text → Text → Prop) :
    Outcome α → Outcome β → Prop where
  | found : V a b → E rest rest' → Agree V E (.found a rest) (.found b rest')
  | absent : Agree V E (.absent stop) (.absent stop')
  | broken : Agree V E (.broken stop e) (.broken stop' e)

namespace Scan

variable {R M E : Text → Text → Prop} {V : α → β → Prop} {W : γ → δ → Prop}

/-- The outcomes agree wherever the texts are related. -/
def Agree (R : Text → Text → Prop) (V : α → β → Prop) (E : Text → Text → Prop) (p : Scan α)
    (q : Scan β) : Prop :=
  ∀ ⦃s s'⦄, R s s' → (p s).Agree V E (q s')

/-- One recognizer for both texts. -/
abbrev Respects (R : Text → Text → Prop) (V : α → α → Prop) (E : Text → Text → Prop)
    (p : Scan α) : Prop :=
  Agree R V E p p

/-- What one side finds the other side finds too. -/
def Carries (R : Text → Text → Prop) (V : α → β → Prop) (E : Text → Text → Prop) (p : Scan α)
    (q : Scan β) : Prop :=
  ∀ ⦃s s' a rest⦄, R s s' → p s = .found a rest → ∃ b rest', q s' = .found b rest' ∧ V a b ∧
    E rest rest'

/-- Recognizers that never break agree if each finds what the other finds. -/
theorem Agree.of_carries {V' : β → α → Prop} {E' : Text → Text → Prop} {p : Scan α} {q : Scan β}
    (quiet : Quiet p) (quiet' : Quiet q) (forth : Carries R V E p q)
    (back : Carries (flip R) V' E' q p) : Agree R V E p q := by
  intro s s' related
  cases left : p s with
  | found a rest =>
    obtain ⟨b, rest', right, alike, rests⟩ := forth related left
    exact right ▸ .found alike rests
  | absent stop =>
    have unfound : ∀ b rest', q s' ≠ .found b rest' := by
      intro b rest' right
      obtain ⟨a, rest, found, -⟩ := back related right
      simp [left] at found
    obtain ⟨stop', right⟩ := quiet'.absent unfound
    exact right ▸ .absent
  | broken stop e => exact absurd left (quiet s stop e)

theorem Agree.found {p : Scan α} {q : Scan β} (agree : Agree R V E p q) (related : R s s')
    (found : p s = .found a rest) : ∃ b rest', q s' = .found b rest' ∧ V a b ∧ E rest rest' := by
  have same := agree related
  rw [found] at same
  generalize q s' = right at same
  cases same with | found alike rests => exact ⟨_, _, rfl, alike, rests⟩

theorem Agree.absent {p : Scan α} {q : Scan β} (agree : Agree R V E p q) (related : R s s')
    (absent : Absent p s) : Absent q s' := by
  obtain ⟨stop, left⟩ := absent
  have same := agree related
  rw [left] at same
  unfold Absent
  generalize q s' = right at same
  cases same with | absent => exact ⟨_, rfl⟩

theorem Agree.broken {p : Scan α} {q : Scan β} (agree : Agree R V E p q) (related : R s s')
    (broken : p s = .broken stop e) : ∃ stop', q s' = .broken stop' e := by
  have same := agree related
  rw [broken] at same
  generalize q s' = right at same
  cases same with | broken => exact ⟨_, rfl⟩

theorem Agree.weaken {R' E' : Text → Text → Prop} {p : Scan α} {q : Scan β}
    (agree : Agree R V E p q) (start : ∀ ⦃s s'⦄, R' s s' → R s s')
    (rests : ∀ ⦃s s'⦄, E s s' → E' s s') : Agree R' V E' p q := by
  intro s s' related
  have same := agree (start related)
  generalize p s = left, q s' = right at same
  cases same with
  | found alike left => exact .found alike (rests left)
  | absent => exact .absent
  | broken => exact .broken

theorem Agree.pure (alike : V a b) : Agree R V R (pure a) (pure b) :=
  fun _ _ related => .found alike related

theorem Agree.bind {p : Scan α} {q : Scan β} {f : α → Scan γ} {g : β → Scan δ}
    (first : Agree R V M p q) (later : ∀ a b, V a b → Agree M W E (f a) (g b)) :
    Agree R W E (p >>= f) (q >>= g) := by
  intro s s' related
  have same := first related
  rw [bind_apply, bind_apply]
  generalize p s = left, q s' = right at same
  cases same with
  | found alike middles => exact later _ _ alike middles
  | absent => exact .absent
  | broken => exact .broken

/-- Nothing that comes later depends on the value. -/
theorem Agree.andThen {p : Scan α} {q : Scan β} {p' : Scan γ} {q' : Scan δ}
    (first : Agree R V M p q) (later : Agree M W E p' q') :
    Agree R W E (p >>= fun _ => p') (q >>= fun _ => q') :=
  first.bind fun _ _ _ => later

theorem Agree.map {p : Scan α} {q : Scan β} {f : α → γ} {g : β → δ} (agree : Agree R V E p q)
    (alike : ∀ a b, V a b → W (f a) (g b)) : Agree R W E (f <$> p) (g <$> q) := by
  rw [map_eq, map_eq]
  exact agree.bind fun a b same => .pure (alike a b same)

theorem Agree.orElse {p p' : Scan α} {q q' : Scan β} (left : Agree R V E p q)
    (right : Agree R V E p' q') : Agree R V E (p <|> p') (q <|> q') := by
  intro s s' related
  have same := left related
  rw [orElse_apply, orElse_apply]
  generalize p s = first, q s' = second at same
  cases same with
  | found alike rests => exact .found alike rests
  | absent => exact right related
  | broken => exact .broken

theorem Agree.expecting {p : Scan α} {q : Scan β} (agree : Agree R V E p q) (e : Expected) :
    Agree R V E (p.expecting e) (q.expecting e) := by
  intro s s' related
  have same := agree related
  unfold Scan.expecting
  generalize p s = left, q s' = right at same
  cases same with
  | found alike rests => exact .found alike rests
  | absent => exact .broken
  | broken => exact .broken

variable {view : α → γ} {view' : β → γ} {p : Scan α} {q : Scan β}

theorem Agree.maybe (agree : Agree R (Alike view view') R p q) :
    Agree R (Alike (Option.map view) (Option.map view')) R p.maybe q.maybe := by
  intro s s' related
  have same := agree related
  unfold Scan.maybe
  generalize p s = left, q s' = right at same
  cases same with
  | found alike rests => exact .found (congrArg some alike) rests
  | absent => exact .found rfl related
  | broken => exact .broken

/-- Repetitions agree round by round. Neither side may stop for want of progress. -/
theorem Agree.many (agree : Agree R (Alike view view') R p q) (progress : Progress p)
    (progress' : Progress q) :
    Agree R (Alike (List.map view) (List.map view')) R p.many q.many := by
  intro s
  induction size_eq : s.length using Nat.strongRecOn generalizing s with
  | ind size ih =>
    intro s' related
    rw [Scan.many.eq_def p s, Scan.many.eq_def q s']
    cases left : p s with
    | found a rest =>
      obtain ⟨b, rest', right, alike, rests⟩ := agree.found related left
      have same := ih _ (size_eq ▸ progress left) rfl rests
      simp only [right, progress left, progress' right, ↓reduceIte]
      generalize p.many rest = tail, q.many rest' = tail' at same
      cases same with
      | found others rests => exact .found (congrArg₂ List.cons alike others) rests
      | absent => exact .absent
      | broken => exact .broken
    | absent stop =>
      obtain ⟨stop', right⟩ := agree.absent related ⟨stop, left⟩
      rw [right]
      exact .found rfl related
    | broken stop e =>
      obtain ⟨stop', right⟩ := agree.broken related left
      rw [right]
      exact .broken

theorem Agree.many1 (agree : Agree R (Alike view view') R p q) (progress : Progress p)
    (progress' : Progress q) :
    Agree R (Alike (List.map view) (List.map view')) R p.many1 q.many1 := by
  apply agree.bind
  intro a b first
  apply (agree.many progress progress').bind
  intro as bs others
  exact .pure (congrArg₂ List.cons first others)

theorem Agree.sepBy1 {separator : Scan δ} {separator' : Scan ε}
    (agree : Agree R (Alike view view') R p q)
    (further : Agree R (Alike view view') R (do let _ ← separator; p) (do let _ ← separator'; q))
    (progress : Progress (do let _ ← separator; p))
    (progress' : Progress (do let _ ← separator'; q)) :
    Agree R (Alike (List.map view) (List.map view')) R (p.sepBy1 separator)
      (q.sepBy1 separator') := by
  apply agree.bind
  intro a b first
  apply (further.many progress progress').bind
  intro as bs others
  exact .pure (congrArg₂ List.cons first others)

end Scan
end SchemaLang
