import SchemaLang.Proofs.Grammar.Outcome

/-! What a recognizer attempts on its way, what it cannot report as absent, and where absence stands.
A break is final: it comes through every choice, repetition and option around it as it is. -/
namespace SchemaLang.Scan

/-- Found or broken, wherever it is tried. -/
def Certain (p : Scan α) : Prop := ∀ s, ¬ Absent p s

theorem bind_absent_cases {p : Scan α} {f : α → Scan β} (absent : Absent (p >>= f) s) :
    Absent p s ∨ ∃ a middle, p s = .found a middle ∧ Absent (f a) middle := by
  obtain ⟨stop, same⟩ := absent
  rw [bind_apply] at same
  cases first : p s with
  | found a middle =>
    simp only [first] at same
    exact .inr ⟨a, middle, rfl, stop, same⟩
  | absent stop => exact .inl ⟨stop, first⟩
  | broken => simp [first] at same

theorem orElse_absent_cases {p q : Scan α} (absent : Absent (p <|> q) s) :
    Absent p s ∧ Absent q s := by
  obtain ⟨stop, same⟩ := absent
  rw [orElse_apply] at same
  cases first : p s with
  | absent stop' =>
    simp only [first] at same
    exact ⟨⟨stop', first⟩, stop, same⟩
  | found | broken => simp [first] at same

theorem certain_pure (a : α) : Certain (pure a : Scan α) := by
  rintro s ⟨stop, absent⟩
  simp [pure_apply] at absent

theorem certain_expecting (e : Expected) (p : Scan α) : Certain (p.expecting e) := by
  rintro s ⟨stop, absent⟩
  unfold expecting at absent
  cases same : p s <;> simp [same] at absent

theorem certain_maybe (p : Scan α) : Certain p.maybe := by
  rintro s ⟨stop, absent⟩
  unfold Scan.maybe at absent
  cases same : p s <;> simp [same] at absent

theorem certain_many (p : Scan α) : Certain p.many := by
  rintro s ⟨stop, absent⟩
  fun_induction Scan.many p s with
  | case1 | case3 | case4 | case5 | case6 => cases absent
  | case2 s a middle head shorter stop' same ih =>
    cases absent
    exact ih same

theorem Certain.bind {p : Scan α} {f : α → Scan β} (first : Certain p)
    (later : ∀ a, Certain (f a)) : Certain (p >>= f) := by
  intro s absent
  rcases bind_absent_cases absent with absent | ⟨a, middle, -, absent⟩
  · exact first s absent
  · exact later a middle absent

theorem Certain.map {p : Scan α} (certain : Certain p) (g : α → β) : Certain (g <$> p) := by
  rw [map_eq]
  exact certain.bind fun a => certain_pure (g a)

/-- A repetition of something that commits to nothing always ends. -/
theorem exists_repeats {p : Scan α} (quiet : Quiet p) (progress : Progress p) (s : Text) :
    ∃ as rest, Repeats p s as rest := by
  cases same : p.many s with
  | found as rest => exact ⟨as, rest, (many_found_iff progress).mp same⟩
  | absent stop => exact absurd ⟨stop, same⟩ (certain_many p s)
  | broken stop e => exact absurd same (quiet.many s stop e)

/-- Missing from its first character on. -/
def AbsentAtStart (p : Scan α) : Prop := ∀ ⦃s stop⦄, p s = .absent stop → stop = s

theorem AbsentAtStart.tag (word : String) : AbsentAtStart (Scan.tag word) := by
  intro s stop absent
  unfold Scan.tag at absent
  split at absent <;> simp_all

theorem AbsentAtStart.orElse {p q : Scan α} (last : AbsentAtStart q) :
    AbsentAtStart (p <|> q) := by
  intro s stop absent
  rw [orElse_apply] at absent
  cases same : p s with
  | found | broken => simp [same] at absent
  | absent =>
    simp only [same] at absent
    exact last absent

theorem AbsentAtStart.select {p : Scan α} (atStart : AbsentAtStart p) (f : α → Option β) :
    AbsentAtStart (p.select f) := by
  intro s stop absent
  unfold Scan.select at absent
  cases same : p s with
  | found a rest =>
    cases kept : f a <;> simp_all
  | absent later =>
    obtain rfl : later = stop := by simpa [same] using absent
    exact atStart same
  | broken => simp [same] at absent

/-- What follows is never missing. -/
theorem AbsentAtStart.bind {p : Scan α} {f : α → Scan β} (atStart : AbsentAtStart p)
    (total : ∀ a, Certain (f a)) : AbsentAtStart (p >>= f) := by
  intro s stop absent
  rw [bind_apply] at absent
  cases same : p s with
  | found a rest =>
    simp only [same] at absent
    exact absurd ⟨stop, absent⟩ (total a rest)
  | absent later =>
    obtain rfl : later = stop := by simpa [same] using absent
    exact atStart same
  | broken => simp [same] at absent

/-- Reading `p` from `s` comes to an attempt at `q` from `t`. -/
inductive Attempts (q : Scan β) (t : Text) : {α : Type} → Scan α → Text → Prop where
  | self : Attempts q t q t
  | first {p : Scan α} {f : α → Scan γ} : Attempts q t p s → Attempts q t (p >>= f) s
  | next {p : Scan α} {f : α → Scan γ} : p s = .found a middle → Attempts q t (f a) middle →
      Attempts q t (p >>= f) s
  | left {p p' : Scan α} : Attempts q t p s → Attempts q t (p <|> p') s
  | right {p p' : Scan α} : Absent p s → Attempts q t p' s → Attempts q t (p <|> p') s
  | expecting {p : Scan α} : Attempts q t p s → Attempts q t (p.expecting e) s
  | maybe {p : Scan α} : Attempts q t p s → Attempts q t p.maybe s
  | once {p : Scan α} : Attempts q t p s → Attempts q t p.many s
  | again {p : Scan α} : p s = .found a middle → middle.length < s.length →
      Attempts q t p.many middle → Attempts q t p.many s

/-- A break is final: nothing around it swallows it, moves it or gives it another label. -/
theorem Attempts.broken {p : Scan α} {q : Scan β} (attempts : Attempts q t p s)
    (broken : q t = .broken stop e) : p s = .broken stop e := by
  induction attempts with
  | self => exact broken
  | first _ ih => rw [bind_apply, ih]
  | next found _ ih =>
    rw [bind_apply, found]
    exact ih
  | left _ ih => rw [orElse_apply, ih]
  | right absent _ ih =>
    obtain ⟨_, absent⟩ := absent
    rw [orElse_apply, absent]
    exact ih
  | expecting _ ih => rw [Scan.expecting, ih]
  | maybe _ ih => rw [Scan.maybe, ih]
  | once _ ih => rw [many.eq_def, ih]
  | again found shorter _ ih =>
    rw [many.eq_def, found]
    simp only [shorter, if_true, ih]

end SchemaLang.Scan
