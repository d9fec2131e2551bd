import Mathlib
import SchemaLang.Grammar.Scan

/-! When a composed recognizer finds its construct and when it reports it absent, in terms of
its parts. Reading a production as a relation takes these lemmas and never unfolds a scan. -/
namespace SchemaLang.Scan

/-- The construct is reported absent, wherever the failure stands. -/
def Absent (p : Scan α) (s : Text) : Prop := ∃ stop, p s = .absent stop

/-- A recognizer that commits to nothing. -/
def Quiet (p : Scan α) : Prop := ∀ s stop e, p s ≠ .broken stop e

theorem Absent.not_found {p : Scan α} (absent : Absent p s) : p s ≠ .found a rest := by
  obtain ⟨stop, same⟩ := absent
  simp [same]

theorem Quiet.absent {p : Scan α} (quiet : Quiet p) (unfound : ∀ a rest, p s ≠ .found a rest) :
    Absent p s := by
  cases same : p s with
  | found a rest => exact absurd same (unfound a rest)
  | absent stop => exact ⟨stop, same⟩
  | broken stop e => exact absurd same (quiet s stop e)

@[simp] theorem pure_found_iff : (pure a : Scan α) s = .found b rest ↔ a = b ∧ s = rest := by
  simp [pure_apply]

theorem bind_found_iff {p : Scan α} {f : α → Scan β} : (p >>= f) s = .found b rest ↔
    ∃ a middle, p s = .found a middle ∧ f a middle = .found b rest := by
  rw [bind_apply]
  cases p s with
  | found a middle =>
    constructor
    · exact fun found => ⟨a, middle, rfl, found⟩
    · rintro ⟨_, _, ⟨rfl, rfl⟩, found⟩
      exact found
  | absent => simp
  | broken => simp

theorem bind_absent {p : Scan α} {f : α → Scan β} (absent : Absent p s) :
    Absent (p >>= f) s := by
  obtain ⟨stop, same⟩ := absent
  exact ⟨stop, by rw [bind_apply, same]⟩

/-- The second part is missing after the first was read. -/
theorem bind_absent_after {p : Scan α} {f : α → Scan β} (found : p s = .found a middle)
    (absent : Absent (f a) middle) : Absent (p >>= f) s := by
  obtain ⟨stop, same⟩ := absent
  refine ⟨stop, ?_⟩
  rw [bind_apply, found]
  exact same

theorem map_eq (g : α → β) (p : Scan α) : g <$> p = p >>= fun a => pure (g a) :=
  (bind_pure_comp g p).symm

theorem map_found_iff {g : α → β} {p : Scan α} : (g <$> p) s = .found b rest ↔
    ∃ a, p s = .found a rest ∧ g a = b := by
  rw [map_eq, bind_found_iff]
  constructor
  · rintro ⟨a, middle, found, same⟩
    obtain ⟨rfl, rfl⟩ := pure_found_iff.mp same
    exact ⟨a, found, rfl⟩
  · rintro ⟨a, found, rfl⟩
    exact ⟨a, rest, found, rfl⟩

theorem map_absent {g : α → β} {p : Scan α} (absent : Absent p s) : Absent (g <$> p) s := by
  rw [map_eq]
  exact bind_absent absent

theorem orElse_found_iff {p q : Scan α} : (p <|> q) s = .found a rest ↔
    p s = .found a rest ∨ Absent p s ∧ q s = .found a rest := by
  rw [orElse_apply]
  cases same : p s <;> simp [Absent, same]

theorem map_found {p : Scan α} (g : α → β) (found : p s = .found a rest) :
    (g <$> p) s = .found (g a) rest :=
  map_found_iff.mpr ⟨a, found, rfl⟩

theorem orElse_left {p q : Scan α} (found : p s = .found a rest) :
    (p <|> q) s = .found a rest :=
  orElse_found_iff.mpr (.inl found)

theorem orElse_right {p q : Scan α} (absent : Absent p s) (found : q s = .found a rest) :
    (p <|> q) s = .found a rest :=
  orElse_found_iff.mpr (.inr ⟨absent, found⟩)

theorem orElse_absent {p q : Scan α} (left : Absent p s) (right : Absent q s) :
    Absent (p <|> q) s := by
  obtain ⟨_, left⟩ := left
  obtain ⟨stop, right⟩ := right
  exact ⟨stop, by simp [orElse_apply, left, right]⟩

@[simp] theorem expecting_found_iff {p : Scan α} : p.expecting e s = .found a rest ↔
    p s = .found a rest := by
  unfold expecting
  cases p s <;> simp

theorem maybe_found_iff {p : Scan α} : p.maybe s = .found o rest ↔
    (∃ a, p s = .found a rest ∧ o = some a) ∨ Absent p s ∧ rest = s ∧ o = none := by
  unfold maybe Absent
  cases p s with
  | found a middle =>
    constructor
    · rintro ⟨rfl, rfl⟩
      exact .inl ⟨a, rfl, rfl⟩
    · rintro (⟨_, ⟨rfl, rfl⟩, rfl⟩ | ⟨⟨_, ⟨⟩⟩, _⟩)
      rfl
  | absent => simp [eq_comm, and_comm]
  | broken => simp

theorem select_found_iff {f : α → Option β} {p : Scan α} : p.select f s = .found b rest ↔
    ∃ a, p s = .found a rest ∧ f a = some b := by
  unfold select
  cases p s with
  | found a middle =>
    simp only [Outcome.found.injEq, and_assoc, exists_eq_left']
    cases f a <;> simp [and_comm]
  | absent => simp
  | broken => simp

theorem layout_found_iff : layout s = .found u rest ↔ s.skipLayout = rest := by
  simp [layout]

theorem here_found_iff : here s = .found place rest ↔ place = s ∧ rest = s := by
  simp [here, eq_comm]

theorem prefixed_iff {w s rest : Text} : w.isPrefixOf? s = some rest ↔ s = w ++ rest := by
  induction w generalizing s with
  | nil => simp [List.isPrefixOf?]
  | cons c w ih =>
    cases s with
    | nil => simp [List.isPrefixOf?]
    | cons d s =>
      simp only [List.isPrefixOf?, beq_iff_eq, List.cons_append, List.cons.injEq]
      split
      · rename_i same
        simp [ih, same]
      · rename_i different
        simp [Ne.symm different]

theorem tag_found_iff {word : String} : tag word s = .found text rest ↔
    text = word.toList ∧ s = word.toList ++ rest := by
  unfold tag
  cases same : word.toList.isPrefixOf? s with
  | none =>
    simp only [reduceCtorEq, false_iff, not_and]
    rintro - rfl
    rw [prefixed_iff.mpr rfl] at same
    cases same
  | some after =>
    have cut := prefixed_iff.mp same
    simp [cut, eq_comm]

/-- What a repetition reads: constructs one after the other, none of them empty, up to a place
where there is no further one. -/
inductive Repeats (p : Scan α) : Text → List α → Text → Prop where
  | stop : Absent p s → Repeats p s [] s
  | next : p s = .found a middle → middle.length < s.length → Repeats p middle as rest →
      Repeats p s (a :: as) rest

theorem Repeats.many_found {p : Scan α} (reads : Repeats p s as rest) :
    p.many s = .found as rest := by
  induction reads with
  | stop absent =>
    obtain ⟨stop, same⟩ := absent
    rw [many.eq_def, same]
  | next found shorter _ ih => rw [many.eq_def, found]; simp [shorter, ih]

/-- What is found is never empty. -/
def Progress (p : Scan α) : Prop := ∀ ⦃s a rest⦄, p s = .found a rest → rest.length < s.length

/-- What is found leaves a proper suffix of the text. -/
def Consumes (p : Scan α) : Prop := ∀ ⦃s a rest⦄, p s = .found a rest → rest <:+ s ∧ rest ≠ s

theorem length_lt_of_proper {s t : Text} (behind : t <:+ s) (proper : t ≠ s) :
    t.length < s.length :=
  Nat.lt_of_le_of_ne behind.length_le fun same => proper (behind.eq_of_length same)

theorem Consumes.progress {p : Scan α} (consumes : Consumes p) : Progress p := by
  intro s a rest found
  obtain ⟨behind, proper⟩ := consumes found
  exact length_lt_of_proper behind proper

theorem consumes_of_split {p : Scan Text}
    (split : ∀ s w rest, p s = .found w rest → s = w ++ rest ∧ w ≠ []) : Consumes p := by
  intro s w rest found
  obtain ⟨rfl, filled⟩ := split s w rest found
  exact ⟨List.suffix_append w rest, fun same => filled (List.self_eq_append_left.mp same)⟩

theorem many_found_iff {p : Scan α} (progress : Progress p) :
    p.many s = .found as rest ↔ Repeats p s as rest := by
  refine ⟨fun found => ?_, Repeats.many_found⟩
  fun_induction many p s generalizing as rest with
  | case1 s a middle head shorter later tail same ih =>
    cases found
    exact .next head shorter (ih same)
  | case2 | case3 | case6 => cases found
  | case4 s a middle head stuck => exact absurd (progress head) stuck
  | case5 s stop same =>
    cases found
    exact .stop ⟨stop, same⟩

theorem many1_found_iff {p : Scan α} (progress : Progress p) :
    p.many1 s = .found as rest ↔ as ≠ [] ∧ Repeats p s as rest := by
  simp only [many1, bind_found_iff, pure_found_iff, many_found_iff progress]
  constructor
  · rintro ⟨a, middle, head, as, _, tail, rfl, rfl⟩
    exact ⟨List.cons_ne_nil a as, .next head (progress head) tail⟩
  · rintro ⟨filled, reads⟩
    cases reads with
    | stop => contradiction
    | next head _ tail => exact ⟨_, _, head, _, _, tail, rfl, rfl⟩

theorem quiet_pure (a : α) : Quiet (pure a : Scan α) := by
  intro s stop e
  simp [pure_apply]

theorem Quiet.bind {p : Scan α} {f : α → Scan β} (first : Quiet p) (later : ∀ a, Quiet (f a)) :
    Quiet (p >>= f) := by
  intro s stop e
  rw [bind_apply]
  cases same : p s with
  | found a rest => exact later a rest stop e
  | absent => simp
  | broken stop e => exact absurd same (first s stop e)

theorem Quiet.map {p : Scan α} (quiet : Quiet p) (g : α → β) : Quiet (g <$> p) := by
  rw [map_eq]
  exact quiet.bind fun a => quiet_pure (g a)

theorem Quiet.orElse {p q : Scan α} (left : Quiet p) (right : Quiet q) : Quiet (p <|> q) := by
  intro s stop e
  rw [orElse_apply]
  cases same : p s with
  | found => simp
  | absent => exact right s stop e
  | broken stop e => exact absurd same (left s stop e)

theorem Quiet.maybe {p : Scan α} (quiet : Quiet p) : Quiet p.maybe := by
  intro s stop e
  unfold Scan.maybe
  cases same : p s with
  | found => simp
  | absent => simp
  | broken stop e => exact absurd same (quiet s stop e)

theorem Quiet.select {p : Scan α} (quiet : Quiet p) (f : α → Option β) : Quiet (p.select f) := by
  intro s stop e
  unfold Scan.select
  cases same : p s with
  | found a rest => dsimp only; split <;> simp
  | absent => simp
  | broken stop e => exact absurd same (quiet s stop e)

theorem Quiet.many {p : Scan α} (quiet : Quiet p) : Quiet p.many := by
  intro s
  fun_induction Scan.many p s with
  | case1 | case2 | case4 | case5 => simp
  | case3 s a rest head shorter stop e same ih => exact absurd same (ih stop e)
  | case6 s stop e same => exact absurd same (quiet s stop e)

theorem quiet_layout : Quiet layout := by simp [Quiet, layout]

theorem quiet_here : Quiet here := by simp [Quiet, here]

theorem quiet_tag (word : String) : Quiet (tag word) := by
  intro s stop e
  unfold tag
  split <;> simp

end SchemaLang.Scan
