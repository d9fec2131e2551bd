import SchemaLang.Text.Layout

/-! Layout as a relation between a text and what follows its layout, independent of how
layout is skipped. Skipping removes the longest gap, and any shorter gap is absorbed. -/
namespace SchemaLang.Text

/-- One blank or one comment at the start of a text. A line comment goes up to a line feed or
the end, a block comment up to its first closing mark. -/
inductive LayoutUnit : Text → Text → Prop where
  | blank : isLayoutBlank c = true → LayoutUnit (c :: rest) rest
  | lineComment : (∀ c ∈ body, c ≠ '\n') → (∀ c ∈ rest.head?, c = '\n') →
      LayoutUnit ('/' :: '/' :: (body ++ rest)) rest
  | blockComment : ¬ ['*', '/'] <:+: body →
      LayoutUnit ('/' :: '*' :: (body ++ '*' :: '/' :: rest)) rest

/-- Any number of units, none included. -/
inductive Gap : Text → Text → Prop where
  | none : Gap s s
  | unit : LayoutUnit s middle → Gap middle rest → Gap s rest

theorem mark_infix_cons : ['*', '/'] <:+: c :: body ↔
    (c = '*' ∧ body.head? = some '/') ∨ ['*', '/'] <:+: body := by
  rw [List.infix_cons_iff]
  cases body <;> simp [List.cons_prefix_cons, @eq_comm _ '*', @eq_comm _ '/']

/-- The search for the closing mark stops at the first one. -/
theorem afterCommentEnd?_eq_some_iff {s rest : Text} : afterCommentEnd? s = some rest ↔
    ∃ body, s = body ++ '*' :: '/' :: rest ∧ ¬ ['*', '/'] <:+: body := by
  fun_induction afterCommentEnd? s with
  | case1 found =>
    constructor
    · rintro ⟨⟩
      exact ⟨[], rfl, by simp⟩
    · rintro ⟨body, same, clear⟩
      cases body with
      | nil => simpa using same
      | cons c body =>
        refine absurd (mark_infix_cons.mpr (.inl ?_)) clear
        simp only [List.cons_append, List.cons.injEq] at same
        obtain ⟨rfl, same⟩ := same
        cases body <;> simp_all [eq_comm]
  | case2 c found closed ih =>
    rw [ih]
    constructor
    · rintro ⟨body, rfl, clear⟩
      refine ⟨c :: body, rfl, fun infixed => ?_⟩
      rcases mark_infix_cons.mp infixed with ⟨rfl, head⟩ | infixed
      · cases body with
        | nil => simp at head
        | cons d body =>
          obtain rfl : d = '/' := by simpa using head
          exact closed _ rfl rfl
      · exact clear infixed
    · rintro ⟨body, same, clear⟩
      cases body with
      | nil =>
        obtain ⟨rfl, rfl⟩ : c = '*' ∧ found = '/' :: rest := by simpa using same
        exact absurd rfl (closed rest rfl)
      | cons d body =>
        obtain ⟨rfl, rfl⟩ : c = d ∧ found = body ++ '*' :: '/' :: rest := by simpa using same
        exact ⟨body, rfl, fun infixed => clear (mark_infix_cons.mpr (.inr infixed))⟩
  | case3 => simp

theorem afterLayoutUnit?_lineComment : afterLayoutUnit? ('/' :: '/' :: s) =
    some (s.dropWhile (· ≠ '\n')) := by
  simp [afterLayoutUnit?]

theorem afterLayoutUnit?_blockComment : afterLayoutUnit? ('/' :: '*' :: s) =
    afterCommentEnd? s := by
  simp [afterLayoutUnit?]

theorem LayoutUnit.skipped (unit : LayoutUnit s rest) : afterLayoutUnit? s = some rest := by
  cases unit with
  | @blank c rest blank =>
    have plain : c ≠ '/' := by rintro rfl; simp [isLayoutBlank] at blank
    unfold afterLayoutUnit?
    split <;> simp_all
  | @lineComment body rest inside stop =>
    rw [afterLayoutUnit?_lineComment, List.dropWhile_append_of_pos (by simpa using inside)]
    cases rest with
    | nil => rfl
    | cons c rest => simp [stop c rfl]
  | blockComment clear =>
    rw [afterLayoutUnit?_blockComment]
    exact afterCommentEnd?_eq_some_iff.mpr ⟨_, rfl, clear⟩

theorem LayoutUnit.of_skipped {s rest : Text} (skipped : afterLayoutUnit? s = some rest) :
    LayoutUnit s rest := by
  unfold afterLayoutUnit? at skipped
  split at skipped
  · rename_i s
    cases skipped
    have unit := @LayoutUnit.lineComment (s.takeWhile (· ≠ '\n')) (s.dropWhile (· ≠ '\n')) ?_ ?_
    · rwa [List.takeWhile_append_dropWhile] at unit
    · intro c member
      simpa using List.all_eq_true.mp List.all_takeWhile c member
    · intro c head
      have := List.head?_dropWhile_not (· ≠ '\n') s
      simp_all
  · obtain ⟨body, rfl, clear⟩ := afterCommentEnd?_eq_some_iff.mp skipped
    exact .blockComment clear
  · split at skipped
    · cases skipped
      exact .blank (by assumption)
    · cases skipped
  · cases skipped

theorem LayoutUnit.suffix (unit : LayoutUnit s rest) : rest <:+ s := by
  cases unit with
  | @blank c rest => exact List.suffix_cons c rest
  | @lineComment body rest => exact ⟨'/' :: '/' :: body, by simp⟩
  | @blockComment body rest => exact ⟨'/' :: '*' :: (body ++ ['*', '/']), by simp⟩

theorem afterLayoutUnit?_eq_some_iff {s rest : Text} :
    afterLayoutUnit? s = some rest ↔ LayoutUnit s rest :=
  ⟨.of_skipped, (·.skipped)⟩

theorem skipLayout_unit (unit : LayoutUnit s rest) : skipLayout s = skipLayout rest := by
  rw [skipLayout.eq_def]
  split
  · rename_i skipped
    rw [unit.skipped] at skipped
    cases skipped
    rfl
  · rename_i skipped
    rw [unit.skipped] at skipped
    cases skipped

/-- A gap in front changes nothing for a reader that skips layout. -/
theorem skipLayout_gap (gap : Gap s rest) : skipLayout s = skipLayout rest := by
  induction gap with
  | none => rfl
  | unit unit _ ih => exact (skipLayout_unit unit).trans ih

theorem Gap.suffix (gap : Gap s rest) : rest <:+ s := by
  induction gap with
  | none => exact List.suffix_rfl
  | unit unit _ ih => exact ih.trans unit.suffix

theorem Gap.trans (first : Gap s middle) (later : Gap middle rest) : Gap s rest := by
  induction first with
  | none => exact later
  | unit unit _ ih => exact .unit unit (ih later)

theorem Gap.length_le (gap : Gap s rest) : rest.length ≤ s.length := gap.suffix.length_le

theorem gap_skipLayout (s : Text) : Gap s (skipLayout s) := by
  fun_induction skipLayout s with
  | case1 s rest skipped ih => exact .unit (.of_skipped skipped) ih
  | case2 => exact .none

theorem skipLayout_of_no_unit (solid : afterLayoutUnit? s = none) : skipLayout s = s := by
  rw [skipLayout.eq_def]
  split
  · simp_all
  · rfl

theorem afterLayoutUnit?_skipLayout (s : Text) : afterLayoutUnit? (skipLayout s) = none := by
  fun_induction skipLayout s with
  | case1 s rest skipped ih => exact ih
  | case2 s skipped => exact skipped

@[simp] theorem skipLayout_skipLayout (s : Text) : skipLayout (skipLayout s) = skipLayout s :=
  skipLayout_of_no_unit (afterLayoutUnit?_skipLayout s)

/-- Characters with which no layout begins. -/
def isSolid (c : Char) : Bool := !isLayoutBlank c && c ≠ '/'

theorem skipLayout_solid (solid : isSolid c = true) : skipLayout (c :: s) = c :: s := by
  apply skipLayout_of_no_unit
  simp only [isSolid, Bool.and_eq_true, Bool.not_eq_true', decide_eq_true_eq] at solid
  unfold afterLayoutUnit?
  split <;> simp_all

/-- The one place where layout can end in front of a solid character. -/
theorem gap_solid_iff (solid : isSolid c = true) :
    Gap s (c :: rest) ↔ skipLayout s = c :: rest := by
  constructor
  · intro gap
    rw [skipLayout_gap gap, skipLayout_solid solid]
  · intro same
    exact same ▸ gap_skipLayout s

theorem gap_nil_iff : Gap s [] ↔ skipLayout s = [] := by
  constructor
  · intro gap
    rw [skipLayout_gap gap]
    exact skipLayout_of_no_unit rfl
  · intro same
    exact same ▸ gap_skipLayout s

theorem LayoutUnit.hollow (unit : LayoutUnit (c :: s) rest) : isSolid c = false := by
  cases unit with
  | blank blank => simp [isSolid, blank]
  | lineComment => rfl
  | blockComment => rfl

/-- Layout begins with a blank or a slash. -/
theorem Gap.head (gap : Gap s rest) : s = rest ∨ ∃ c tail, s = c :: tail ∧ isSolid c = false := by
  cases gap with
  | none => exact .inl rfl
  | unit unit _ =>
    cases s with
    | nil => cases unit
    | cons c tail => exact .inr ⟨c, tail, rfl, unit.hollow⟩

/-- A line feed ends a line comment that the text leaves open, and so layout stays layout. -/
theorem LayoutUnit.line (unit : LayoutUnit s rest) (below : Text) :
    LayoutUnit (s ++ '\n' :: below) (rest ++ '\n' :: below) := by
  cases unit with
  | blank blank => exact .blank blank
  | @lineComment body rest inside stop =>
    have feed : ∀ c ∈ (rest ++ '\n' :: below).head?, c = '\n' := by
      cases rest with
      | nil => simp
      | cons c rest => simpa using stop
    simpa using LayoutUnit.lineComment inside feed
  | @blockComment body rest clear =>
    have comment : LayoutUnit ('/' :: '*' :: (body ++ '*' :: '/' :: (rest ++ '\n' :: below)))
        (rest ++ '\n' :: below) := .blockComment clear
    simpa using comment

theorem Gap.line (gap : Gap s rest) (below : Text) :
    Gap (s ++ '\n' :: below) (rest ++ '\n' :: below) := by
  induction gap with
  | none => exact .none
  | unit unit _ ih => exact .unit (unit.line below) ih

/-- A solid character at the end of layout is there also if lines follow. -/
theorem skipLayout_line (solid : isSolid c = true) (skipped : skipLayout s = c :: rest)
    (below : Text) : skipLayout (s ++ '\n' :: below) = c :: rest ++ '\n' :: below := by
  have gap := ((gap_solid_iff solid).mpr skipped).line below
  exact (gap_solid_iff solid).mp gap

/-- If all is layout, the lines that follow are read as if nothing stood before them. -/
theorem skipLayout_below (ended : skipLayout s = []) (below : Text) :
    skipLayout (s ++ '\n' :: below) = skipLayout below := by
  rw [skipLayout_gap ((gap_nil_iff.mpr ended).line below)]
  exact skipLayout_unit (.blank (by decide))

end SchemaLang.Text
