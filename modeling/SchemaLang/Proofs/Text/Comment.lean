import SchemaLang.Proofs.Text.Gap

/-! Comments taken out of a text, a space left for each. Layout is skipped in what remains as it is
in the text itself. -/
namespace SchemaLang.Text

/-- Replaces each comment by a space, from left to right. What opens a block comment that is never
closed is kept, and comments behind it count. -/
def stripComments : Text → Text
  | '/' :: '/' :: s => ' ' :: stripComments (s.dropWhile (· ≠ '\n'))
  | '/' :: '*' :: s =>
    match _h : afterCommentEnd? s with
    | some rest => ' ' :: stripComments rest
    | none => '/' :: stripComments ('*' :: s)
  | c :: s => c :: stripComments s
  | [] => []
termination_by s => s.length
decreasing_by
  · have := length_dropWhile_le (· ≠ '\n') s
    simp only [List.length_cons]
    omega
  · have := afterCommentEnd?_length _h
    simp only [List.length_cons]
    omega
  · simp
  · simp

@[simp] theorem stripComments_nil : stripComments [] = [] := by rw [stripComments]

theorem stripComments_lineComment : stripComments ('/' :: '/' :: s) =
    ' ' :: stripComments (s.dropWhile (· ≠ '\n')) := by
  rw [stripComments]

theorem stripComments_closed (closed : afterCommentEnd? s = some rest) :
    stripComments ('/' :: '*' :: s) = ' ' :: stripComments rest := by
  rw [stripComments]
  split <;> simp_all

theorem stripComments_unclosed (unclosed : afterCommentEnd? s = none) :
    stripComments ('/' :: '*' :: s) = '/' :: stripComments ('*' :: s) := by
  rw [stripComments]
  split <;> simp_all

theorem stripComments_cons (other : c ≠ '/') : stripComments (c :: s) = c :: stripComments s := by
  rw [stripComments] <;> simp_all

/-- A slash with which no comment begins. -/
theorem stripComments_slash (other : ∀ c ∈ s.head?, c ≠ '/' ∧ c ≠ '*') :
    stripComments ('/' :: s) = '/' :: stripComments s := by
  rw [stripComments] <;> (rintro _ - rfl; simp at other)

example : stripComments "a/*/b*/c//*\n/* d".toList = "a c \n/* d".toList := by cbv

/-- No slash comes to stand where there was none. -/
theorem head_of_stripComments (head : (stripComments s).head? = some '/') :
    s.head? = some '/' := by
  cases s with
  | nil => simp at head
  | cons c s =>
    by_cases slash : c = '/'
    · simp [slash]
    · simpa [stripComments_cons slash] using head

theorem afterCommentEnd?_cons (other : ¬ (c = '*' ∧ s.head? = some '/')) :
    afterCommentEnd? (c :: s) = afterCommentEnd? s := by
  rw [afterCommentEnd?]
  rintro rest rfl rfl
  simp at other

theorem afterCommentEnd?_suffix (suffix : s <:+ t) (unclosed : afterCommentEnd? t = none) :
    afterCommentEnd? s = none := by
  obtain ⟨before, rfl⟩ := suffix
  induction before with
  | nil => exact unclosed
  | cons c before ih =>
    apply ih
    rw [List.cons_append] at unclosed
    unfold afterCommentEnd? at unclosed
    split at unclosed <;> simp_all

/-- Without comments there is no closing mark that was not there before. -/
theorem unclosed_stripComments (unclosed : afterCommentEnd? s = none) :
    afterCommentEnd? (stripComments s) = none := by
  fun_induction stripComments s with
  | case1 s ih =>
    rw [afterCommentEnd?_cons (by simp)]
    exact ih (afterCommentEnd?_suffix (List.dropWhile_suffix _ |>.trans ⟨['/', '/'], rfl⟩) unclosed)
  | case2 s rest closed ih =>
    have inside := afterCommentEnd?_suffix ⟨['/', '*'], rfl⟩ unclosed
    simp [closed] at inside
  | case3 s _ ih =>
    rw [afterCommentEnd?_cons (by simp)]
    exact ih (afterCommentEnd?_suffix (List.suffix_cons _ _) unclosed)
  | case4 c s _ _ ih =>
    have shorter := afterCommentEnd?_suffix (List.suffix_cons c s) unclosed
    rw [afterCommentEnd?_cons]
    · exact ih shorter
    · rintro ⟨rfl, head⟩
      obtain ⟨tail, rfl⟩ := List.head?_eq_some_iff.mp (head_of_stripComments head)
      simp [afterCommentEnd?] at unclosed
  | case5 => rfl

/-- What no layout begins with still begins with none. -/
theorem solid_stripComments (solid : afterLayoutUnit? s = none) :
    afterLayoutUnit? (stripComments s) = none := by
  unfold afterLayoutUnit? at solid
  split at solid
  · cases solid
  · rename_i s
    have opened : stripComments ('/' :: '*' :: s) = '/' :: '*' :: stripComments s := by
      rw [stripComments_unclosed solid, stripComments_cons (by decide)]
    rw [opened, afterLayoutUnit?_blockComment]
    exact unclosed_stripComments solid
  · rename_i c s line block
    have plain : isLayoutBlank c = false := by simpa using solid
    by_cases slash : c = '/'
    · subst slash
      have other : ∀ d ∈ s.head?, d ≠ '/' ∧ d ≠ '*' := by
        intro d head
        obtain ⟨tail, rfl⟩ := List.head?_eq_some_iff.mp head
        exact ⟨fun same => line tail rfl (by rw [same]), fun same => block tail rfl (by rw [same])⟩
      rw [stripComments_slash other]
      cases s with
      | nil => simp [afterLayoutUnit?, isLayoutBlank]
      | cons d s =>
        obtain ⟨noSlash, noStar⟩ := other d rfl
        rw [stripComments_cons noSlash]
        simp [afterLayoutUnit?, noSlash, noStar, plain]
    · rw [stripComments_cons slash]
      unfold afterLayoutUnit?
      split <;> simp_all
  · simp [afterLayoutUnit?]

theorem skipLayout_stripComments (s : Text) :
    skipLayout (stripComments s) = stripComments (skipLayout s) := by
  have blank (s : Text) : skipLayout (' ' :: s) = skipLayout s := skipLayout_unit (.blank rfl)
  fun_induction skipLayout s with
  | case1 s rest skipped ih =>
    rw [← ih]
    unfold afterLayoutUnit? at skipped
    split at skipped
    · cases skipped
      rw [stripComments_lineComment, blank]
    · rw [stripComments_closed skipped, blank]
    · split at skipped
      · rename_i c _ _ _ isBlank
        cases skipped
        have other : c ≠ '/' := by rintro rfl; simp [isLayoutBlank] at isBlank
        rw [stripComments_cons other]
        exact skipLayout_unit (.blank isBlank)
      · cases skipped
    · cases skipped
  | case2 s solid => exact skipLayout_of_no_unit (solid_stripComments solid)

/-- A solid character stays where it is. -/
theorem stripComments_solid (solid : isSolid c = true) :
    stripComments (c :: s) = c :: stripComments s := by
  apply stripComments_cons
  rintro rfl
  simp [isSolid] at solid

theorem hollow_stripComments (s : Text) :
    ∃ d rest, stripComments ('/' :: s) = d :: rest ∧ isSolid d = false := by
  rw [stripComments.eq_def]
  split
  · exact ⟨_, _, rfl, by decide⟩
  · split
    · exact ⟨_, _, rfl, by decide⟩
    · exact ⟨_, _, rfl, by decide⟩
  · rename_i same
    obtain ⟨rfl, -⟩ := List.cons.inj same
    exact ⟨_, _, rfl, by decide⟩
  · contradiction

theorem solid_of_stripComments (solid : isSolid c = true) (same : stripComments s = c :: rest) :
    ∃ s', s = c :: s' ∧ rest = stripComments s' := by
  cases s with
  | nil => simp at same
  | cons d s =>
    by_cases slash : d = '/'
    · subst slash
      obtain ⟨e, tail, opened, hollow⟩ := hollow_stripComments s
      obtain ⟨rfl, -⟩ := List.cons.inj (opened.symm.trans same)
      simp [hollow] at solid
    · obtain ⟨rfl, rfl⟩ := List.cons.inj ((stripComments_cons slash).symm.trans same)
      exact ⟨s, rfl, rfl⟩

theorem stripComments_eq_nil_iff : stripComments s = [] ↔ s = [] := by
  constructor
  · intro empty
    cases s with
    | nil => rfl
    | cons c s =>
      by_cases slash : c = '/'
      · subst slash
        obtain ⟨d, rest, opened, -⟩ := hollow_stripComments s
        simp [opened] at empty
      · simp [stripComments_cons slash] at empty
  · rintro rfl
    exact stripComments_nil

end SchemaLang.Text
