import SchemaLang.Text.Basic

/-! Layout is what may stand between two tokens: blanks, line comments and closed block
comments. A block comment that is never closed is no layout and stops the skipping. -/
namespace SchemaLang.Text

def isLayoutBlank (c : Char) : Bool := c = ' ' || c = '\t' || c = '\r' || c = '\n'

/-- The text after the first closing mark of a block comment. -/
def afterCommentEnd? : Text → Option Text
  | '*' :: '/' :: rest => some rest
  | _ :: rest => afterCommentEnd? rest
  | [] => none

/-- The text after one blank or comment at its start. A line comment leaves its line feed. -/
def afterLayoutUnit? : Text → Option Text
  | '/' :: '/' :: rest => some (rest.dropWhile (· ≠ '\n'))
  | '/' :: '*' :: rest => afterCommentEnd? rest
  | c :: rest => if isLayoutBlank c then some rest else none
  | [] => none

theorem afterCommentEnd?_length {s rest : Text} (h : afterCommentEnd? s = some rest) :
    rest.length < s.length := by
  fun_induction afterCommentEnd? s with
  | case1 r => cases h; simp only [List.length_cons]; omega
  | case2 c r _ ih => have := ih h; simp only [List.length_cons]; omega
  | case3 => cases h

theorem length_dropWhile_le (p : Char → Bool) (s : Text) : (s.dropWhile p).length ≤ s.length :=
  (List.dropWhile_sublist p).length_le

theorem afterLayoutUnit?_length {s rest : Text} (h : afterLayoutUnit? s = some rest) :
    rest.length < s.length := by
  unfold afterLayoutUnit? at h
  split at h
  · cases h
    have := length_dropWhile_le (· ≠ '\n') (by assumption)
    simp only [List.length_cons]
    omega
  · have := afterCommentEnd?_length h
    simp only [List.length_cons]
    omega
  · split at h
    · cases h; simp
    · cases h
  · cases h

/-- Drops as much layout as possible from the start. -/
def skipLayout (s : Text) : Text :=
  match _h : afterLayoutUnit? s with
  | some rest => skipLayout rest
  | none => s
termination_by s.length
decreasing_by exact afterLayoutUnit?_length _h

theorem skipLayout_length (s : Text) : (skipLayout s).length ≤ s.length := by
  fun_induction skipLayout s with
  | case1 s rest h ih => have := afterLayoutUnit?_length h; omega
  | case2 => exact Nat.le_refl _

end SchemaLang.Text
