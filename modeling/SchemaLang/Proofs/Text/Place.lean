import Mathlib.Data.List.Induction
import SchemaLang.Proofs.Text.LineStart

/-! The place at which a suffix of a source starts, counted over the characters before it. The
table of line starts gives the same place, and places follow each other as the suffixes do. -/
namespace SchemaLang

open Text

/-- Where the last line of a text begins: at its start or behind a line feed. -/
def StartsLine (lines : Text) : Prop := lines = [] ∨ ∃ init, lines = init ++ ['\n']

theorem exists_lastLine (s : Text) :
    ∃ lines last, s = lines ++ last ∧ StartsLine lines ∧ '\n' ∉ last := by
  induction s using List.reverseRecOn with
  | nil => exact ⟨[], [], rfl, .inl rfl, by simp⟩
  | append_singleton s c ih =>
    by_cases feed : c = '\n'
    · exact ⟨s ++ [c], [], by simp, .inr ⟨s, by simp [feed]⟩, by simp⟩
    · obtain ⟨lines, last, rfl, starts, clear⟩ := ih
      exact ⟨lines, last ++ [c], by simp, starts, by simp [clear, Ne.symm feed]⟩

namespace Position

/-- One line further for each line feed, and one column further for each character behind the last
one. -/
def after (before : Text) : Position :=
  ⟨1 + before.count '\n', 1 + (before.reverse.takeWhile (· ≠ '\n')).length⟩

theorem after_lastLine (starts : StartsLine lines) (clear : '\n' ∉ last) :
    after (lines ++ last) = ⟨1 + lines.count '\n', 1 + last.length⟩ := by
  have inside : ∀ c ∈ last.reverse, decide (c ≠ '\n') = true := by
    intro c mem
    exact decide_eq_true fun same => clear (same ▸ List.mem_reverse.mp mem)
  rw [after, List.count_append, List.count_eq_zero.mpr clear, List.reverse_append,
    List.takeWhile_append_of_pos inside]
  rcases starts with rfl | ⟨init, rfl⟩ <;> simp

theorem after_concat (before : Text) (c : Char) : after (before ++ [c]) =
    if c = '\n' then ⟨(after before).line + 1, 1⟩
    else ⟨(after before).line, (after before).column + 1⟩ := by
  by_cases feed : c = '\n'
  · simp [after, feed, Nat.add_assoc]
  · simp [after, feed, Nat.add_comm]

theorem lt_iff {p q : Position} :
    p < q ↔ p.line < q.line ∨ p.line = q.line ∧ p.column < q.column := by
  change (compare p.line q.line).then (compare p.column q.column) = .lt ↔ _
  simp [Ordering.then_eq_lt, Nat.compare_eq_lt]

theorem lt_irrefl (p : Position) : ¬ p < p := by
  rw [lt_iff]
  omega

theorem after_lt_concat (before : Text) (c : Char) : after before < after (before ++ [c]) := by
  rw [after_concat, lt_iff]
  split <;> simp

theorem after_lt (before : Text) {more : Text} (nonempty : more ≠ []) :
    after before < after (before ++ more) := by
  induction more using List.reverseRecOn with
  | nil => exact absurd rfl nonempty
  | append_singleton more c ih =>
    have last := after_lt_concat (before ++ more) c
    rw [List.append_assoc] at last
    by_cases empty : more = []
    · simpa [empty] using last
    · have first := ih empty
      rw [lt_iff] at *
      omega

/-- The beginnings of a text end at different places. -/
theorem after_cancel {before before' place place' : Text}
    (split : before ++ place = before' ++ place') (same : after before = after before') :
    before = before' := by
  have apart {shorter more : Text} (same : after shorter = after (shorter ++ more)) :
      more = [] := by
    by_contra nonempty
    exact lt_irrefl _ (same ▸ after_lt shorter nonempty)
  rcases List.append_eq_append_iff.mp split with ⟨more, rfl, -⟩ | ⟨more, rfl, -⟩
  · simp [apart same]
  · simp [apart same.symm]

/-- A number of lines further down. -/
def down (lines : Nat) (p : Position) : Position := ⟨p.line + lines, p.column⟩

/-- Behind a line feed the columns are counted anew. -/
theorem after_line (above before : Text) :
    after (above ++ '\n' :: before) = (after before).down (above.count '\n' + 1) := by
  obtain ⟨lines, last, rfl, starts, clear⟩ := exists_lastLine before
  have lower : StartsLine (above ++ '\n' :: lines) := by
    rcases starts with rfl | ⟨init, rfl⟩
    · exact .inr ⟨above, rfl⟩
    · exact .inr ⟨above ++ '\n' :: init, by simp⟩
  have same : above ++ '\n' :: (lines ++ last) = above ++ '\n' :: lines ++ last := by simp
  rw [same, after_lastLine lower clear, after_lastLine starts clear]
  simp only [down, List.count_append, List.count_cons_self, Position.mk.injEq, and_true]
  omega

end Position

namespace LineTable

variable (before after : Text)

theorem line_suffix :
    (ofText (before ++ after)).line before.byteSize = 1 + before.count '\n' := by
  have passed : (startsFrom 0 before).countP (· ≤ before.byteSize) = before.count '\n' := by
    rw [← length_startsFrom 0, List.countP_eq_length]
    intro start mem
    simpa using (mem_startsFrom mem).2
  have ahead : (startsFrom (0 + before.byteSize) after).countP (· ≤ before.byteSize) = 0 := by
    rw [List.countP_eq_zero]
    intro start mem
    have := (mem_startsFrom mem).1
    simp only [decide_eq_true_eq]
    omega
  simp only [line_ofText, startsFrom_append, List.countP_cons, List.countP_append, passed, ahead,
    Nat.zero_le, decide_true, if_true]
  omega

theorem lineStart_suffix {lines last : Text} (starts : StartsLine lines) (clear : '\n' ∉ last) :
    (ofText (lines ++ last ++ after)).lineStart (lines ++ last).byteSize = lines.byteSize := by
  have count : (lines ++ last).count '\n' = (startsFrom 0 lines).length := by
    rw [length_startsFrom, List.count_append, List.count_eq_zero.mpr clear, Nat.add_zero]
  rw [lineStart, line_suffix, count, Nat.add_sub_cancel_left]
  simp only [ofText, startsFrom_append]
  rcases starts with rfl | ⟨init, rfl⟩
  · rfl
  · simp [startsFrom_append, startsFrom]

theorem column_suffix {lines last : Text} (starts : StartsLine lines) (clear : '\n' ∉ last) :
    (ofText (lines ++ last ++ after)).column (lines ++ last).byteSize = last.length + 1 := by
  have cut : (lines ++ last ++ after).dropBytes? lines.byteSize = some (last ++ after) := by
    rw [List.append_assoc, dropBytes?_byteSize]
  have width : (lines ++ last).byteSize - lines.byteSize = last.byteSize := by simp
  rw [column, lineStart_suffix after starts clear]
  simp only [ofText, cut, width, Option.bind_some, takeBytes?_byteSize]

/-- The position of an offset at which a character starts is counted over what stands before. -/
theorem position_byteSize :
    (ofText (before ++ after)).position before.byteSize = Position.after before := by
  obtain ⟨lines, last, rfl, starts, clear⟩ := exists_lastLine before
  rw [position, line_suffix, column_suffix after starts clear, Position.after_lastLine starts clear,
    List.count_append, List.count_eq_zero.mpr clear, Nat.add_zero, Nat.add_comm last.length]

/-- The place of a suffix by the table is the one counted before it. -/
theorem positionOf_suffix :
    (ofText (before ++ after)).positionOf after = Position.after before := by
  have offset : (before ++ after).byteSize - after.byteSize = before.byteSize := by simp
  rw [positionOf, show (ofText (before ++ after)).source = before ++ after from rfl, offset,
    position_byteSize]

end LineTable

/-- The place where a suffix of the source starts. -/
def placeIn (source : Text) : Text → Position := (LineTable.ofText source).positionOf

theorem placeIn_suffix (before after : Text) :
    placeIn (before ++ after) after = Position.after before :=
  LineTable.positionOf_suffix before after

end SchemaLang
