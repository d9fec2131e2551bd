import Mathlib.Data.Set.Card
import SchemaLang.Proofs.Text.Place

/-! The position of every byte offset, counted on the text. An offset at which a character starts
is placed by the characters before it, and such places increase with the offset. Any other offset
has the line whose start it has reached, and the first column. -/
namespace SchemaLang

namespace Text

/-- A character starts at the offset, or the text ends there. -/
def Boundary (source : Text) (offset : Nat) : Prop :=
  ∃ before after, source = before ++ after ∧ byteSize before = offset

/-- The offset lies past the end of the text or inside one of its characters. -/
def Astray (source : Text) (offset : Nat) : Prop :=
  source.byteSize < offset ∨ ∃ before c after, source = before ++ c :: after ∧
    byteSize before < offset ∧ offset < byteSize before + c.utf8Size

/-- A line after the first starts at the offset, right behind a line feed. -/
def BeginsLine (source : Text) (start : Nat) : Prop :=
  ∃ above below, source = above ++ '\n' :: below ∧ start = byteSize above + 1

theorem boundary_or_astray (source : Text) (offset : Nat) :
    source.Boundary offset ∨ source.Astray offset := by
  induction source generalizing offset with
  | nil =>
    rcases Nat.eq_zero_or_pos offset with rfl | past
    · exact .inl ⟨[], [], rfl, rfl⟩
    · exact .inr (.inl past)
  | cons c source ih =>
    rcases Nat.eq_zero_or_pos offset with rfl | later
    · exact .inl ⟨[], c :: source, rfl, rfl⟩
    by_cases inside : offset < c.utf8Size
    · exact .inr (.inr ⟨[], c, source, rfl, later, by simpa using inside⟩)
    have shift (n : Nat) : n = offset - c.utf8Size ↔ c.utf8Size + n = offset := by omega
    rcases ih (offset - c.utf8Size) with ⟨before, after, rfl, size⟩ | past | inner
    · exact .inl ⟨c :: before, after, rfl, (shift _).mp size⟩
    · exact .inr (.inl (by rw [byteSize_cons]; omega))
    · obtain ⟨before, d, after, rfl, low, high⟩ := inner
      exact .inr (.inr ⟨c :: before, d, after, rfl, by rw [byteSize_cons]; omega,
        by rw [byteSize_cons]; omega⟩)

theorem Astray.not_boundary (astray : Astray source offset) : ¬ source.Boundary offset := by
  rintro ⟨before, after, rfl, rfl⟩
  rcases astray with past | ⟨front, c, back, split, low, high⟩
  · rw [byteSize_append] at past
    omega
  rcases List.append_eq_append_iff.mp split with ⟨more, rfl, -⟩ | ⟨more, rfl, rest⟩
  · rw [byteSize_append] at low
    omega
  cases more with
  | nil => simp at low
  | cons d more =>
    obtain ⟨rfl, -⟩ := List.cons.inj rest
    rw [byteSize_append, byteSize_cons] at high
    omega

theorem dropBytes?_eq_some {s rest : Text} (cut : dropBytes? n s = some rest) :
    ∃ before, s = before ++ rest ∧ byteSize before = n := by
  fun_induction dropBytes? n s with
  | case1 s =>
    obtain rfl := Option.some.inj cut
    exact ⟨[], rfl, rfl⟩
  | case2 | case4 => cases cut
  | case3 n c s fits ih =>
    obtain ⟨before, rfl, size⟩ := ih cut
    exact ⟨c :: before, rfl, by rw [byteSize_cons]; omega⟩

theorem takeBytes?_eq_some {s before : Text} (cut : takeBytes? n s = some before) :
    ∃ after, s = before ++ after ∧ byteSize before = n := by
  fun_induction takeBytes? n s generalizing before with
  | case1 s =>
    obtain rfl := Option.some.inj cut
    exact ⟨s, rfl, rfl⟩
  | case2 | case4 => cases cut
  | case3 n c s fits ih =>
    obtain ⟨taken, inner, rfl⟩ := Option.map_eq_some_iff.mp cut
    obtain ⟨after, rfl, size⟩ := ih inner
    exact ⟨after, rfl, by rw [byteSize_cons]; omega⟩

end Text

namespace LineTable

open Text

variable {source : Text} {offset later : Nat}

/-- The table has a start for the line of every offset. -/
theorem lookup_inside (source : Text) (offset : Nat) :
    0 < (ofText source).line offset ∧
      (ofText source).line offset - 1 < (ofText source).starts.size := by
  have first : 0 < (ofText source).line offset := by
    rw [line_ofText, List.countP_cons_of_pos (by simp)]
    exact Nat.succ_pos _
  have last : (ofText source).line offset ≤ (ofText source).starts.size := by
    rw [line_ofText]
    exact List.countP_le_length
  omega

theorem lineStart_le (source : Text) (offset : Nat) :
    (ofText source).lineStart offset ≤ offset := by
  obtain ⟨first, inside⟩ := lookup_inside source offset
  rw [lineStart, Array.getElem?_eq_getElem inside, Option.getD_some]
  apply (getElem_le_iff (starts_increasing source) inside).mpr
  have count := line_ofText source offset
  change _ < (0 :: startsFrom 0 source).countP _
  omega

/-- The lines are counted by their starts, the first line apart. -/
theorem line_eq_ncard (source : Text) (offset : Nat) : (ofText source).line offset =
    1 + {start | source.BeginsLine start ∧ start ≤ offset}.ncard := by
  have reached : {start | source.BeginsLine start ∧ start ≤ offset} =
      (((startsFrom 0 source).filter (· ≤ offset)).toFinset : Set Nat) := by
    ext start
    simp [mem_startsFrom_iff, BeginsLine]
  have distinct : ((startsFrom 0 source).filter (· ≤ offset)).Nodup :=
    ((startsFrom_increasing 0 source).imp Nat.ne_of_lt).filter _
  rw [reached, Set.ncard_coe_finset, List.toFinset_card_of_nodup distinct, line_ofText,
    List.countP_cons_of_pos (by simp), List.countP_eq_length_filter, Nat.add_comm]

/-- Only between characters can a line be cut at an offset. -/
theorem column_astray (astray : source.Astray offset) : (ofText source).column offset = 1 := by
  have start := lineStart_le source offset
  rw [column]
  split
  · rename_i before cut
    obtain ⟨rest, dropped, taken⟩ := Option.bind_eq_some_iff.mp cut
    obtain ⟨lines, split, size⟩ := dropBytes?_eq_some dropped
    obtain ⟨after, rfl, width⟩ := takeBytes?_eq_some taken
    have boundary : source.Boundary offset := by
      refine ⟨lines ++ before, after, split.trans (List.append_assoc ..).symm, ?_⟩
      rw [byteSize_append]
      omega
    exact absurd boundary astray.not_boundary
  · rfl

theorem position_lt (here : source.Boundary offset) (there : source.Boundary later)
    (less : offset < later) : (ofText source).position offset < (ofText source).position later := by
  obtain ⟨before, after, rfl, rfl⟩ := here
  obtain ⟨longer, rest, split, rfl⟩ := there
  have first := position_byteSize before after
  have second := position_byteSize longer rest
  rw [first, split, second]
  rcases List.append_eq_append_iff.mp split with ⟨more, rfl, -⟩ | ⟨more, rfl, -⟩
  · refine Position.after_lt before ?_
    rintro rfl
    simp at less
  · rw [byteSize_append] at less
    omega

/-- An offset between characters is placed by the line feeds before it and by the characters
behind the last of them. An offset past the end or inside a character has the line of the last
start that it has reached, and the first column. The table has a start for each line that is found.
Offsets between characters are in the order of their positions, so that a position has only one. -/
theorem position_counted (source : Text) (offset : Nat) :
    (source.Boundary offset ∨ source.Astray offset) ∧
      (∀ before after, source = before ++ after → byteSize before = offset →
        (ofText source).position offset = Position.after before) ∧
      (source.Astray offset → (ofText source).position offset =
        ⟨1 + {start | source.BeginsLine start ∧ start ≤ offset}.ncard, 1⟩) ∧
      (0 < (ofText source).line offset ∧
        (ofText source).line offset - 1 < (ofText source).starts.size) ∧
      ∀ later, source.Boundary offset → source.Boundary later →
        (offset < later → (ofText source).position offset < (ofText source).position later) ∧
          ((ofText source).position offset = (ofText source).position later → offset = later) := by
  refine ⟨boundary_or_astray source offset, ?_, fun astray => ?_, lookup_inside source offset,
    fun later here there => ⟨position_lt here there, fun same => ?_⟩⟩
  · rintro before after rfl rfl
    exact position_byteSize before after
  · rw [position, line_eq_ncard, column_astray astray]
  · rcases Nat.lt_trichotomy offset later with less | equal | more
    · exact absurd (same ▸ position_lt here there less) (Position.lt_irrefl _)
    · exact equal
    · exact absurd (same ▸ position_lt there here more) (Position.lt_irrefl _)

/-- The first character has two bytes and is followed by an empty line. -/
theorem position_counted_feeds :
    let source : Text := "\u00e9\n\nx".toList
    source = "\u00e9\n".toList ++ "\nx".toList ∧ byteSize "\u00e9\n".toList = 3 ∧
      (ofText source).position 3 = Position.after "\u00e9\n".toList ∧
      source.Astray 1 ∧ source.Astray 6 ∧
      (ofText source).position 1 =
        ⟨1 + {start | source.BeginsLine start ∧ start ≤ 1}.ncard, 1⟩ ∧
      (ofText source).position 6 =
        ⟨1 + {start | source.BeginsLine start ∧ start ≤ 6}.ncard, 1⟩ ∧
      (ofText source).position 3 < (ofText source).position 4 := by
  intro source
  have inside : source.Astray 1 :=
    .inr ⟨[], '\u00e9', "\n\nx".toList, rfl, by decide, by decide⟩
  have past : source.Astray 6 := .inl (by decide)
  have feed : source.Boundary 3 := ⟨"\u00e9\n".toList, "\nx".toList, rfl, rfl⟩
  have last : source.Boundary 4 := ⟨"\u00e9\n\n".toList, "x".toList, rfl, rfl⟩
  exact ⟨rfl, rfl, (position_counted source 3).2.1 _ _ rfl rfl, inside, past,
    (position_counted source 1).2.2.1 inside, (position_counted source 6).2.2.1 past,
    ((position_counted source 3).2.2.2.2 4 feed last).1 (by decide)⟩

end LineTable
end SchemaLang
