import SchemaLang.Proofs.Grammar.Glimpse

/-! Tokens read again in front of another text. Layout and tokens stay what they are as long as
the next character behind them stays or is a line feed, and the choice that was made for a token is
made for it again. -/
namespace SchemaLang

open Text Scan

/-- The second text may take the place of the first one behind layout or a token. -/
def Replaces (r' r : Text) : Prop := r'.head? = r.head? ∨ r'.head? = some '\n'

theorem Replaces.prepend (filled : w ≠ []) : Replaces (w ++ r') (w ++ r) := by
  cases w with
  | nil => exact absurd rfl filled
  | cons c w => exact .inl rfl

theorem Replaces.line (below r : Text) : Replaces ('\n' :: below) r := .inr rfl

theorem Replaces.wordEnds (replaces : Replaces r' r) (ends : WordEnds r) : WordEnds r' := by
  intro c head
  rcases replaces with same | feed
  · exact ends c (same ▸ head)
  · obtain rfl : '\n' = c := by simpa [feed] using head
    decide

theorem Replaces.stops (replaces : Replaces r' r) (stops : ∀ c ∈ r.head?, c = '\n') :
    ∀ c ∈ r'.head?, c = '\n' := by
  intro c head
  rcases replaces with same | feed
  · exact stops c (same ▸ head)
  · simpa [feed, eq_comm] using head

theorem Replaces.append (replaces : Replaces r' r) (w : Text) : Replaces (w ++ r') (w ++ r) := by
  cases w with
  | nil => exact replaces
  | cons c w => exact .inl rfl

namespace Text

/-- Only a line comment depends on what stands behind it. -/
theorem LayoutUnit.swap (unit : LayoutUnit s r) (same : s = u ++ r)
    (stops : (∀ c ∈ r.head?, c = '\n') → ∀ c ∈ r'.head?, c = '\n') :
    LayoutUnit (u ++ r') r' := by
  cases unit with
  | @blank c r blank =>
    obtain rfl : u = [c] := (List.append_cancel_right (show [c] ++ r = u ++ r from same)).symm
    exact .blank blank
  | @lineComment body r inside stop =>
    obtain rfl : u = '/' :: '/' :: body :=
      (List.append_cancel_right (show ('/' :: '/' :: body) ++ r = u ++ r from same)).symm
    exact .lineComment inside (stops stop)
  | @blockComment body r clear =>
    have text : u ++ r = ('/' :: '*' :: (body ++ ['*', '/'])) ++ r := by simpa using same.symm
    obtain rfl := List.append_cancel_right text
    simpa using LayoutUnit.blockComment clear

/-- Layout in front of a place does not depend on what stands there. -/
theorem Gap.swap (gap : Gap s r) (same : s = u ++ r) (replaces : Replaces r' r) :
    Gap (u ++ r') r' := by
  induction gap generalizing u with
  | none =>
    obtain rfl : u = [] := by simpa using same
    exact .none
  | unit unit gap ih =>
    obtain ⟨v, rfl⟩ := gap.suffix
    obtain ⟨w, rfl⟩ := unit.suffix
    rw [← List.append_assoc] at same
    obtain rfl := List.append_cancel_right same
    rw [List.append_assoc]
    exact .unit (unit.swap rfl (replaces.append v).stops) (ih rfl replaces)

end Text

theorem Reads.suffix (reads : Reads ts s rest) : rest <:+ s := by
  induction reads with
  | nil => exact List.suffix_rfl
  | cons gap _ _ ih => exact (ih.trans (List.suffix_append _ _)).trans gap.suffix

/-- Tokens in front of a place do not depend on what stands there. -/
theorem Reads.swap (reads : Reads ts s r) (same : s = u ++ r) (replaces : Replaces r' r) :
    Reads ts (u ++ r') r' := by
  induction reads generalizing u with
  | nil =>
    obtain rfl : u = [] := by simpa using same
    exact .nil
  | @cons s middle t ts r gap apart later ih =>
    obtain ⟨v, rfl⟩ := later.suffix
    obtain ⟨w, rfl⟩ := gap.suffix
    have split : w ++ (t.toList ++ v) ++ r = u ++ r := by simpa using same
    obtain rfl := List.append_cancel_right split
    have front := gap.swap rfl ((replaces.append v).append t.toList)
    have again := Reads.cons front (apart.imp_right (replaces.append v).wordEnds) (ih rfl replaces)
    simpa using again

namespace Grammar

/-- The choice made for a token is made wherever that token is read, if only a reference ends
there. -/
theorem firstOf_replay (found : firstOf choices stop s = .found next rest) :
    ∃ t w, (t, next) ∈ choices ∧ t.Spells w ∧ Reads [w] s rest ∧
      (t = .reference → Absent qualification rest) ∧
      ∀ s' rest', Reads [w] s' rest' → (t = .reference → Absent qualification rest') →
        firstOf choices s' s' = .found next rest' := by
  obtain ⟨before, t, after, rfl, absent, found⟩ := firstOf_found found
  obtain ⟨w, spells, reads, ended⟩ := Test.scan_found_iff.mp found
  refine ⟨t, w, by simp, spells, reads, ended, fun s' rest' reads' free => ?_⟩
  have alike : glimpse s.skipLayout = glimpse s'.skipLayout :=
    (glimpse_reads spells.mark_or_lexeme reads).trans
      (glimpse_reads spells.mark_or_lexeme reads').symm
  have again : t.scan s' = .found () rest' :=
    Test.scan_found_iff.mpr ⟨w, spells, reads', free⟩
  refine firstOf_of_found (fun c mem => ?_) again s' after
  exact (Test.scan_absent_congr alike).mp (absent c mem)

variable {g : Goal}

/-- A goal that is stuck finds none of its tokens, and its last test says where. -/
theorem stuck_iff : firstOf (menu (g :: agenda)) s s = .absent stop ↔
    (∀ c ∈ menu (g :: agenda), Absent c.1.scan s) ∧ stop = g.last.breaksAt s.skipLayout := by
  obtain ⟨init, next, split⟩ := menu_last g agenda
  constructor
  · intro stuck
    obtain ⟨absent, final⟩ := firstOf_absent stuck
    exact ⟨absent, Test.scan_absent_stop (final init g.last next split)⟩
  · rintro ⟨absent, rfl⟩
    rw [split] at absent ⊢
    obtain ⟨stop, missing⟩ := absent (g.last, next) (by simp)
    rw [firstOf_of_absent (fun c mem => absent c (by simp [mem])) missing,
      Test.scan_absent_stop missing]

/-- The text breaks behind its layout, or within a token that only one test was asked for. -/
theorem stuck_stop (stuck : firstOf (menu (g :: agenda)) s s = .absent stop) :
    stop = s.skipLayout ∨ s.skipLayout = g.last.half ++ stop ∧
      ((∃ e, g = .literal e) ∨ g = .outermost) := by
  obtain ⟨-, rfl⟩ := stuck_iff.mp stuck
  unfold Test.breaksAt
  cases cut : g.last.half.isPrefixOf? s.skipLayout with
  | none => exact .inl rfl
  | some rest =>
    rw [Option.getD_some, prefixed_iff.mp cut]
    cases g with
    | literal e => exact .inr ⟨rfl, .inl ⟨e, rfl⟩⟩
    | outermost => exact .inr ⟨rfl, .inr rfl⟩
    | _ => exact .inl rfl

theorem Runs.suffix (runs : Runs agenda s v) : ∀ stop e, v = .broken stop e → stop <:+ s := by
  induction runs with
  | read found _ ih =>
    intro stop e broken
    obtain ⟨_, _, _, _, reads, -⟩ := firstOf_replay found
    exact (ih stop e broken).trans reads.suffix
  | @stuck g agenda s stop stuck =>
    rintro _ _ ⟨⟩
    rcases stuck_stop stuck with rfl | ⟨begun, -⟩
    · exact (gap_skipLayout s).suffix
    · exact (begun ▸ List.suffix_append _ _).trans (gap_skipLayout s).suffix
  | @trailing s =>
    rintro _ _ ⟨⟩
    exact (gap_skipLayout s).suffix
  | ending => exact nofun

end Grammar
end SchemaLang
