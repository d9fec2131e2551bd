import SchemaLang.Proofs.Grammar.Prediction
import SchemaLang.Proofs.Grammar.Replay
import SchemaLang.Proofs.Text.Place

/-! What follows the word at which a text breaks is never looked at. The reader has gone on by
tokens that end in front of that word, and no test of the goal that is stuck sees beyond it. -/
namespace SchemaLang

open Text Scan

/-- Nothing, or something that a blank sets apart from what stands before. -/
def SetApart (s : Text) : Prop := ∀ c ∈ s.head?, isLayoutBlank c = true

theorem setApart_line (below : Text) : SetApart ('\n' :: below) := by
  rintro c ⟨⟩
  rfl

theorem setApart_dropWhile (s : Text) : SetApart (s.dropWhile (!isLayoutBlank ·)) := by
  intro c head
  have stop := List.head?_dropWhile_not (!isLayoutBlank ·) s
  rw [Option.mem_def.mp head] at stop
  simpa using stop

theorem not_solid_of_blank (blank : isLayoutBlank c = true) : isSolid c = false := by
  simp [isSolid, blank]

theorem SetApart.wordEnds (apart : SetApart x) : WordEnds x := by
  intro c head
  by_contra inside
  have solid := isSolid_of_wordChar (Bool.not_eq_false _ ▸ inside)
  rw [not_solid_of_blank (apart c head)] at solid
  cases solid

variable {k w x : Text}

/-- A word without blanks lies in front of what is set apart. -/
theorem isPrefixOf?_append (solid : ∀ c ∈ w, isSolid c = true) (apart : SetApart x) :
    w.isPrefixOf? (k ++ x) = (w.isPrefixOf? k).map (· ++ x) := by
  induction w generalizing k with
  | nil => simp [List.isPrefixOf?]
  | cons c w ih =>
    obtain ⟨start, solid⟩ := List.forall_mem_cons.mp solid
    cases k with
    | nil =>
      cases x with
      | nil => rfl
      | cons d x =>
        have other : c ≠ d := by
          rintro rfl
          rw [not_solid_of_blank (apart c rfl)] at start
          cases start
        simp [List.isPrefixOf?, other]
    | cons d k =>
      by_cases same : c = d
      · simp [List.isPrefixOf?, same, ih solid]
      · simp [List.isPrefixOf?, same]

namespace Text

theorem not_blank_of_no_unit (stands : afterLayoutUnit? (c :: s) = none) :
    isLayoutBlank c = false := by
  by_contra blank
  have unit : LayoutUnit (c :: s) s := .blank (by simpa using blank)
  rw [unit.skipped] at stands
  cases stands

/-- At a place behind layout the next line may be put right behind the first run. -/
theorem afterLayoutUnit?_line (stands : afterLayoutUnit? (w ++ x) = none) (filled : w ≠ [])
    (plain : ¬ ['/', '*'] <+: w) (below : Text) : afterLayoutUnit? (w ++ '\n' :: below) = none := by
  obtain ⟨c, w, rfl⟩ := List.exists_cons_of_ne_nil filled
  by_cases slash : c = '/'
  · subst slash
    cases w with
    | nil => simp [afterLayoutUnit?, isLayoutBlank]
    | cons d w =>
      have other : d ≠ '/' := by
        rintro rfl
        simp [afterLayoutUnit?_lineComment] at stands
      have star : d ≠ '*' := by
        rintro rfl
        exact plain ⟨w, rfl⟩
      simp [afterLayoutUnit?, other, star, isLayoutBlank]
  · simp [afterLayoutUnit?, slash, not_blank_of_no_unit stands]

theorem skipLayout_run (skipped : s.skipLayout = w ++ x) (same : s = u ++ (w ++ x))
    (filled : w ≠ []) (plain : ¬ ['/', '*'] <+: w) (below : Text) :
    (u ++ (w ++ '\n' :: below)).skipLayout = w ++ '\n' :: below := by
  have replaces : Replaces (w ++ '\n' :: below) (w ++ x) := .prepend filled
  have gap := (skipped ▸ gap_skipLayout s).swap same replaces
  have stands := skipped ▸ afterLayoutUnit?_skipLayout s
  rw [skipLayout_gap gap]
  exact skipLayout_of_no_unit (afterLayoutUnit?_line stands filled plain below)

end Text

namespace Grammar

theorem Test.half_solid (t : Test) : ∀ c ∈ t.half, isSolid c = true := by
  cases t with
  | keyword w reserved =>
    exact fun c mem => isSolid_of_wordChar ((isWord_reserved reserved).wordChars c mem)
  | literal =>
    intro c mem
    obtain rfl := List.mem_singleton.mp mem
    decide
  | _ => exact nofun

theorem Test.breaksAt_append (t : Test) (apart : SetApart x) :
    t.breaksAt (k ++ x) = t.breaksAt k ++ x := by
  unfold breaksAt
  rw [isPrefixOf?_append t.half_solid apart]
  cases t.half.isPrefixOf? k <;> rfl

/-- Whether a reference goes on is seen before the next blank. -/
theorem qualification_absent_line (apart : SetApart x)
    (absent : Absent qualification (k ++ x)) (below : Text) :
    Absent qualification (k ++ '\n' :: below) := by
  refine quiet_qualification.absent fun q rest found => ?_
  obtain ⟨separator, name, joins, named, spelled, same, ends⟩ := qualification_found_iff.mp found
  have solid : ∀ c ∈ q, isSolid c = true := by
    have compact : Compact separator := by rcases joins with rfl | rfl <;> decide
    rw [spelled]
    exact fun c mem => isSolid_of_tokenChar
      ((List.mem_append.mp mem).elim (compact c) (named.1.compact c))
  have cut := prefixed_iff.mpr same
  rw [isPrefixOf?_append solid (setApart_line below)] at cut
  obtain ⟨r, inside, rfl⟩ := Option.map_eq_some_iff.mp cut
  have earlier : WordEnds (r ++ x) := by
    cases r with
    | nil => exact apart.wordEnds
    | cons c r => exact wordEnds_cons.mpr (wordEnds_cons.mp ends)
  refine absent.not_found (qualification_found_iff.mpr
    ⟨separator, name, joins, named, spelled, ?_, earlier⟩)
  rw [prefixed_iff.mp inside, List.append_assoc]

/-- A token missing at a run is missing whatever follows the run. -/
theorem Test.absent_line {t : Test} (absent : Absent t.scan s) (skipped : s.skipLayout = w ++ x)
    (same : s = u ++ (w ++ x)) (filled : w ≠ []) (plain : ¬ ['/', '*'] <+: w) (apart : SetApart x)
    (below : Text) : Absent t.scan (u ++ (w ++ '\n' :: below)) := by
  refine (scan_absent_congr ?_).mp absent
  rw [skipped, skipLayout_run skipped same filled plain below, glimpse_append filled apart.wordEnds,
    glimpse_append filled (setApart_line below).wordEnds]

/-- Where a goal is stuck at a run it is stuck whatever follows the run. -/
theorem stuck_line (stuck : firstOf (menu (g :: agenda)) s s = .absent stop)
    (skipped : stop.skipLayout = w ++ x) (filled : w ≠ []) (plain : ¬ ['/', '*'] <+: w)
    (apart : SetApart x) (below : Text) : ∃ u stop', s = u ++ (w ++ x) ∧
      firstOf (menu (g :: agenda)) (u ++ (w ++ '\n' :: below)) (u ++ (w ++ '\n' :: below)) =
        .absent stop' ∧ stop'.skipLayout = w ++ '\n' :: below := by
  -- a half token, layout and the run stand where the goal looked for its tokens
  obtain ⟨half, v, place, rfl, solid⟩ : ∃ half v, s.skipLayout = half ++ (v ++ w) ++ x ∧
      stop = v ++ (w ++ x) ∧ ¬ ['/', '*'] <+: half ++ (v ++ w) := by
    rcases stuck_stop stuck with rfl | ⟨begun, sort⟩
    · rw [skipLayout_skipLayout] at skipped
      exact ⟨[], [], by simpa using skipped, by simpa using skipped, by simpa using plain⟩
    · obtain ⟨v, rfl⟩ := (skipped ▸ gap_skipLayout stop).suffix
      refine ⟨g.last.half, v, by simpa using begun, rfl, ?_⟩
      rcases sort with ⟨e, rfl⟩ | rfl <;> simp [Goal.last, Test.half, List.cons_prefix_cons]
  obtain ⟨absent, stops⟩ := stuck_iff.mp stuck
  obtain ⟨u, same⟩ := (gap_skipLayout s).suffix
  rw [place] at same stops
  set k := half ++ (v ++ w) with run
  have filled' : k ≠ [] := by simp [run, filled]
  have breaks : g.last.breaksAt k = v ++ w := by
    rw [Test.breaksAt_append _ apart, ← List.append_assoc] at stops
    exact (List.append_cancel_right stops).symm
  refine ⟨u ++ half ++ v, v ++ (w ++ '\n' :: below), ?_, ?_,
    skipLayout_run skipped rfl filled plain below⟩
  · simpa [run] using same.symm
  · have text : u ++ half ++ v ++ (w ++ '\n' :: below) = u ++ (k ++ '\n' :: below) := by simp [run]
    rw [text, stuck_iff, skipLayout_run place same.symm filled' solid below,
      Test.breaksAt_append _ (setApart_line below), breaks]
    refine ⟨fun c mem => ?_, by simp⟩
    exact Test.absent_line (absent c mem) place same.symm filled' solid apart below

/-- Where a run breaks at a run of characters it breaks there whatever follows. -/
theorem Runs.broken_line (runs : Runs agenda s v) (filled : w ≠ []) (plain : ¬ ['/', '*'] <+: w)
    (apart : SetApart x) (below : Text) : ∀ stop e, v = .broken stop e →
    stop.skipLayout = w ++ x → ∃ u stop', s = u ++ (w ++ x) ∧
      Runs agenda (u ++ (w ++ '\n' :: below)) (.broken stop' e) ∧
      stop'.skipLayout = w ++ '\n' :: below := by
  -- by the tokens read; each of them ends in front of the run, at the same character as before
  induction runs with
  | @read agenda s next rest v found _ ih =>
    intro stop e broken skipped
    obtain ⟨u, stop', rfl, runs, place⟩ := ih stop e broken skipped
    obtain ⟨t, token, -, spells, reads, free, replay⟩ := firstOf_replay found
    obtain ⟨m, rfl⟩ := reads.suffix
    have replaces : Replaces (u ++ (w ++ '\n' :: below)) (u ++ (w ++ x)) :=
      Replaces.append (.prepend filled) u
    refine ⟨m ++ u, stop', by simp, ?_, place⟩
    rw [List.append_assoc]
    refine .read (replay _ _ (reads.swap rfl replaces) fun refers => ?_) runs
    rw [← List.append_assoc] at free ⊢
    exact qualification_absent_line apart (free refers) below
  | @stuck g agenda s stop stuck =>
    rintro _ _ ⟨⟩ skipped
    obtain ⟨u, stop', same, stuck, place⟩ := stuck_line stuck skipped filled plain apart below
    exact ⟨u, stop', same, .stuck stuck, place⟩
  | @trailing s absent _ =>
    rintro _ _ ⟨⟩ skipped
    rw [skipLayout_skipLayout] at skipped
    obtain ⟨u, same⟩ := (skipped ▸ gap_skipLayout s).suffix
    have place := skipLayout_run skipped same.symm filled plain below
    refine ⟨u, _, same.symm, .trailing ?_ (by simp [place]), by rw [skipLayout_skipLayout, place]⟩
    exact Test.absent_line (t := .keyword "scope" (by decide)) absent skipped same.symm filled plain
      apart below
  | ending => exact nofun

/-- A text is refused no earlier than where it breaks: of what follows the place, only the word
that stands there is looked at. -/
theorem parse_indifferent {source : String} (refused : parse source = .error err) :
    (∃ before place, source.toList = before ++ place ∧
      err.position = placeIn source.toList place) ∧
    ∀ before place, source.toList = before ++ place → err.position = placeIn source.toList place →
      place ≠ [] → ¬ ['/', '*'] <+: place → ∀ below : Text, ∃ found,
        parse (.ofList (before ++ (place.takeWhile (!isLayoutBlank ·) ++ '\n' :: below))) =
          .error ⟨err.position, err.expected, found⟩ := by
  obtain ⟨stop, e, runs, rfl⟩ := parse_error_iff.mp refused
  obtain ⟨start, whole⟩ := (gap_skipLayout stop).suffix.trans (runs.suffix stop e rfl)
  refine ⟨⟨start, _, whole.symm, rfl⟩, fun before place split same filled plain below => ?_⟩
  change placeIn source.toList stop.skipLayout = _ at same
  obtain rfl : start = before := by
    refine Position.after_cancel (whole.trans split) ?_
    rw [← placeIn_suffix start stop.skipLayout, whole, same, split, placeIn_suffix]
  obtain rfl : stop.skipLayout = place := List.append_cancel_left (whole.trans split)
  set run := stop.skipLayout.takeWhile (!isLayoutBlank ·) with first
  have filled : run ≠ [] := by
    have stands := afterLayoutUnit?_skipLayout stop
    obtain ⟨c, rest, starts⟩ := List.exists_cons_of_ne_nil filled
    rw [starts] at stands first
    simp [first, not_blank_of_no_unit stands]
  obtain ⟨u, stop', text, again, place'⟩ := runs.broken_line filled
    (fun comment => plain (comment.trans (List.takeWhile_prefix _))) (setApart_dropWhile _) below
    stop e rfl List.takeWhile_append_dropWhile.symm
  rw [List.takeWhile_append_dropWhile, split] at text
  obtain rfl := List.append_cancel_right text
  refine ⟨.ofText stop'.skipLayout, parse_error_iff.mpr ⟨stop', e, ?_, ?_⟩⟩
  · rwa [String.toList_ofList]
  · have position : placeIn (start ++ (run ++ '\n' :: below)) stop'.skipLayout =
        placeIn source.toList stop.skipLayout := by
      rw [place', placeIn_suffix, split, placeIn_suffix]
    rw [String.toList_ofList, SyntaxError.ofStop, SyntaxError.mk.injEq]
    exact ⟨position, rfl, rfl⟩

/-- The number that is missing stands on the next line. -/
theorem parse_indifferent_number :
    let source := "scope a \x7b struct s [-] ok"
    let err : SyntaxError := ⟨⟨1, 22⟩, .typeId, .word "]"⟩
    parse source = .error err ∧ ∃ found,
      parse (.ofList ("scope a \x7b struct s [-".toList ++
        ("] ok".toList.takeWhile (!isLayoutBlank ·) ++ '\n' :: "1] \x7b\x7d \x7d".toList))) =
          .error ⟨err.position, err.expected, found⟩ := by
  intro source err
  have refused : parse source = .error err := by cbv
  have place : err.position = placeIn source.toList "] ok".toList := by cbv
  have split : source.toList = "scope a \x7b struct s [-".toList ++ "] ok".toList := by cbv
  exact ⟨refused, (parse_indifferent refused).2 _ _ split place (by simp) (by decide) _⟩

end Grammar
end SchemaLang
