import SchemaLang.Proofs.Grammar.Prediction
import SchemaLang.Proofs.Grammar.Replay
import SchemaLang.Proofs.Text.Place

/-! What a refusal says was expected, held against what stands at its place. A goal is reported by a
label that names some of the tokens it was asked for, and none of these stands where it is stuck.
Three reports can be wrong all the same: the label of an enumeration still offers the comma that has
just been read, and behind half a token the place lies within it. -/
namespace SchemaLang

open Text Scan Grammar

/-- Nothing that was expected stands at the place. -/
def SyntaxError.Truthful (source : Text) (err : SyntaxError) : Prop :=
  ∀ before place, source = before ++ place → err.position = placeIn source place →
    ∀ t ∈ alternatives err.expected, Absent t.scan place

/-- What may have been expected and stand at the place all the same: another comma behind the comma
of an enumeration, and the rest of a number or of the word `scope` of which a first part is read. -/
inductive Excused : Text → Text → Test → Prop where
  | comma : Gap (gap ++ stop) stop → Excused (before ++ ',' :: gap) stop (.mark .comma)
  | sign : Excused (before ++ ['-']) stop .literal
  | scope : ¬ WordEnds stop → Excused (before ++ "scope".toList) stop (.keyword "scope" reserved)

namespace Grammar

/-- A goal is asked for every token that its label names. -/
def Goal.Covered (g : Goal) : Prop := ∀ t ∈ alternatives g.label, t ∈ g.choices.map Prod.fst

theorem scopeBody_covered : ∀ g ∈ Goal.scopeBody, g.Covered := by
  simp [Goal.scopeBody, Goal.Covered, Goal.label, alternatives, Goal.choices,
    Goal.itemChoices, Goal.declarationChoices]

/-- The goals that take the place of another one are covered, those behind a comma aside. -/
theorem choices_covered (g : Goal) :
    ∀ c ∈ g.choices, (∀ h ∈ c.2, h.Covered) ∨ c = (.mark .comma, [.afterComma]) := by
  cases g <;>
    simp [Goal.Covered, Goal.label, alternatives, Goal.choices, Goal.scopeBody,
      Goal.enumBody, Goal.structBody, Goal.unionBody, Goal.memberEnd, Goal.octetsEnd,
      Goal.switchEnd, Goal.itemChoices, Goal.declarationChoices, Goal.memberChoices,
      Goal.valueChoices, Goal.extendChoices, Goal.caseChoices]

theorem Test.absent_skipLayout {t : Test} (absent : Absent t.scan s) : Absent t.scan s.skipLayout :=
  (scan_absent_congr (by rw [skipLayout_skipLayout])).mp absent

theorem stuck_unfound (stuck : firstOf (menu (g :: agenda)) s s = .absent stop)
    (mem : t ∈ g.choices.map Prod.fst) : Absent t.scan s := by
  obtain ⟨c, chosen, rfl⟩ := List.mem_map.mp mem
  exact (stuck_iff.mp stuck).1 (c.1, c.2 ++ agenda) (List.mem_map.mpr ⟨c, chosen, rfl⟩)

/-- An agenda of covered goals, or of one that stands behind a comma and covered goals. -/
inductive Covered : Text → List Goal → Prop where
  | goals : (∀ g ∈ agenda, g.Covered) → Covered before agenda
  | comma : (∀ g ∈ agenda, g.Covered) → Covered (before ++ [',']) (.afterComma :: agenda)

namespace Covered

theorem tail (covered : Covered before (g :: agenda)) : ∀ h ∈ agenda, h.Covered := by
  cases covered with
  | goals every => exact (List.forall_mem_cons.mp every).2
  | comma every => exact every

/-- One token further the agenda is covered again. -/
theorem step (covered : Covered before agenda) (mem : (t, next) ∈ menu agenda)
    (spells : t.Spells w) (reads : Reads [w] (u ++ rest) rest) : Covered (before ++ u) next := by
  cases agenda with
  | nil =>
    obtain ⟨-, rfl⟩ := Prod.mk.inj (List.mem_singleton.mp mem)
    exact .goals scopeBody_covered
  | cons g agenda =>
    obtain ⟨c, chosen, same⟩ := List.mem_map.mp mem
    obtain ⟨rfl, rfl⟩ := Prod.mk.inj same
    rcases choices_covered g c chosen with every | rfl
    · exact .goals (List.forall_mem_append.mpr ⟨every, covered.tail⟩)
    · obtain rfl : w = Mark.comma.text := spells
      obtain ⟨m, ends⟩ := (reads_singleton_iff.mp reads).1.suffix
      have text : m ++ [','] ++ rest = u ++ rest := by simpa [Mark.char] using ends
      obtain rfl := List.append_cancel_right text
      rw [← List.append_assoc]
      exact .comma covered.tail

end Covered

/-- Where the keyword is absent although its characters stand there, the word goes on. -/
theorem keyword_goes_on (reserved : w ∈ reservedWords) (absent : Absent (keyword w) s)
    (begun : s.skipLayout = w.toList ++ stop) : ¬ WordEnds stop := by
  intro ends
  have reads : Reads [w] s stop :=
    reads_singleton_iff.mpr ⟨begun ▸ gap_skipLayout s, .inr ends⟩
  have found : keyword w s = .found () stop := (keyword_found_iff reserved).mpr reads
  exact absent.not_found found

theorem stuck_alternatives (stuck : firstOf (menu (g :: agenda)) s s = .absent stop)
    (covered : Covered before (g :: agenda)) : ∃ u, s = u ++ stop ∧
      ∀ t ∈ alternatives g.label, Absent t.scan stop.skipLayout ∨ Excused (before ++ u) stop t := by
  rcases stuck_stop stuck with rfl | ⟨begun, sort⟩
  · obtain ⟨u, same⟩ := (gap_skipLayout s).suffix
    have unfound {t : Test} (mem : t ∈ g.choices.map Prod.fst) :
        Absent t.scan s.skipLayout.skipLayout :=
      Test.absent_skipLayout (Test.absent_skipLayout (stuck_unfound stuck mem))
    refine ⟨u, same.symm, fun t mem => ?_⟩
    cases covered with
    | goals every => exact .inl (unfound ((List.forall_mem_cons.mp every).1 t mem))
    | comma _ =>
      rcases List.mem_pair.mp mem with rfl | rfl
      · rw [List.append_assoc, List.singleton_append]
        exact .inr (.comma (by simpa [same] using gap_skipLayout s))
      · exact .inl (unfound (by simp [Goal.choices]))
  · obtain ⟨u, same⟩ := (begun ▸ gap_skipLayout s).suffix
    refine ⟨u ++ g.last.half, by simpa using same.symm, fun t mem => .inr ?_⟩
    rw [← List.append_assoc]
    rcases sort with ⟨e, rfl⟩ | rfl
    · obtain rfl : t = .literal := by
        cases covered with
        | goals every => simpa [Goal.choices] using every _ (List.mem_cons_self ..) t mem
      exact .sign
    · obtain rfl := List.mem_singleton.mp mem
      have absent : Absent (keyword "scope") s :=
        stuck_unfound (t := .keyword "scope" (by decide)) stuck (by simp [Goal.choices])
      exact .scope (keyword_goes_on (by decide) absent begun)

theorem Runs.alternatives (runs : Runs agenda s v) : ∀ before stop e, v = .broken stop e →
    Covered before agenda → ∃ u, s = u ++ stop ∧
      ∀ t ∈ alternatives e, Absent t.scan stop.skipLayout ∨ Excused (before ++ u) stop t := by
  induction runs with
  | @read agenda s next rest v found _ ih =>
    intro before stop e broken covered
    obtain ⟨t, w, mem, spells, reads, -⟩ := firstOf_replay found
    obtain ⟨m, rfl⟩ := reads.suffix
    obtain ⟨u, rfl, named⟩ := ih _ stop e broken (covered.step mem spells reads)
    exact ⟨m ++ u, by simp, by simpa using named⟩
  | stuck stuck =>
    rintro before _ _ ⟨⟩ covered
    exact stuck_alternatives stuck covered
  | @trailing s absent _ =>
    rintro before _ _ ⟨⟩ -
    obtain ⟨u, same⟩ := (gap_skipLayout s).suffix
    refine ⟨u, same.symm, fun t mem => .inl ?_⟩
    obtain rfl := List.mem_singleton.mp mem
    exact Test.absent_skipLayout (Test.absent_skipLayout absent)
  | ending => exact nofun

/-- A refusal names nothing as expected that stands at its place, unless it is excused. -/
theorem parse_alternatives {source : String} (refused : parse source = .error err) :
    ∃ before stop, source.toList = before ++ stop ∧
      recognize source.toList = .broken stop err.expected ∧
      err = .ofStop source.toList stop err.expected ∧
      ∀ t ∈ alternatives err.expected, Absent t.scan (skipLayout stop) ∨ Excused before stop t := by
  obtain ⟨stop, e, runs, rfl⟩ := parse_error_iff.mp refused
  have outermost : Covered [] [.outermost] := by
    refine .goals (List.forall_mem_singleton.mpr ?_)
    simp [Goal.Covered, Goal.label, alternatives, Goal.choices]
  obtain ⟨before, same, named⟩ := runs.alternatives [] stop e rfl outermost
  exact ⟨before, stop, same, recognize_broken_iff.mpr runs, rfl, named⟩

/-- The rest of a number stands behind its sign. -/
theorem parse_alternatives_sign :
    let source := "scope a \x7b union u \x7b case - 5: \x7d \x7d"
    let err : SyntaxError := ⟨⟨1, 28⟩, .caseDiscriminant, .word "5:"⟩
    parse source = .error err ∧ ∃ before stop, source.toList = before ++ stop ∧
      recognize source.toList = .broken stop err.expected ∧
      err = .ofStop source.toList stop err.expected ∧
      ∀ t ∈ alternatives err.expected, Absent t.scan (skipLayout stop) ∨ Excused before stop t := by
  intro source err
  have refused : parse source = .error err := by cbv
  exact ⟨refused, parse_alternatives refused⟩

/-- Where two commas follow each other, the second one is reported as if it were missing. -/
theorem parse_untruthful :
    ¬ ∀ source err, parse source = .error err → err.Truthful source.toList := by
  intro claimed
  have refused : parse "scope a \x7b enum e \x7b a,, \x7d \x7d" =
      .error ⟨⟨1, 22⟩, .commaOrClose, .word ","⟩ := by cbv
  have split : "scope a \x7b enum e \x7b a,, \x7d \x7d".toList =
      "scope a \x7b enum e \x7b a,".toList ++ ", \x7d \x7d".toList := by cbv
  have position : (⟨1, 22⟩ : Position) =
      placeIn "scope a \x7b enum e \x7b a,, \x7d \x7d".toList ", \x7d \x7d".toList := by cbv
  have absent := claimed _ _ refused _ _ split position (.mark .comma) (.head _)
  have found : (Test.mark .comma).scan ", \x7d \x7d".toList =
      .found () " \x7d \x7d".toList := by cbv
  exact absent.not_found found

end Grammar
end SchemaLang
