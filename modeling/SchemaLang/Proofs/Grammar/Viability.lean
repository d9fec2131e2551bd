import SchemaLang.Proofs.Grammar.Prediction
import SchemaLang.Proofs.Grammar.Replay

/-! What stands before the place where a text breaks can be completed to a schema. Every goal has a
shortest way to an end, and a token that was begun is finished; what was read before is read again
in front of the completion. -/
namespace SchemaLang.Grammar

open Scan Text

/-- Each token on a line of its own. -/
def lines (tokens : List String) : Text := tokens.flatMap fun t => '\n' :: t.toList

theorem wordEnds_lines (tokens : List String) : WordEnds (lines tokens) := by
  cases tokens with
  | nil => exact wordEnds_nil
  | cons t tokens => exact wordEnds_cons.mpr (by decide)

theorem qualification_absent_lines (tokens : List String) :
    Absent qualification (lines tokens) := by
  apply qualification_absent
  cases tokens <;> simp [lines]

theorem reads_lines (gap : Gap s (lines (t :: ts))) : Reads [t] s (lines ts) := by
  have feed : LayoutUnit (lines (t :: ts)) (t.toList ++ lines ts) := .blank (by decide)
  exact reads_singleton_iff.mpr ⟨gap.trans (.unit feed .none), .inr (wordEnds_lines ts)⟩

theorem Test.Spells.is_mark {t : Test} (spells : t.first.Spells (Mark.text m)) : t = .mark m := by
  cases t with
  | mark n =>
    have same : m.text = n.text := spells
    have chars := congrArg String.toList same
    rw [mark_toList, mark_toList] at chars
    have unique : n = m := by
      revert chars
      cases m <;> cases n <;> decide
    rw [unique]
  | keyword w reserved =>
    obtain rfl : m.text = w := spells
    exact absurd (isWord_reserved reserved).isLexeme (mark_not_lexeme m)
  | name | reference => exact absurd (And.left spells).isLexeme (mark_not_lexeme m)
  | literal => exact absurd (IsIntLiteral.isLexeme spells) (mark_not_lexeme m)
  | word => exact absurd (IsWord.isLexeme spells) (mark_not_lexeme m)
  | primitive =>
    obtain ⟨kind, -, same⟩ := spells
    exact absurd (same ▸ (isWord_keyword kind).isLexeme) (mark_not_lexeme m)

/-- Only the test for a mark finds it. -/
theorem scan_absent_of_mark {t : Test} (reads : Reads [Mark.text m] s rest) (other : t ≠ .mark m) :
    Absent t.scan s := by
  refine Test.scan_absent_iff.mpr fun spells => other ?_
  rw [glimpse_reads (.inl ⟨m, rfl⟩) reads, mark_toList] at spells
  cases m <;> exact Test.Spells.is_mark spells

namespace Runs

variable {agenda next : List Goal} {s rest : Text} {v : Verdict}

/-- A mark is read by the one choice that is for it. -/
theorem read_mark (mem : (.mark m, next) ∈ menu agenda)
    (alone : ∀ c ∈ menu agenda, c.1 = .mark m → c.2 = next) (reads : Reads [m.text] s rest)
    (runs : Runs next rest v) : Runs agenda s v := by
  have found : (Test.mark m).scan s = .found () rest := mark_found_iff.mpr reads
  cases same : firstOf (menu agenda) s s with
  | found next' rest' =>
    obtain ⟨before, t, after, split, -, found'⟩ := firstOf_found same
    have isMark : t = .mark m := by
      by_contra other
      exact (scan_absent_of_mark reads other).not_found found'
    subst isMark
    obtain rfl : next' = next := alone (.mark m, next') (by simp [split]) rfl
    obtain ⟨-, rfl⟩ := Outcome.found.inj (found.symm.trans found')
    exact .read same runs
  | absent stop => exact absurd found ((firstOf_absent same).1 _ mem).not_found
  | broken stop e => exact absurd same (quiet_firstOf _ _ s stop e)

/-- A token of the first choice is read by it. -/
theorem read_first {t : Test} (first : menu agenda = (t, next) :: more) (spells : t.Spells w)
    (reads : Reads [w] s rest) (free : Absent qualification rest) (runs : Runs next rest v) :
    Runs agenda s v := by
  refine .read ?_ runs
  have found : t.scan s = .found () rest :=
    Test.scan_found_iff.mpr ⟨w, spells, reads, fun _ => free⟩
  rw [first]
  exact firstOf_of_found (List.forall_mem_nil _) found s more

end Runs

namespace Goal

/-- A token with which a goal can go on. -/
def token : Goal → String
  | outermost => "scope"
  | name _ | word _ | supertype => "a"
  | literal _ | octetsSize => "0"
  | mark m => m.text
  | structHeader | extension | unionHeader => Mark.openBrace.text
  | _ => Mark.closeBrace.text

/-- What is left of a goal behind that token. -/
def remains : Goal → List Goal
  | outermost => scopeBody
  | supertype => [mark .openBrace]
  | _ => []

end Goal

theorem isIdentifier_a : IsIdentifier "a" := ⟨⟨'a', [], rfl, rfl, by simp⟩, by decide⟩

theorem isIntLiteral_zero : IsIntLiteral "0" := ⟨[], '0', [], rfl, .inl rfl, rfl, by simp⟩

theorem Runs.read_token (g : Goal) (reads : Reads [g.token] s rest)
    (free : Absent qualification rest) (runs : Runs (g.remains ++ agenda) rest v) :
    Runs (g :: agenda) s v := by
  cases g with
  | outermost => exact .read_first rfl rfl reads free runs
  | name => exact .read_first (t := .name) rfl isIdentifier_a reads free runs
  | word => exact .read_first (t := .word) rfl isIdentifier_a.1 reads free runs
  | supertype => exact .read_first (t := .reference) rfl (.name isIdentifier_a) reads free runs
  | literal | octetsSize => exact .read_first (t := .literal) rfl isIntLiteral_zero reads free runs
  | _ =>
    refine .read_mark ?_ ?_ reads runs
    · simp [menu, Goal.choices, Goal.remains, Goal.memberChoices, Goal.itemChoices,
        Goal.valueChoices, Goal.extendChoices, Goal.caseChoices]
    · simp [menu, Goal.choices, Goal.remains, Goal.memberChoices, Goal.itemChoices,
        Goal.valueChoices, Goal.extendChoices, Goal.caseChoices, Goal.declarationChoices]

/-- Goals of which nothing is left behind their tokens are done one after the other. -/
theorem Runs.read_tokens (plain : ∀ g ∈ goals, Goal.remains g = [])
    (gap : Gap s (lines (goals.map Goal.token ++ ts)))
    (later : ∀ rest, Gap rest (lines ts) → Runs agenda rest v) : Runs (goals ++ agenda) s v := by
  induction goals generalizing s with
  | nil => exact later s gap
  | cons g goals ih =>
    obtain ⟨done, plain⟩ := List.forall_mem_cons.mp plain
    refine .read_token g (reads_lines gap) (qualification_absent_lines _) ?_
    rw [done]
    exact ih plain .none

namespace Goal

/-- The tokens with which a goal is done. -/
def closing (g : Goal) : List String := g.token :: g.remains.map token

theorem remains_plain (g : Goal) : ∀ h ∈ g.remains, h.remains = [] := by
  cases g <;> simp [remains, scopeBody]

end Goal

/-- An agenda can be brought to its end. -/
theorem Runs.completed (gap : Gap s (lines (agenda.flatMap Goal.closing))) :
    Runs agenda s .accepted := by
  induction agenda generalizing s with
  | nil => exact .ending (gap_nil_iff.mp gap)
  | cons g agenda ih =>
    refine .read_token g (reads_lines gap) (qualification_absent_lines _) ?_
    exact .read_tokens g.remains_plain .none fun rest gap => ih gap

theorem after_reference (mem : (.reference, next) ∈ menu agenda) :
    (∃ e later, next = .name e :: later) ∨ ∃ later, next = .mark .openBrace :: later := by
  cases agenda with
  | nil => simp [menu] at mem
  | cons g agenda =>
    cases g with
    | supertype =>
      simp only [menu, Goal.choices, List.map_cons, List.map_nil, List.mem_singleton] at mem
      exact .inr ⟨agenda, (Prod.mk.inj mem).2⟩
    | members | caseMembers =>
      simp [menu, Goal.choices, Goal.memberChoices, Goal.memberEnd, Goal.caseChoices] at mem
      exact .inl ⟨_, _, mem⟩
    | _ =>
      simp [menu, Goal.choices, Goal.itemChoices, Goal.valueChoices, Goal.extendChoices,
        Goal.caseChoices, Goal.declarationChoices] at mem

/-- Behind a reference a name or a brace is still to be read, and so the reference has ended. -/
theorem qualification_absent_of_accepted (mem : (.reference, next) ∈ menu agenda)
    (runs : Runs next s .accepted) : Absent qualification s := by
  rcases after_reference mem with ⟨e, later, rfl⟩ | ⟨later, rfl⟩
  · cases runs with
    | read found =>
      obtain ⟨t, w, mem, spells, reads, -⟩ := firstOf_replay found
      obtain ⟨rfl, -⟩ := Prod.mk.inj (List.mem_singleton.mp mem)
      exact IsIdentifier.qualification_absent spells reads.opens
  · cases runs with
    | read found =>
      obtain ⟨t, w, mem, spells, reads, -⟩ := firstOf_replay found
      obtain ⟨rfl, -⟩ := Prod.mk.inj (List.mem_singleton.mp mem)
      obtain rfl : w = Mark.openBrace.text := spells
      exact reads.opens.qualification_absent (mark_toList _) (by decide)

/-- A token that breaks off is finished with what is missing. -/
theorem Runs.finished (t : Test) (tail : Text) (first : menu agenda = (t, next) :: more)
    (filled : t.half ≠ []) (split : s.skipLayout = t.half ++ stop)
    (spells : t.Spells (.ofList (t.half ++ tail))) :
    ∃ before below, s = before ++ stop ∧ Runs agenda (before ++ below) .accepted ∧
      (before = [] → below.head? = some '\n') := by
  have gap := split ▸ gap_skipLayout s
  obtain ⟨u, rfl⟩ := gap.suffix
  set later := lines (next.flatMap Goal.closing) with closing
  refine ⟨u ++ t.half, tail ++ later, by simp, ?_, by simp [filled]⟩
  have replaces : Replaces (t.half ++ (tail ++ later)) (t.half ++ stop) := .prepend filled
  have gap := gap.swap rfl replaces
  have reads : Reads [.ofList (t.half ++ tail)] (u ++ (t.half ++ (tail ++ later))) later :=
    reads_singleton_iff.mpr ⟨by simpa using gap, .inr (wordEnds_lines _)⟩
  rw [List.append_assoc]
  exact .read_first first spells reads (qualification_absent_lines _) (.completed .none)

/-- Where a run breaks, the text before the place can be completed. -/
theorem Runs.viable (runs : Runs agenda s v) : ∀ stop e, v = .broken stop e →
    ∃ before below, s = before ++ stop ∧ Runs agenda (before ++ below) .accepted ∧
      (before = [] → below.head? = some '\n') := by
  -- by the tokens read; the text behind a token keeps its first character or begins with a line
  -- feed, and so the token ends where it ended
  induction runs with
  | @read agenda s next rest v found _ ih =>
    intro stop e broken
    obtain ⟨before, below, rfl, completed, feed⟩ := ih stop e broken
    obtain ⟨t, w, mem, spells, reads, -, replay⟩ := firstOf_replay found
    obtain ⟨u, rfl⟩ := reads.suffix
    have replaces : Replaces (before ++ below) (before ++ stop) := by
      by_cases start : before = []
      · exact .inr (by simpa [start] using feed start)
      · exact .prepend start
    refine ⟨u ++ before, below, by simp, ?_, fun start => ?_⟩
    · rw [List.append_assoc]
      refine .read (replay _ _ (reads.swap rfl replaces) fun refers => ?_) completed
      exact qualification_absent_of_accepted (refers ▸ mem) completed
    · exact feed (List.append_eq_nil_iff.mp start).2
  | @stuck g agenda s stop stuck =>
    intro stop' e broken
    obtain ⟨rfl, -⟩ := Verdict.broken.inj broken
    rcases stuck_stop stuck with rfl | ⟨split, ⟨e, rfl⟩ | rfl⟩
    · obtain ⟨u, same⟩ := (gap_skipLayout s).suffix
      have gap := (gap_skipLayout s).swap same.symm
        (.inr (rfl : (lines ((g :: agenda).flatMap Goal.closing)).head? = some '\n'))
      exact ⟨u, _, same.symm, .completed gap, fun _ => rfl⟩
    · have zero : IsIntLiteral "-0" := ⟨['-'], '0', [], rfl, .inr rfl, rfl, by simp⟩
      exact Runs.finished .literal ['0'] rfl (by simp [Test.half]) split zero
    · exact Runs.finished (.keyword "scope" (by decide)) [] rfl (by simp [Test.half]) split rfl
  | @trailing s absent filled =>
    intro stop e broken
    obtain ⟨rfl, -⟩ := Verdict.broken.inj broken
    obtain ⟨u, same⟩ := (gap_skipLayout s).suffix
    have gap : Gap (u ++ ['\n']) ['\n'] := (gap_skipLayout s).swap same.symm (.line [] _)
    refine ⟨u, ['\n'], same.symm, .ending (gap_nil_iff.mp (gap.trans ?_)), fun _ => rfl⟩
    exact .unit (.blank (by decide)) .none
  | ending =>
    intro stop e broken
    cases broken

/-- A text is refused no later than where it breaks: some text behind the place at which the scanner
stood would have made a schema of it. -/
theorem parse_viable {source : String} (refused : parse source = .error err) :
    ∃ before stop, source.toList = before ++ stop ∧
      recognize source.toList = .broken stop err.expected ∧
      err = .ofStop source.toList stop err.expected ∧
      ∃ below tree, parse (.ofList (before ++ below)) = .ok tree := by
  obtain ⟨stop, e, runs, rfl⟩ := parse_error_iff.mp refused
  obtain ⟨before, below, same, completed, -⟩ := runs.viable stop e rfl
  refine ⟨before, stop, same, recognize_broken_iff.mpr runs, rfl, below, ?_⟩
  exact parse_of_runs (by rwa [String.toList_ofList])

/-- The number has been begun with its sign. -/
theorem parse_viable_sign :
    let source := "scope a \x7b union u \x7b case - 5:"
    let err : SyntaxError := ⟨⟨1, 28⟩, .caseDiscriminant, .word "5:"⟩
    parse source = .error err ∧ ∃ before stop, source.toList = before ++ stop ∧
      recognize source.toList = .broken stop err.expected ∧
      err = .ofStop source.toList stop err.expected ∧
      ∃ below tree, parse (.ofList (before ++ below)) = .ok tree := by
  intro source err
  have refused : parse source = .error err := by cbv
  exact ⟨refused, parse_viable refused⟩

end SchemaLang.Grammar
