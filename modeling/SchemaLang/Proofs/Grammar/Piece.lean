import SchemaLang.Proofs.Grammar.Attempt
import SchemaLang.Proofs.Grammar.TokenClass
import SchemaLang.Proofs.Text.Gap

/-! Layout and words as repetitions of pieces: runs of blanks and comments make up layout, runs of
letters and digits and single underscores make up words. No piece is empty, and the repetitions come
to the layout that is skipped and to the words that are read. -/
namespace SchemaLang

open Text

/-- A piece of layout in front of a text. A line comment goes up to a line feed or the end of the
text, a block comment up to the first closing mark behind its opening one. -/
inductive LayoutPiece : Text → Text → Prop where
  | blanks : run ≠ [] → (∀ c ∈ run, c ∈ [' ', '\t', '\r', '\n']) → LayoutPiece run rest
  | lineComment : '\n' ∉ body → (∀ c ∈ rest.head?, c = '\n') →
      LayoutPiece ('/' :: '/' :: body) rest
  | blockComment : ¬ ['*', '/'] <:+: body → LayoutPiece ('/' :: '*' :: (body ++ ['*', '/'])) rest

/-- Pieces of layout one behind the other, in front of a text. -/
inductive LayoutPieces : List Text → Text → Prop where
  | nil : LayoutPieces [] rest
  | cons : LayoutPiece piece (pieces.flatten ++ rest) → LayoutPieces pieces rest →
      LayoutPieces (piece :: pieces) rest

theorem isLayoutBlank_iff : isLayoutBlank c = true ↔ c ∈ [' ', '\t', '\r', '\n'] := by
  simp [isLayoutBlank, or_assoc]

theorem LayoutPiece.filled (piece : LayoutPiece u rest) : u ≠ [] := by
  cases piece with
  | blanks filled => exact filled
  | lineComment | blockComment => exact List.cons_ne_nil _ _

theorem gap_blanks {run : Text} (blank : ∀ c ∈ run, isLayoutBlank c = true) :
    Gap (run ++ rest) rest := by
  induction run with
  | nil => exact .none
  | cons c run ih =>
    obtain ⟨first, others⟩ := List.forall_mem_cons.mp blank
    exact .unit (.blank first) (ih others)

theorem LayoutPiece.gap (piece : LayoutPiece u rest) : Gap (u ++ rest) rest := by
  cases piece with
  | blanks _ blank => exact gap_blanks fun c member => isLayoutBlank_iff.mpr (blank c member)
  | lineComment inside stop =>
    exact .unit (.lineComment (fun c member same => inside (same ▸ member)) stop) .none
  | @blockComment body _ clear =>
    have comment : LayoutUnit ('/' :: '*' :: (body ++ '*' :: '/' :: rest)) rest :=
      .blockComment clear
    exact .unit (by simpa using comment) .none

theorem LayoutPieces.gap (pieces : LayoutPieces us rest) : Gap (us.flatten ++ rest) rest := by
  induction pieces with
  | nil => exact .none
  | cons piece _ ih =>
    rw [List.flatten_cons, List.append_assoc]
    exact piece.gap.trans ih

namespace Scan

/-- The longest run of characters of a class. -/
def span (inClass : Char → Bool) : Scan Text :=
  fun s => .found (s.takeWhile inClass) (s.dropWhile inClass)

/-- The same, absent where the run is empty. -/
def span1 (inClass : Char → Bool) : Scan Text :=
  (span inClass).select fun w => if w = [] then none else some w

def lineComment : Scan Text := do
  let opening ← tag "//"
  let body ← span (· ≠ '\n')
  pure (opening ++ body)

/-- Everything up to the end of the first closing mark. -/
def throughCommentEnd : Scan Text := fun s =>
  match afterCommentEnd? s with
  | some rest => .found (s.take (s.length - rest.length)) rest
  | none => .absent s

def blockComment : Scan Text := do
  let opening ← tag "/*"
  let body ← throughCommentEnd
  pure (opening ++ body)

def layoutPiece : Scan Text := span1 isLayoutBlank <|> lineComment <|> blockComment

def wordHead : Scan Text := span1 Char.isAlpha <|> tag "_"

def wordPiece : Scan Text := span1 Char.isAlphanum <|> tag "_"

/-- A word put together from its pieces. -/
def wordOfPieces : Scan Text := do
  let head ← wordHead
  let pieces ← wordPiece.many
  pure (head ++ pieces.flatten)

theorem span_found_iff : span inClass s = .found w rest ↔ LongestRun inClass s w rest := by
  rw [longestRun_iff, span, Outcome.found.injEq]

theorem span1_found_iff : span1 inClass s = .found w rest ↔
    LongestRun inClass s w rest ∧ w ≠ [] := by
  simp only [span1, select_found_iff, span_found_iff, Option.ite_none_left_eq_some,
    Option.some.injEq]
  constructor
  · rintro ⟨_, run, filled, rfl⟩
    exact ⟨run, filled⟩
  · rintro ⟨run, filled⟩
    exact ⟨w, run, filled, rfl⟩

theorem quiet_span (inClass : Char → Bool) : Quiet (span inClass) := by simp [Quiet, span]

theorem quiet_span1 (inClass : Char → Bool) : Quiet (span1 inClass) := (quiet_span inClass).select _

theorem throughCommentEnd_found_iff : throughCommentEnd s = .found w rest ↔
    ∃ body, w = body ++ ['*', '/'] ∧ s = w ++ rest ∧ ¬ ['*', '/'] <:+: body := by
  have cut (u rest : Text) : (u ++ rest).take ((u ++ rest).length - rest.length) = u := by
    rw [List.length_append, Nat.add_sub_cancel, List.take_left]
  have closing (body rest : Text) :
      body ++ '*' :: '/' :: rest = (body ++ ['*', '/']) ++ rest := by simp
  unfold throughCommentEnd
  constructor
  · intro found
    split at found
    · rename_i after closed
      obtain ⟨body, rfl, clear⟩ := afterCommentEnd?_eq_some_iff.mp closed
      rw [closing, cut] at found
      obtain ⟨rfl, rfl⟩ := Outcome.found.inj found
      exact ⟨body, rfl, closing body _, clear⟩
    · cases found
  · rintro ⟨body, rfl, rfl, clear⟩
    have closed : afterCommentEnd? (body ++ ['*', '/'] ++ rest) = some rest :=
      afterCommentEnd?_eq_some_iff.mpr ⟨body, (closing body rest).symm, clear⟩
    simp only [closed, cut]

theorem quiet_throughCommentEnd : Quiet throughCommentEnd := by
  intro s stop e
  unfold throughCommentEnd
  split <;> simp

theorem quiet_layoutPiece : Quiet layoutPiece :=
  (quiet_span1 _).orElse <| Quiet.orElse
    ((quiet_tag "//").bind fun _ => (quiet_span _).bind fun _ => quiet_pure _)
    ((quiet_tag "/*").bind fun _ => quiet_throughCommentEnd.bind fun _ => quiet_pure _)

theorem quiet_wordPiece : Quiet wordPiece := (quiet_span1 _).orElse (quiet_tag "_")

theorem lineComment_found_iff : lineComment s = .found u rest ↔
    ∃ body, u = '/' :: '/' :: body ∧ s = u ++ rest ∧ '\n' ∉ body ∧
      ∀ c ∈ rest.head?, c = '\n' := by
  simp only [lineComment, bind_found_iff, tag_found_iff, span_found_iff, pure_found_iff]
  constructor
  · rintro ⟨_, _, ⟨rfl, rfl⟩, body, _, ⟨rfl, inside, stop⟩, rfl, rfl⟩
    refine ⟨body, rfl, rfl, fun member => ?_, fun c head => ?_⟩
    · simpa using inside _ member
    · simpa using stop c head
  · rintro ⟨body, rfl, rfl, inside, stop⟩
    refine ⟨_, body ++ rest, ⟨rfl, rfl⟩, body, rest, ⟨rfl, fun c member => ?_, fun c head => ?_⟩,
      rfl, rfl⟩
    · simpa using fun same : c = '\n' => inside (same ▸ member)
    · simpa using stop c head

theorem blockComment_found_iff : blockComment s = .found u rest ↔
    ∃ body, u = '/' :: '*' :: (body ++ ['*', '/']) ∧ s = u ++ rest ∧
      ¬ ['*', '/'] <:+: body := by
  simp only [blockComment, bind_found_iff, tag_found_iff, throughCommentEnd_found_iff,
    pure_found_iff]
  constructor
  · rintro ⟨_, _, ⟨rfl, rfl⟩, _, _, ⟨body, rfl, rfl, clear⟩, rfl, rfl⟩
    exact ⟨body, rfl, rfl, clear⟩
  · rintro ⟨body, rfl, rfl, clear⟩
    exact ⟨_, _, ⟨rfl, rfl⟩, _, _, ⟨body, rfl, rfl, clear⟩, rfl, rfl⟩

/-- A piece that is found is a piece of layout, and it stands in front of the rest. -/
theorem layoutPiece_found (found : layoutPiece s = .found u rest) :
    s = u ++ rest ∧ LayoutPiece u rest := by
  simp only [layoutPiece, orElse_found_iff, span1_found_iff, lineComment_found_iff,
    blockComment_found_iff] at found
  rcases found with ⟨run, filled⟩ | ⟨-, line | ⟨-, block⟩⟩
  · exact ⟨run.split, .blanks filled fun c member => isLayoutBlank_iff.mp (run.inside c member)⟩
  · obtain ⟨body, rfl, split, inside, stop⟩ := line
    exact ⟨split, .lineComment inside stop⟩
  · obtain ⟨body, rfl, split, clear⟩ := block
    exact ⟨split, .blockComment clear⟩

/-- Where no piece is found no layout begins. -/
theorem solid_of_layoutPiece_absent (absent : Absent layoutPiece s) :
    afterLayoutUnit? s = none := by
  obtain ⟨noBlanks, absent⟩ := orElse_absent_cases absent
  obtain ⟨noLine, noBlock⟩ := orElse_absent_cases absent
  cases skipped : afterLayoutUnit? s with
  | none => rfl
  | some rest =>
    cases LayoutUnit.of_skipped skipped with
    | @blank c _ blank =>
      refine absurd (span1_found_iff.mpr ⟨longestRun isLayoutBlank _, ?_⟩) noBlanks.not_found
      simp [blank]
    | @lineComment body _ inside stop =>
      refine absurd (lineComment_found_iff.mpr ⟨body, rfl, rfl, ?_, stop⟩) noLine.not_found
      exact fun member => inside _ member rfl
    | @blockComment body _ clear =>
      have split : '/' :: '*' :: (body ++ '*' :: '/' :: rest) =
          '/' :: '*' :: (body ++ ['*', '/']) ++ rest := by simp
      exact absurd (blockComment_found_iff.mpr ⟨body, rfl, split, clear⟩) noBlock.not_found

theorem layoutPiece_consumes : Consumes layoutPiece :=
  consumes_of_split fun _ _ _ found =>
    have ⟨split, piece⟩ := layoutPiece_found found
    ⟨split, piece.filled⟩

theorem Repeats.layoutPieces (repeats : Repeats layoutPiece s pieces rest) :
    s = pieces.flatten ++ rest ∧ LayoutPieces pieces rest ∧ rest = s.skipLayout := by
  induction repeats with
  | @stop s absent =>
    exact ⟨rfl, .nil, (skipLayout_of_no_unit (solid_of_layoutPiece_absent absent)).symm⟩
  | next found _ _ ih =>
    obtain ⟨rfl, piece⟩ := layoutPiece_found found
    obtain ⟨rfl, pieces, skipped⟩ := ih
    exact ⟨by simp, .cons piece pieces, skipped.trans (skipLayout_gap piece.gap).symm⟩

/-- The repetition of the pieces never fails, and it comes to what is behind the layout. -/
theorem many_layoutPiece (s : Text) : ∃ pieces, layoutPiece.many s = .found pieces s.skipLayout ∧
    s = pieces.flatten ++ s.skipLayout ∧ LayoutPieces pieces s.skipLayout := by
  obtain ⟨pieces, rest, repeats⟩ := exists_repeats quiet_layoutPiece layoutPiece_consumes.progress s
  obtain ⟨split, layout, rfl⟩ := repeats.layoutPieces
  exact ⟨pieces, repeats.many_found, split, layout⟩

theorem headOrUnderscore_found (found : (span1 inClass <|> tag "_") s = .found w rest) :
    s = w ++ rest ∧ ∃ c run, w = c :: run ∧ (inClass c = true ∨ c = '_') ∧
      ∀ d ∈ run, inClass d = true := by
  simp only [orElse_found_iff, span1_found_iff, tag_found_iff] at found
  rcases found with ⟨longest, filled⟩ | ⟨-, rfl, rfl⟩
  · obtain ⟨c, run, rfl⟩ := List.exists_cons_of_ne_nil filled
    obtain ⟨first, inside⟩ := List.forall_mem_cons.mp longest.inside
    exact ⟨longest.split, c, run, rfl, .inl first, inside⟩
  · exact ⟨rfl, '_', [], rfl, .inr rfl, by simp⟩

theorem headOrUnderscore_absent (absent : Absent (span1 inClass <|> tag "_") s) :
    ∀ c ∈ s.head?, ¬ (inClass c = true ∨ c = '_') := by
  obtain ⟨noRun, noUnderscore⟩ := orElse_absent_cases absent
  intro c head
  obtain ⟨s, rfl⟩ := List.head?_eq_some_iff.mp head
  rintro (inRun | rfl)
  · refine absurd (span1_found_iff.mpr ⟨longestRun inClass _, ?_⟩) noRun.not_found
    simp [inRun]
  · exact absurd (tag_found_iff.mpr ⟨rfl, rfl⟩) noUnderscore.not_found

theorem wordPiece_found (found : wordPiece s = .found w rest) :
    s = w ++ rest ∧ w ≠ [] ∧ ∀ c ∈ w, isWordChar c = true := by
  obtain ⟨rfl, c, run, rfl, first, inside⟩ := headOrUnderscore_found found
  refine ⟨rfl, List.cons_ne_nil c run, List.forall_mem_cons.mpr ⟨?_, fun d member => ?_⟩⟩
  · simpa [isWordChar] using first
  · simp [isWordChar, inside d member]

theorem wordPiece_consumes : Consumes wordPiece :=
  consumes_of_split fun _ _ _ found =>
    have ⟨split, filled, _⟩ := wordPiece_found found
    ⟨split, filled⟩

theorem Repeats.wordPieces (repeats : Repeats wordPiece s pieces rest) :
    LongestRun isWordChar s pieces.flatten rest := by
  induction repeats with
  | stop absent =>
    refine ⟨rfl, by simp, fun c head => ?_⟩
    simpa [isWordChar] using headOrUnderscore_absent absent c head
  | next found _ _ ih =>
    obtain ⟨rfl, -, inside⟩ := wordPiece_found found
    rw [List.flatten_cons]
    exact ih.prepend inside

theorem wordHead_found (found : wordHead s = .found w rest) :
    s = w ++ rest ∧ ∃ c run, w = c :: run ∧ isWordStart c = true ∧
      ∀ d ∈ run, isWordChar d = true := by
  obtain ⟨split, c, run, rfl, first, inside⟩ := headOrUnderscore_found found
  refine ⟨split, c, run, rfl, by simpa [isWordStart] using first, fun d member => ?_⟩
  simp [isWordChar, Char.isAlphanum, inside d member]

theorem wordHead_absent (absent : wordHead s = .absent stop) :
    stop = s ∧ ∀ c ∈ s.head?, isWordStart c = false := by
  refine ⟨(AbsentAtStart.tag "_").orElse absent, fun c head => ?_⟩
  simpa [isWordStart] using headOrUnderscore_absent ⟨stop, absent⟩ c head

theorem quiet_wordHead : Quiet wordHead := (quiet_span1 _).orElse (quiet_tag "_")

/-- Put together from its pieces a word is what it is when it is read in one go. -/
theorem wordOfPieces_eq : wordOfPieces = word := by
  funext s
  cases head : wordHead s with
  | found w middle =>
    obtain ⟨rfl, c, run, rfl, start, inside⟩ := wordHead_found head
    obtain ⟨pieces, rest, repeats⟩ :=
      exists_repeats quiet_wordPiece wordPiece_consumes.progress middle
    have longest := repeats.wordPieces.prepend inside
    have whole : wordOfPieces (c :: run ++ middle) =
        .found (c :: run ++ pieces.flatten) rest := by
      simp only [wordOfPieces, bind_found_iff, pure_found_iff]
      exact ⟨_, middle, head, pieces, rest, repeats.many_found, rfl, rfl⟩
    refine whole.trans (word_found_iff.mpr ⟨?_, ?_, longest.longest⟩).symm
    · exact congrArg (c :: ·) longest.split
    · exact ⟨c, run ++ pieces.flatten, by simp, start, longest.inside⟩
  | absent stop =>
    obtain ⟨rfl, other⟩ := wordHead_absent head
    have missing : wordOfPieces stop = .absent stop := by
      rw [wordOfPieces, bind_apply, head]
    cases stop with
    | nil => exact missing
    | cons c s => rw [missing, word, if_neg (by simp [other c rfl])]
  | broken stop e => exact absurd head (quiet_wordHead s stop e)

end Scan
end SchemaLang
