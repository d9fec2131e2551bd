import SchemaLang.Proofs.Grammar.Agenda
import SchemaLang.Proofs.Grammar.Attempt
import SchemaLang.Proofs.Grammar.Parallel

/-! What a test sees of a text. Whether it finds its token is decided by the first run of characters
behind the layout, so that texts which begin with the same run answer every test alike. -/
namespace SchemaLang.Grammar

open Scan Text

theorem Reader.unnamed_found_iff {p : Scan (Token Text)} (reader : Reader p kind follow)
    {u : Unit} :
    ((fun _ => ()) <$> p) s = .found u rest ↔ ∃ w, kind w ∧ Reads [w] s rest ∧ follow rest := by
  simp only [map_found_iff, reader.found_iff, and_true]
  constructor
  · rintro ⟨t, spelled, reads, free, -⟩
    exact ⟨t.text, spelled, reads, free⟩
  · rintro ⟨w, spelled, reads, free⟩
    exact ⟨⟨w, s.skipLayout⟩, spelled, reads, free, rfl⟩

namespace Test

/-- The tokens that a test accepts. -/
def Spells : Test → String → Prop
  | keyword w _ => (· = w)
  | mark m => (· = m.text)
  | name => IsIdentifier
  | literal => IsIntLiteral
  | reference => IsScopedName
  | word => IsWord
  | primitive => fun w => ∃ kind : Primitive, kind ≠ .octets ∧ w = kind.keyword

variable {t : Test} {w : String} {s rest : Text} {u : Unit}

theorem Spells.mark_or_lexeme (spells : t.Spells w) : (∃ m, w = Mark.text m) ∨ IsLexeme w := by
  cases t with
  | keyword v reserved =>
    obtain rfl : w = v := spells
    exact .inr (isWord_reserved reserved).isLexeme
  | mark m => exact .inl ⟨m, spells⟩
  | name => exact .inr (name_reader.isLexeme spells)
  | literal => exact .inr (literal_reader.isLexeme spells)
  | reference => exact .inr (reference_reader.isLexeme spells)
  | word => exact .inr (word_reader.isLexeme spells)
  | primitive =>
    obtain ⟨kind, -, rfl⟩ := spells
    exact .inr (isWord_keyword kind).isLexeme

/-- A test reads one token. A reference also takes every further step that stands behind it. -/
theorem scan_found_iff : t.scan s = .found u rest ↔
    ∃ w, t.Spells w ∧ Reads [w] s rest ∧ (t = reference → Absent qualification rest) := by
  cases t with
  | keyword v reserved => simp [scan, keyword_found_iff reserved, Spells]
  | mark m => simp [scan, mark_found_iff, Spells]
  | name => simp [scan, name_reader.unnamed_found_iff, Spells]
  | literal => simp [scan, literal_reader.unnamed_found_iff, Spells]
  | reference => simp [scan, reference_reader.unnamed_found_iff, Spells]
  | word => simp [scan, word_reader.unnamed_found_iff, Spells]
  | primitive =>
    simp only [scan, map_found_iff, primitiveType_found_iff, Spells, reduceCtorEq, false_implies,
      and_true]
    constructor
    · rintro ⟨_, kind, -, plain, reads⟩
      exact ⟨kind.keyword, ⟨kind, plain, rfl⟩, reads⟩
    · rintro ⟨_, ⟨kind, plain, rfl⟩, reads⟩
      exact ⟨_, kind, rfl, plain, reads⟩

theorem Spells.filled (spells : t.Spells w) : w ≠ "" := by
  rintro rfl
  rcases spells.mark_or_lexeme with ⟨m, same⟩ | ⟨c, run, same, -⟩
  · have chars := mark_toList m
    rw [← same] at chars
    cases chars
  · cases same

theorem progress (t : Test) : Progress t.scan := by
  intro s u rest found
  obtain ⟨w, spells, reads, -⟩ := scan_found_iff.mp found
  exact reads.length_lt (List.mem_singleton_self w) spells.filled

end Test

/-- The first run of a text: a word, a number or a single character. -/
def glimpse : Text → Text
  | [] => []
  | c :: s => if isWordChar c || c = '-' then c :: s.takeWhile isWordChar else [c]

theorem takeWhile_wordEnds (ends : WordEnds rest) (w : Text) :
    (w ++ rest).takeWhile isWordChar = w.takeWhile isWordChar := by
  induction w with
  | nil => cases rest <;> simp_all
  | cons c w ih => simp only [List.cons_append, List.takeWhile_cons, ih]

/-- Nothing behind the end of a word is seen. -/
theorem glimpse_append (filled : w ≠ []) (ends : WordEnds rest) :
    glimpse (w ++ rest) = glimpse w := by
  cases w with
  | nil => exact absurd rfl filled
  | cons c w => simp only [List.cons_append, glimpse, takeWhile_wordEnds ends]

/-- Nothing behind the token that is read is seen. -/
theorem glimpse_reads (shape : (∃ m, w = Mark.text m) ∨ IsLexeme w) (reads : Reads [w] s rest) :
    glimpse s.skipLayout = glimpse w.toList := by
  rcases shape with ⟨m, rfl⟩ | isLexeme
  · rw [reads_mark_iff.mp reads, mark_toList]
    cases m <;> rfl
  · obtain ⟨same, ends⟩ := isLexeme.reads_iff.mp reads
    obtain ⟨c, run, spelled, -⟩ := isLexeme
    rw [same, glimpse_append (by simp [spelled]) ends]

/-- A text is its first run and a rest, in which a word or number does not go on. -/
theorem glimpse_split (s : Text) : ∃ rest, s = glimpse s ++ rest ∧
    (IsLexeme (.ofList (glimpse s)) → WordEnds rest) := by
  cases s with
  | nil => exact ⟨[], rfl, fun _ => wordEnds_nil⟩
  | cons c s =>
    by_cases goes : (isWordChar c || c = '-') = true
    · refine ⟨s.dropWhile isWordChar, by simp [glimpse, goes], fun _ d head => ?_⟩
      have stop := List.head?_dropWhile_not isWordChar s
      rw [Option.mem_def.mp head] at stop
      simpa using stop
    · refine ⟨s, by simp [glimpse, goes], fun isLexeme => absurd ?_ goes⟩
      obtain ⟨d, run, same, start⟩ := isLexeme
      obtain ⟨rfl, -⟩ : c = d ∧ run = [] := by simpa [glimpse, goes, eq_comm] using same
      simpa using start

theorem glimpse_word (isWord : IsWord w) : glimpse w.toList = w.toList := by
  obtain ⟨c, run, same, start, inside⟩ := isWord
  have whole : run.takeWhile isWordChar = run := List.takeWhile_eq_self_iff.mpr inside
  simp [same, glimpse, isWordChar_of_start start, whole]

theorem glimpse_number (number : IsIntLiteral w) : glimpse w.toList = w.toList := by
  obtain ⟨sign, c, run, same, rfl | rfl, digit, inside⟩ := number
  · have whole : run.takeWhile isWordChar = run := List.takeWhile_eq_self_iff.mpr inside
    simp [same, glimpse, isWordChar_of_digit digit, whole]
  · have whole : run.takeWhile isWordChar = run := List.takeWhile_eq_self_iff.mpr inside
    simp [same, glimpse, isWordChar_of_digit digit, whole]

/-- Of a scoped name the first step is seen. -/
theorem glimpse_reference (chained : IsScopedName w) :
    IsIdentifier (.ofList (glimpse w.toList)) := by
  cases chained with
  | name named =>
    rw [glimpse_word named.1, String.ofList_toList]
    exact named
  | @qualified first separator others named joins =>
    obtain ⟨c, run, same, -⟩ := named.1
    have ends := wordEnds_separator joins others.toList
    rw [String.append_assoc, String.toList_append, String.toList_append,
      glimpse_append (by simp [same]) ends, glimpse_word named.1, String.ofList_toList]
    exact named

theorem reference_of_name (named : IsIdentifier w) (reads : Reads [w] s rest) :
    ∃ t rest', reference s = .found t rest' := by
  obtain ⟨same, ends⟩ := named.1.isLexeme.reads_iff.mp reads
  obtain ⟨others, rest', repeats⟩ := exists_repeats quiet_qualification qualification_progress rest
  have found := identifier_found named ends
  rw [← same] at found
  refine ⟨⟨.ofList (w.toList ++ others.flatten), s.skipLayout⟩, rest', ?_⟩
  refine token_found_iff.mpr ⟨?_, rfl⟩
  exact scopedName_found_iff_repeats.mpr ⟨_, _, _, found, repeats, by simp⟩

namespace AbsentAtStart

theorem word : AbsentAtStart Scan.word := by
  intro s stop absent
  cases s with
  | nil => simpa [Scan.word, eq_comm] using absent
  | cons c s =>
    by_cases start : isWordStart c = true
    · simp [Scan.word, start] at absent
    · simpa [Scan.word, start, eq_comm] using absent

theorem digits : AbsentAtStart Scan.digits := by
  intro s stop absent
  cases s with
  | nil => simpa [Scan.digits, eq_comm] using absent
  | cons c s =>
    by_cases digit : c.isDigit = true
    · simp [Scan.digits, digit] at absent
    · simpa [Scan.digits, digit, eq_comm] using absent

theorem boundary : AbsentAtStart Scan.boundary := by
  intro s stop absent
  cases s with
  | nil => simp [Scan.boundary] at absent
  | cons c s =>
    by_cases inWord : isWordChar c = true
    · simpa [Scan.boundary, inWord, eq_comm] using absent
    · simp [Scan.boundary, inWord] at absent

theorem scopedName : AbsentAtStart Scan.scopedName := by
  apply (word.select _).bind
  intro first s absent
  obtain ⟨others, rest, repeats⟩ := exists_repeats quiet_qualification qualification_progress s
  refine absent.not_found (bind_found_iff.mpr ⟨others, rest, ?_, rfl⟩)
  exact (many_found_iff qualification_progress).mpr repeats

end AbsentAtStart

theorem map_absent_stop {p : Scan α} {f : α → β} (absent : (f <$> p) s = .absent stop) :
    p s = .absent stop := by
  rw [map_eq, bind_apply] at absent
  cases same : p s <;> simp_all [pure_apply]

theorem placed_absent_stop {p : Scan α} (absent : placed p s = .absent stop) :
    p s.skipLayout = .absent stop := by
  simp only [placed, bind_apply, layout, here] at absent
  cases same : p s.skipLayout <;> simp_all [pure_apply]

namespace Test

variable {t : Test} {w : String} {s s' rest : Text}

/-- A reference is seen by its first step. -/
def first : Test → Test
  | reference => name
  | t => t

theorem Spells.first (spells : t.Spells w) : t.first.Spells (.ofList (glimpse w.toList)) := by
  cases t with
  | keyword v reserved =>
    obtain rfl : w = v := spells
    rw [glimpse_word (isWord_reserved reserved), String.ofList_toList]
    rfl
  | mark m =>
    obtain rfl : w = m.text := spells
    rw [mark_toList]
    cases m <;> rfl
  | name =>
    rw [glimpse_word (And.left spells), String.ofList_toList]
    exact spells
  | literal =>
    rw [glimpse_number spells, String.ofList_toList]
    exact spells
  | reference => exact glimpse_reference spells
  | word =>
    rw [glimpse_word spells, String.ofList_toList]
    exact spells
  | primitive =>
    obtain ⟨kind, plain, rfl⟩ := spells
    rw [glimpse_word (isWord_keyword kind), String.ofList_toList]
    exact ⟨kind, plain, rfl⟩

/-- Whether a test finds its token is seen at the first run. -/
theorem scan_absent_iff :
    Absent t.scan s ↔ ¬ t.first.Spells (.ofList (glimpse s.skipLayout)) := by
  constructor
  · intro absent sees
    obtain ⟨rest, same, ends⟩ := glimpse_split s.skipLayout
    have reads : Reads [.ofList (glimpse s.skipLayout)] s rest := by
      rcases sees.mark_or_lexeme with ⟨m, marked⟩ | isLexeme
      · rw [marked, reads_mark_iff]
        have chars := congrArg String.toList marked
        rw [String.toList_ofList, mark_toList] at chars
        rwa [chars] at same
      · exact isLexeme.reads_iff.mpr ⟨by simpa using same, ends isLexeme⟩
    by_cases refers : t = reference
    · subst refers
      obtain ⟨r, rest', found⟩ := reference_of_name sees reads
      exact absent.not_found (map_found _ found)
    · have spells : t.Spells (.ofList (glimpse s.skipLayout)) := by
        cases t <;> first | exact sees | exact absurd rfl refers
      have found : t.scan s = .found () rest :=
        scan_found_iff.mpr ⟨_, spells, reads, fun same => absurd same refers⟩
      exact absent.not_found found
  · intro unseen
    refine t.quiet.absent fun _ rest found => unseen ?_
    obtain ⟨w, spells, reads, -⟩ := scan_found_iff.mp found
    exact glimpse_reads spells.mark_or_lexeme reads ▸ spells.first

theorem scan_absent_congr (alike : glimpse s.skipLayout = glimpse s'.skipLayout) :
    Absent t.scan s ↔ Absent t.scan s' := by
  rw [scan_absent_iff, scan_absent_iff, alike]

theorem intLiteral_absent_stop (absent : intLiteral s = .absent stop) :
    stop = (['-'].isPrefixOf? s).getD s := by
  have run {text after stop : Text} (absent : (digits >>= fun run => pure (text ++ run)) after =
      .absent stop) : stop = after :=
    AbsentAtStart.digits.bind (fun _ _ ⟨_, never⟩ => by cases never) absent
  have sign : "-".toList = ['-'] := rfl
  simp only [intLiteral, bind_apply (maybe _), maybe, tag, sign] at absent
  cases cut : ['-'].isPrefixOf? s with
  | none =>
    simp only [cut] at absent
    exact run absent
  | some rest =>
    simp only [cut] at absent
    exact run absent

/-- What a test can have read of a token when it finds the rest missing. -/
def half : Test → Text
  | keyword w _ => w.toList
  | literal => ['-']
  | _ => []

/-- The place from which a token is missing. -/
def breaksAt (t : Test) (place : Text) : Text := (t.half.isPrefixOf? place).getD place

theorem scan_absent_stop (absent : t.scan s = .absent stop) : stop = t.breaksAt s.skipLayout := by
  cases t with
  | keyword v reserved =>
    simp only [scan, Scan.keyword, bind_apply, layout, tag] at absent
    unfold breaksAt half
    cases cut : v.toList.isPrefixOf? s.skipLayout with
    | none => simpa [cut, eq_comm] using absent
    | some rest =>
      simp only [cut] at absent
      exact AbsentAtStart.boundary absent
  | mark m =>
    simp only [scan, Scan.mark, symbol, bind_apply, layout, tag] at absent
    cases cut : m.text.toList.isPrefixOf? s.skipLayout with
    | none =>
      simp only [cut] at absent
      exact (Outcome.absent.inj absent).symm
    | some rest =>
      simp only [cut] at absent
      cases absent
  | name =>
    have missing := placed_absent_stop (map_absent_stop (map_absent_stop absent))
    exact AbsentAtStart.word.select _ missing
  | literal =>
    exact intLiteral_absent_stop (placed_absent_stop (map_absent_stop (map_absent_stop absent)))
  | reference =>
    have missing := placed_absent_stop (map_absent_stop (map_absent_stop absent))
    exact AbsentAtStart.scopedName missing
  | word => exact AbsentAtStart.word (placed_absent_stop (map_absent_stop (map_absent_stop absent)))
  | primitive =>
    have missing := placed_absent_stop (map_absent_stop (map_absent_stop absent))
    exact AbsentAtStart.word.select _ missing

end Test
end SchemaLang.Grammar
