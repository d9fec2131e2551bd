import SchemaLang.Grammar.Lexeme
import SchemaLang.Primitive
import SchemaLang.Proofs.Grammar.Outcome

/-! The classes of tokens that the grammar names, and the lexeme recognizers as exact and
maximal readers of them: the token is a prefix in its class, and nothing that could go on with
it follows. -/
namespace SchemaLang

/-- `[A-Za-z_][A-Za-z0-9_]*` -/
def IsWord (t : String) : Prop :=
  ∃ c run, t.toList = c :: run ∧ isWordStart c = true ∧ ∀ d ∈ run, isWordChar d = true

/-- A word that can name something. -/
def IsIdentifier (t : String) : Prop := IsWord t ∧ t ∉ reservedWords

/-- Identifiers joined by `::` or `.`. -/
inductive IsScopedName : String → Prop where
  | name : IsIdentifier t → IsScopedName t
  | qualified : IsIdentifier t → separator = "::" ∨ separator = "." → IsScopedName u →
      IsScopedName (t ++ separator ++ u)

/-- `-?[0-9][0-9A-Za-z_]*` -/
def IsIntLiteral (t : String) : Prop :=
  ∃ sign c run, t.toList = sign ++ c :: run ∧ (sign = [] ∨ sign = ['-']) ∧ c.isDigit = true ∧
    ∀ d ∈ run, isWordChar d = true

/-- No word goes on at the start of the text. -/
def WordEnds (s : Text) : Prop := ∀ c ∈ s.head?, isWordChar c = false

@[simp] theorem wordEnds_nil : WordEnds [] := by simp [WordEnds]

@[simp] theorem wordEnds_cons : WordEnds (c :: s) ↔ isWordChar c = false := by simp [WordEnds]

/-- The longest run of characters of a class in front of a text, and what follows it. -/
structure LongestRun (inClass : Char → Bool) (s run rest : Text) : Prop where
  split : s = run ++ rest
  inside : ∀ c ∈ run, inClass c = true
  longest : ∀ c ∈ rest.head?, inClass c = false

theorem longestRun (inClass : Char → Bool) (s : Text) :
    LongestRun inClass s (s.takeWhile inClass) (s.dropWhile inClass) := by
  refine ⟨List.takeWhile_append_dropWhile.symm, List.all_eq_true.mp List.all_takeWhile, ?_⟩
  intro c head
  have stop := List.head?_dropWhile_not inClass s
  rw [Option.mem_def.mp head] at stop
  simpa using stop

theorem longestRun_iff {inClass : Char → Bool} {s run rest : Text} :
    LongestRun inClass s run rest ↔ s.takeWhile inClass = run ∧ s.dropWhile inClass = rest := by
  constructor
  · rintro ⟨rfl, inside, longest⟩
    have ends : rest.takeWhile inClass = [] ∧ rest.dropWhile inClass = rest := by
      cases rest with
      | nil => exact ⟨rfl, rfl⟩
      | cons c rest => simp [longest c rfl]
    rw [List.takeWhile_append_of_pos inside, List.dropWhile_append_of_pos inside, ends.1, ends.2]
    exact ⟨List.append_nil run, rfl⟩
  · rintro ⟨rfl, rfl⟩
    exact longestRun inClass s

theorem LongestRun.prepend (longest : LongestRun inClass s run rest)
    (inside : ∀ c ∈ w, inClass c = true) : LongestRun inClass (w ++ s) (w ++ run) rest := by
  obtain ⟨rfl, others, stop⟩ := longest
  refine ⟨(List.append_assoc w run rest).symm, fun c member => ?_, stop⟩
  rcases List.mem_append.mp member with member | member
  · exact inside c member
  · exact others c member

theorem isWordChar_of_start (start : isWordStart c = true) : isWordChar c = true := by
  simp only [isWordStart, isWordChar, Char.isAlphanum, Bool.or_eq_true] at start ⊢
  exact start.imp_left .inl

theorem isWordChar_of_digit (digit : c.isDigit = true) : isWordChar c = true := by
  simp [isWordChar, Char.isAlphanum, digit]

theorem not_digit_of_start (start : isWordStart c = true) : c.isDigit = false := by
  simp only [isWordStart, Char.isAlpha, Char.isUpper, Char.isLower, Char.isDigit, Bool.or_eq_true,
    Bool.and_eq_true, decide_eq_true_eq, Bool.and_eq_false_iff, decide_eq_false_iff_not,
    UInt32.le_iff_toNat_le, GE.ge] at start ⊢
  rcases start with (⟨low, -⟩ | ⟨low, -⟩) | rfl
  · right; simp at low ⊢; omega
  · right; simp at low ⊢; omega
  · decide

theorem isWord_reserved (reserved : w ∈ reservedWords) : IsWord w := by
  simp only [reservedWords, List.mem_cons, List.not_mem_nil, or_false] at reserved
  rcases reserved with rfl | rfl | rfl | rfl | rfl | rfl | rfl | rfl | rfl | rfl | rfl | rfl |
    rfl | rfl | rfl | rfl | rfl | rfl
  all_goals exact ⟨_, _, rfl, by decide, List.all_eq_true.mp (by decide)⟩

/-- The names of the built-in types name nothing else. -/
theorem keyword_reserved (p : Primitive) : p.keyword ∈ reservedWords := by
  cases p <;> decide

theorem isWord_keyword (p : Primitive) : IsWord p.keyword := isWord_reserved (keyword_reserved p)

/-- Words, names and numbers, told from marks and layout by their first character. -/
def IsLexeme (t : String) : Prop :=
  ∃ c run, t.toList = c :: run ∧ (isWordChar c = true ∨ c = '-')

theorem IsWord.isLexeme (isWord : IsWord t) : IsLexeme t := by
  obtain ⟨c, run, same, start, _⟩ := isWord
  exact ⟨c, run, same, .inl (isWordChar_of_start start)⟩

theorem IsScopedName.isLexeme (chained : IsScopedName t) : IsLexeme t := by
  cases chained with
  | name named => exact IsWord.isLexeme named.1
  | qualified named =>
    obtain ⟨c, run, same, start⟩ := IsWord.isLexeme named.1
    exact ⟨c, run ++ _, by simp [same]; rfl, start⟩

theorem IsIntLiteral.isLexeme (number : IsIntLiteral t) : IsLexeme t := by
  obtain ⟨sign, c, run, same, rfl | rfl, digit, _⟩ := number
  · exact ⟨c, run, same, .inl (isWordChar_of_digit digit)⟩
  · exact ⟨'-', c :: run, same, .inr rfl⟩

theorem IsWord.wordChars (isWord : IsWord t) : ∀ c ∈ t.toList, isWordChar c = true := by
  obtain ⟨c, run, same, start, word⟩ := isWord
  rw [same]
  exact List.forall_mem_cons.mpr ⟨isWordChar_of_start start, word⟩

/-- The characters of words, references and numbers. -/
def isTokenChar (c : Char) : Bool := isWordChar c || c = ':' || c = '.' || c = '-'

/-- A text without layout and marks. -/
def Compact (t : String) : Prop := ∀ c ∈ t.toList, isTokenChar c = true

instance : Decidable (Compact t) := decidable_of_iff (t.toList.all isTokenChar) List.all_eq_true

theorem isTokenChar_of_word (word : isWordChar c = true) : isTokenChar c = true := by
  simp [isTokenChar, word]

theorem IsWord.compact (isWord : IsWord t) : Compact t :=
  fun c mem => isTokenChar_of_word (IsWord.wordChars isWord c mem)

theorem IsScopedName.compact (reference : IsScopedName t) : Compact t := by
  induction reference with
  | name named => exact IsWord.compact named.1
  | qualified named separated _ ih =>
    intro c mem
    simp only [String.toList_append, List.mem_append] at mem
    rcases mem with (mem | mem) | mem
    · exact IsWord.compact named.1 c mem
    · rcases separated with rfl | rfl
      · exact (by decide : Compact "::") c mem
      · exact (by decide : Compact ".") c mem
    · exact ih c mem

theorem IsIntLiteral.compact (number : IsIntLiteral t) : Compact t := by
  obtain ⟨sign, d, run, same, optional, digit, word⟩ := number
  intro c mem
  rw [same] at mem
  rcases List.mem_append.mp mem with mem | mem
  · rcases optional with rfl | rfl
    · cases mem
    · obtain rfl := List.mem_singleton.mp mem
      decide
  · rcases List.mem_cons.mp mem with rfl | mem
    · exact isTokenChar_of_word (isWordChar_of_digit digit)
    · exact isTokenChar_of_word (word c mem)

theorem compact_keyword (kind : Primitive) : Compact kind.keyword :=
  IsWord.compact (isWord_keyword kind)

namespace Scan

theorem isReserved_iff : isReserved w = false ↔ String.ofList w ∉ reservedWords := by
  simp [isReserved]

/-- A first character and the whole run after it, as a prefix that the rest cannot extend. -/
theorem headedRun_iff {start : Char → Bool} {tail w rest : Text} :
    (start c = true ∧ c :: tail.takeWhile isWordChar = w ∧ tail.dropWhile isWordChar = rest) ↔
    c :: tail = w ++ rest ∧
      (∃ d run, w = d :: run ∧ start d = true ∧ ∀ e ∈ run, isWordChar e = true) ∧
      WordEnds rest := by
  constructor
  · rintro ⟨first, rfl, rfl⟩
    have run := longestRun isWordChar tail
    exact ⟨congrArg (c :: ·) run.split, ⟨c, _, rfl, first, run.inside⟩, run.longest⟩
  · rintro ⟨same, ⟨d, run, rfl, first, inside⟩, stop⟩
    obtain ⟨rfl, split⟩ := List.cons.inj same
    obtain ⟨rfl, rfl⟩ := longestRun_iff.mp ⟨split, inside, stop⟩
    exact ⟨first, rfl, rfl⟩

theorem word_found_iff : word s = .found w rest ↔
    s = w ++ rest ∧ IsWord (.ofList w) ∧ WordEnds rest := by
  simp only [IsWord, String.toList_ofList]
  cases s with
  | nil =>
    simp only [word, reduceCtorEq, false_iff]
    rintro ⟨same, ⟨c, run, rfl, _⟩, _⟩
    cases same
  | cons c tail =>
    rw [← headedRun_iff]
    by_cases start : isWordStart c = true <;> simp [word, start]

theorem identifier_found_iff : identifier s = .found w rest ↔
    s = w ++ rest ∧ IsIdentifier (.ofList w) ∧ WordEnds rest := by
  unfold identifier IsIdentifier
  rw [select_found_iff]
  constructor
  · rintro ⟨v, found, kept⟩
    obtain ⟨rfl, isWord, stop⟩ := word_found_iff.mp found
    split at kept
    · cases kept
    · rename_i free
      cases kept
      exact ⟨rfl, ⟨isWord, isReserved_iff.mp (by simpa using free)⟩, stop⟩
  · rintro ⟨rfl, ⟨isWord, free⟩, stop⟩
    exact ⟨w, word_found_iff.mpr ⟨rfl, isWord, stop⟩, by simp [isReserved_iff.mpr free]⟩

theorem digits_found_iff : digits s = .found w rest ↔ s = w ++ rest ∧
    (∃ c run, w = c :: run ∧ c.isDigit = true ∧ ∀ d ∈ run, isWordChar d = true) ∧
      WordEnds rest := by
  cases s with
  | nil =>
    simp only [digits, reduceCtorEq, false_iff]
    rintro ⟨same, ⟨c, run, rfl, _⟩, _⟩
    cases same
  | cons c tail =>
    rw [← headedRun_iff]
    by_cases start : c.isDigit = true <;> simp [digits, start]

theorem tag_absent_iff {text : String} : Absent (tag text) s ↔ ∀ rest, s ≠ text.toList ++ rest := by
  constructor
  · rintro absent rest rfl
    exact absent.not_found (tag_found_iff.mpr ⟨rfl, rfl⟩)
  · intro other
    refine (quiet_tag text).absent fun a rest found => ?_
    exact other rest (tag_found_iff.mp found).2

theorem intLiteral_found_iff : intLiteral s = .found w rest ↔
    s = w ++ rest ∧ IsIntLiteral (.ofList w) ∧ WordEnds rest := by
  simp only [intLiteral, bind_found_iff, maybe_found_iff, tag_found_iff, digits_found_iff,
    pure_found_iff, IsIntLiteral, String.toList_ofList]
  constructor
  · rintro ⟨sign, middle, signed, run, _, ⟨rfl, ⟨c, digits, rfl, digit, inside⟩, stop⟩, rfl, rfl⟩
    rcases signed with ⟨_, ⟨rfl, rfl⟩, rfl⟩ | ⟨_, rfl, rfl⟩
    · exact ⟨by simp, ⟨['-'], c, digits, by simp, .inr rfl, digit, inside⟩, stop⟩
    · exact ⟨by simp, ⟨[], c, digits, by simp, .inl rfl, digit, inside⟩, stop⟩
  · rintro ⟨rfl, ⟨sign, c, digits, rfl, signed, digit, inside⟩, stop⟩
    have run : ∃ d run, c :: digits = d :: run ∧ d.isDigit = true ∧ ∀ e ∈ run, isWordChar e = true :=
      ⟨c, digits, rfl, digit, inside⟩
    rcases signed with rfl | rfl
    · have unsigned : Absent (tag "-") (c :: digits ++ rest) := by
        refine tag_absent_iff.mpr fun tail same => ?_
        obtain rfl : c = '-' := by simpa using congrArg List.head? same
        simp at digit
      exact ⟨none, _, .inr ⟨unsigned, rfl, rfl⟩, _, _, ⟨rfl, run, stop⟩, by simp, rfl⟩
    · exact ⟨some ['-'], c :: digits ++ rest, .inl ⟨_, ⟨rfl, rfl⟩, rfl⟩, _, _, ⟨rfl, run, stop⟩,
        by simp, rfl⟩

theorem quiet_word : Quiet word := by
  intro s stop e
  cases s with
  | nil => simp [word]
  | cons c s => dsimp only [word]; split <;> simp

theorem quiet_digits : Quiet digits := by
  intro s stop e
  cases s with
  | nil => simp [digits]
  | cons c s => dsimp only [digits]; split <;> simp

theorem quiet_boundary : Quiet boundary := by
  intro s stop e
  cases s with
  | nil => simp [boundary]
  | cons c s => dsimp only [boundary]; split <;> simp

theorem quiet_identifier : Quiet identifier := quiet_word.select _

theorem quiet_intLiteral : Quiet intLiteral :=
  (quiet_tag "-").maybe.bind fun _ => quiet_digits.bind fun _ => quiet_pure _

theorem quiet_qualification : Quiet qualification :=
  ((quiet_tag "::").orElse (quiet_tag ".")).bind fun _ => quiet_identifier.bind fun _ => quiet_pure _

theorem quiet_scopedName : Quiet scopedName :=
  quiet_identifier.bind fun _ => quiet_qualification.many.bind fun _ => quiet_pure _

theorem separator_found_iff : (tag "::" <|> tag ".") s = .found t rest ↔
    (t = "::".toList ∨ t = ".".toList) ∧ s = t ++ rest := by
  simp only [orElse_found_iff, tag_found_iff]
  constructor
  · rintro (⟨rfl, rfl⟩ | ⟨_, rfl, rfl⟩)
    · exact ⟨.inl rfl, rfl⟩
    · exact ⟨.inr rfl, rfl⟩
  · rintro ⟨rfl | rfl, rfl⟩
    · exact .inl ⟨rfl, rfl⟩
    · exact .inr ⟨tag_absent_iff.mpr (by simp), rfl, rfl⟩

theorem wordEnds_separator (joins : separator = "::" ∨ separator = ".") (s : Text) :
    WordEnds (separator.toList ++ s) := by
  rcases joins with rfl | rfl <;> simp <;> decide

theorem qualification_found_iff : qualification s = .found q rest ↔
    ∃ separator name, (separator = "::" ∨ separator = ".") ∧ IsIdentifier name ∧
      q = separator.toList ++ name.toList ∧ s = q ++ rest ∧ WordEnds rest := by
  simp only [qualification, bind_found_iff, separator_found_iff, identifier_found_iff,
    pure_found_iff]
  constructor
  · rintro ⟨separator, _, ⟨joins, rfl⟩, w, _, ⟨rfl, named, stop⟩, rfl, rfl⟩
    refine ⟨.ofList separator, .ofList w, ?_, named, by simp, by simp, stop⟩
    rcases joins with rfl | rfl
    · exact .inl rfl
    · exact .inr rfl
  · rintro ⟨separator, name, joins, named, rfl, rfl, stop⟩
    refine ⟨separator.toList, name.toList ++ rest, ⟨?_, by simp⟩, name.toList, rest,
      ⟨rfl, by simpa using named, stop⟩, rfl, rfl⟩
    rcases joins with rfl | rfl
    · exact .inl rfl
    · exact .inr rfl

theorem qualification_consumes : Consumes qualification := by
  refine consumes_of_split fun s q rest found => ?_
  obtain ⟨separator, name, joins, -, rfl, rfl, -⟩ := qualification_found_iff.mp found
  refine ⟨rfl, ?_⟩
  rcases joins with rfl | rfl <;> simp

theorem qualification_progress : Progress qualification := qualification_consumes.progress

/-- The text goes on with a step into a scope only at a separator. -/
theorem qualification_absent (other : ∀ c ∈ s.head?, c ≠ ':' ∧ c ≠ '.') :
    Absent qualification s := by
  refine quiet_qualification.absent fun q rest found => ?_
  obtain ⟨separator, name, joins, -, rfl, rfl, -⟩ := qualification_found_iff.mp found
  rcases joins with rfl | rfl <;> simp at other

theorem scopedName_found_iff_repeats : scopedName s = .found w rest ↔
    ∃ first middle others, identifier s = .found first middle ∧
      Repeats qualification middle others rest ∧ w = first ++ others.flatten := by
  simp only [scopedName, bind_found_iff, many_found_iff qualification_progress, pure_found_iff]
  constructor
  · rintro ⟨first, middle, found, others, _, repeats, rfl, rfl⟩
    exact ⟨first, middle, others, found, repeats, rfl⟩
  · rintro ⟨first, middle, others, found, repeats, rfl⟩
    exact ⟨first, middle, found, others, rest, repeats, rfl, rfl⟩

/-- Steps after an identifier make a chained name, and the last one ends where no step follows. -/
theorem Repeats.isScopedName (repeats : Repeats qualification s others rest) (ends : WordEnds s)
    (named : IsIdentifier first) : s = others.flatten ++ rest ∧
      IsScopedName (first ++ .ofList others.flatten) ∧ WordEnds rest ∧
      Absent qualification rest := by
  induction repeats generalizing first with
  | stop absent => exact ⟨rfl, by simpa using .name named, ends, absent⟩
  | next found _ _ ih =>
    obtain ⟨separator, name, joins, named', rfl, rfl, stop⟩ := qualification_found_iff.mp found
    obtain ⟨rfl, chained, ends, absent⟩ := ih stop named'
    refine ⟨by simp, ?_, ends, absent⟩
    have joined := IsScopedName.qualified named joins chained
    simpa [String.append_assoc, String.ofList_append] using joined

theorem identifier_found (named : IsIdentifier t) (stop : WordEnds rest) :
    identifier (t.toList ++ rest) = .found t.toList rest :=
  identifier_found_iff.mpr ⟨rfl, by simpa using named, stop⟩

theorem scopedName_found (chained : IsScopedName t) (stop : WordEnds rest)
    (absent : Absent qualification rest) :
    scopedName (t.toList ++ rest) = .found t.toList rest := by
  induction chained with
  | name named =>
    exact scopedName_found_iff_repeats.mpr ⟨_, rest, [], identifier_found named stop, .stop absent, by simp⟩
  | @qualified t separator u named joins _ ih =>
    obtain ⟨first, middle, others, found, repeats, same⟩ := scopedName_found_iff_repeats.mp ih
    obtain ⟨cut, named', ends⟩ := identifier_found_iff.mp found
    have step : qualification (separator.toList ++ u.toList ++ rest) =
        .found (separator.toList ++ first) middle :=
      qualification_found_iff.mpr ⟨separator, .ofList first, joins, named', by simp, by simp [cut],
        ends⟩
    have boundary : WordEnds (separator.toList ++ u.toList ++ rest) :=
      List.append_assoc .. ▸ wordEnds_separator joins _
    refine scopedName_found_iff_repeats.mpr ⟨t.toList, _, _, ?_, .next step
      (qualification_progress step) repeats, by simp [same]⟩
    simpa using identifier_found named boundary

theorem scopedName_found_iff : scopedName s = .found w rest ↔ s = w ++ rest ∧
    IsScopedName (.ofList w) ∧ WordEnds rest ∧ Absent qualification rest := by
  constructor
  · intro found
    obtain ⟨first, middle, others, head, repeats, rfl⟩ := scopedName_found_iff_repeats.mp found
    obtain ⟨rfl, named, ends⟩ := identifier_found_iff.mp head
    obtain ⟨rfl, chained, ends, absent⟩ := repeats.isScopedName ends named
    exact ⟨by simp, by simpa [String.ofList_append] using chained, ends, absent⟩
  · rintro ⟨rfl, chained, ends, absent⟩
    simpa using scopedName_found chained ends absent

end Scan
end SchemaLang
