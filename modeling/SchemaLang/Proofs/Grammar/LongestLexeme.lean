import SchemaLang.Proofs.Grammar.Attempt
import SchemaLang.Proofs.Grammar.TokenClass

/-! Lexemes are as long as they can be. A word and a number take the whole run of letters, digits and
underscores, and a reserved word is not cut short to become a name. A reference goes on over every
separator with a name directly behind it and ends in front of any other. -/
namespace SchemaLang

theorem isDigit_iff : c.isDigit = true ↔ '0' ≤ c ∧ c ≤ '9' := by
  simp [Char.isDigit, Char.le_def]

/-- `[A-Za-z_]` -/
theorem isWordStart_iff : isWordStart c = true ↔
    ('A' ≤ c ∧ c ≤ 'Z' ∨ 'a' ≤ c ∧ c ≤ 'z') ∨ c = '_' := by
  simp [isWordStart, Char.isAlpha, Char.isUpper, Char.isLower, Char.le_def]

/-- `[A-Za-z0-9_]` -/
theorem isWordChar_iff : isWordChar c = true ↔
    (('A' ≤ c ∧ c ≤ 'Z' ∨ 'a' ≤ c ∧ c ≤ 'z') ∨ '0' ≤ c ∧ c ≤ '9') ∨ c = '_' := by
  simp [isWordChar, Char.isAlphanum, Char.isAlpha, Char.isUpper, Char.isLower, Char.isDigit,
    Char.le_def]

namespace Scan

/-- The construct stands at the start of the text. -/
def Finds (p : Scan α) (s : Text) : Prop := ∃ a rest, p s = .found a rest

/-- The chain in front of a text that a reference takes. It begins with the identifier in front, it
stops where no separator has an identifier directly behind it, and no other chain goes further. -/
structure LongestChain (s chain rest : Text) : Prop where
  chained : IsScopedName (.ofList chain)
  head : ∃ first middle, identifier s = .found first middle ∧ first <+: chain
  stop : ∀ separator tail, separator = "::" ∨ separator = "." →
    rest = separator.toList ++ tail → ¬ Finds identifier tail
  longest : ∀ other later, s = other ++ later → IsScopedName (.ofList other) → WordEnds later →
    other <+: chain

theorem finds_word_iff : Finds word s ↔ ∃ c ∈ s.head?, isWordStart c = true := by
  cases s with
  | nil => simp [Finds, word]
  | cons c s =>
    by_cases start : isWordStart c = true
    · simp [Finds, word, start]
    · simp [Finds, word, start]

theorem word_longestRun (found : word s = .found w rest) : LongestRun isWordChar s w rest := by
  obtain ⟨split, isWord, ends⟩ := word_found_iff.mp found
  exact ⟨split, by simpa using IsWord.wordChars isWord, ends⟩

theorem identifier_found_iff_word : identifier s = .found w rest ↔
    word s = .found w rest ∧ String.ofList w ∉ reservedWords := by
  rw [identifier_found_iff, word_found_iff, IsIdentifier]
  tauto

theorem intLiteral_found_iff_run : intLiteral s = .found w rest ↔
    ∃ sign c tail run, (sign = [] ∨ sign = ['-']) ∧ c.isDigit = true ∧ s = sign ++ c :: tail ∧
      LongestRun isWordChar tail run rest ∧ w = sign ++ c :: run := by
  rw [intLiteral_found_iff]
  constructor
  · rintro ⟨rfl, ⟨sign, c, run, same, optional, digit, inside⟩, ends⟩
    obtain rfl : w = sign ++ c :: run := by simpa using same
    exact ⟨sign, c, run ++ rest, run, optional, digit, by simp, ⟨rfl, inside, ends⟩, rfl⟩
  · rintro ⟨sign, c, tail, run, optional, digit, rfl, ⟨rfl, inside, ends⟩, rfl⟩
    exact ⟨by simp, ⟨sign, c, run, by simp, optional, digit, inside⟩, ends⟩

theorem finds_intLiteral_iff : Finds intLiteral s ↔
    ∃ sign c tail, (sign = [] ∨ sign = ['-']) ∧ c.isDigit = true ∧ s = sign ++ c :: tail := by
  constructor
  · rintro ⟨w, rest, found⟩
    obtain ⟨sign, c, tail, run, optional, digit, split, -⟩ := intLiteral_found_iff_run.mp found
    exact ⟨sign, c, tail, optional, digit, split⟩
  · rintro ⟨sign, c, tail, optional, digit, split⟩
    exact ⟨_, _, intLiteral_found_iff_run.mpr
      ⟨sign, c, tail, _, optional, digit, split, longestRun isWordChar tail, rfl⟩⟩

theorem qualification_found (joins : separator = "::" ∨ separator = ".")
    (found : identifier tail = .found name rest) :
    qualification (separator.toList ++ tail) = .found (separator.toList ++ name) rest := by
  obtain ⟨rfl, named, ends⟩ := identifier_found_iff.mp found
  exact qualification_found_iff.mpr ⟨separator, .ofList name, joins, named, by simp, by simp, ends⟩

/-- A chain begins with an identifier that ends at the first separator or with the chain. -/
theorem IsScopedName.finds_identifier (chained : IsScopedName t) (ends : WordEnds later) :
    Finds identifier (t.toList ++ later) := by
  cases chained with
  | name named => exact ⟨_, _, identifier_found named ends⟩
  | @qualified first separator others named joins =>
    have found := identifier_found named (wordEnds_separator joins (others.toList ++ later))
    exact ⟨_, _, by simpa using found⟩

theorem finds_scopedName_iff : Finds scopedName s ↔ Finds identifier s := by
  constructor
  · rintro ⟨w, rest, found⟩
    obtain ⟨first, middle, others, head, -, -⟩ := scopedName_found_iff_repeats.mp found
    exact ⟨first, middle, head⟩
  · rintro ⟨first, middle, head⟩
    obtain ⟨others, rest, repeats⟩ :=
      exists_repeats quiet_qualification qualification_progress middle
    exact ⟨_, rest, scopedName_found_iff_repeats.mpr ⟨_, _, _, head, repeats, rfl⟩⟩

/-- The reader takes each step of any chain that stands there, and it may take more. -/
theorem IsScopedName.prefix_of_found (chained : IsScopedName t) (ends : WordEnds later)
    (found : scopedName (t.toList ++ later) = .found w rest) : t.toList <+: w := by
  induction chained generalizing w rest with
  | name named =>
    obtain ⟨_, _, others, head, -, rfl⟩ := scopedName_found_iff_repeats.mp found
    rw [identifier_found named ends] at head
    cases head
    exact List.prefix_append ..
  | @qualified t separator u named joins chained ih =>
    obtain ⟨_, _, others, head, repeats, rfl⟩ := scopedName_found_iff_repeats.mp found
    have step := identifier_found named (wordEnds_separator joins (u.toList ++ later))
    have split : (t ++ separator ++ u).toList ++ later =
        t.toList ++ (separator.toList ++ (u.toList ++ later)) := by simp
    rw [split, step] at head
    cases head
    obtain ⟨name, after, next⟩ := IsScopedName.finds_identifier chained ends
    have taken := qualification_found joins next
    cases repeats with
    | stop absent => exact absurd taken absent.not_found
    | next other _ repeats =>
      rw [taken] at other
      cases other
      have inner := scopedName_found_iff_repeats.mpr ⟨_, _, _, next, repeats, rfl⟩
      obtain ⟨more, same⟩ := ih inner
      exact ⟨more, by simp [← same]⟩

theorem scopedName_longestChain (found : scopedName s = .found w rest) :
    LongestChain s w rest := by
  obtain ⟨split, chained, -, absent⟩ := scopedName_found_iff.mp found
  refine ⟨chained, ?_, ?_, ?_⟩
  · obtain ⟨first, middle, others, head, -, rfl⟩ := scopedName_found_iff_repeats.mp found
    exact ⟨first, middle, head, List.prefix_append ..⟩
  · rintro separator tail joins rfl ⟨name, after, next⟩
    exact absent.not_found (qualification_found joins next)
  · rintro other later rfl other_chained ends
    have inFront : scopedName ((String.ofList other).toList ++ later) = .found w rest := by
      simpa using found
    simpa using IsScopedName.prefix_of_found other_chained ends inFront

theorem lexeme_exact (member : lexeme ∈ [word, identifier, intLiteral, scopedName])
    (found : lexeme s = .found w rest) : s = w ++ rest ∧ WordEnds rest := by
  simp only [List.mem_cons, List.not_mem_nil, or_false] at member
  rcases member with rfl | rfl | rfl | rfl
  · obtain ⟨split, -, ends⟩ := word_found_iff.mp found
    exact ⟨split, ends⟩
  · obtain ⟨split, -, ends⟩ := identifier_found_iff.mp found
    exact ⟨split, ends⟩
  · obtain ⟨split, -, ends⟩ := intLiteral_found_iff.mp found
    exact ⟨split, ends⟩
  · obtain ⟨split, -, ends, -⟩ := scopedName_found_iff.mp found
    exact ⟨split, ends⟩

/-- The four lexemes with the token each of them takes in front of a text. A word begins with a
letter or an underscore and is the whole run. An identifier is a word, all of it, that is not
reserved. A number is an optional sign, a digit and the whole run behind it. A reference is there
exactly if an identifier is, and it is the longest chain. Nothing that could go on with a word
follows any of them. -/
theorem lexemes_longest :
    (∀ c : Char,
      (isWordStart c = true ↔ ('A' ≤ c ∧ c ≤ 'Z' ∨ 'a' ≤ c ∧ c ≤ 'z') ∨ c = '_') ∧
      (isWordChar c = true ↔
        (('A' ≤ c ∧ c ≤ 'Z' ∨ 'a' ≤ c ∧ c ≤ 'z') ∨ '0' ≤ c ∧ c ≤ '9') ∨ c = '_') ∧
      (c.isDigit = true ↔ '0' ≤ c ∧ c ≤ '9')) ∧
    ∀ s,
      ((Finds word s ↔ ∃ c ∈ s.head?, isWordStart c = true) ∧
        ∀ w rest, word s = .found w rest → LongestRun isWordChar s w rest) ∧
      (∀ w rest, identifier s = .found w rest ↔
        word s = .found w rest ∧ String.ofList w ∉ reservedWords) ∧
      ((Finds intLiteral s ↔ ∃ sign c tail, (sign = [] ∨ sign = ['-']) ∧ c.isDigit = true ∧
          s = sign ++ c :: tail) ∧
        ∀ w rest, intLiteral s = .found w rest → ∃ sign c tail run,
          (sign = [] ∨ sign = ['-']) ∧ c.isDigit = true ∧ s = sign ++ c :: tail ∧
            LongestRun isWordChar tail run rest ∧ w = sign ++ c :: run) ∧
      ((Finds scopedName s ↔ Finds identifier s) ∧
        ∀ w rest, scopedName s = .found w rest → LongestChain s w rest) ∧
      ∀ lexeme ∈ [word, identifier, intLiteral, scopedName], ∀ w rest,
        lexeme s = .found w rest → s = w ++ rest ∧ ∀ c ∈ rest.head?, isWordChar c = false := by
  exact ⟨fun c => ⟨isWordStart_iff, isWordChar_iff, isDigit_iff⟩, fun s =>
    ⟨⟨finds_word_iff, fun w rest => word_longestRun⟩, fun w rest => identifier_found_iff_word,
      ⟨finds_intLiteral_iff, fun w rest => intLiteral_found_iff_run.mp⟩,
      ⟨finds_scopedName_iff, fun w rest => scopedName_longestChain⟩,
      fun lexeme member w rest => lexeme_exact member⟩⟩

/-- The chain stops in front of a separator with a reserved word behind it, and it holds a name that
begins with one. -/
theorem lexemes_longest_reserved :
    scopedName "a::scopes.b.case".toList = .found "a::scopes.b".toList ".case".toList ∧
      LongestChain "a::scopes.b.case".toList "a::scopes.b".toList ".case".toList ∧
      word "case x".toList = .found "case".toList " x".toList ∧
      LongestRun isWordChar "case x".toList "case".toList " x".toList ∧
      intLiteral "-0x_g;".toList = .found "-0x_g".toList ";".toList ∧
      "-0x_g;".toList = "-0x_g".toList ++ ";".toList ∧
      ∀ c ∈ ";".toList.head?, isWordChar c = false := by
  have chain : scopedName "a::scopes.b.case".toList =
      .found "a::scopes.b".toList ".case".toList := by cbv
  have reserved : word "case x".toList = .found "case".toList " x".toList := rfl
  have number : intLiteral "-0x_g;".toList = .found "-0x_g".toList ";".toList := rfl
  obtain ⟨-, -, -, ⟨-, chains⟩, -⟩ := lexemes_longest.2 "a::scopes.b.case".toList
  obtain ⟨⟨-, words⟩, -⟩ := lexemes_longest.2 "case x".toList
  obtain ⟨-, -, -, -, ends⟩ := lexemes_longest.2 "-0x_g;".toList
  exact ⟨chain, chains _ _ chain, reserved, words _ _ reserved, number,
    ends intLiteral (by simp) _ _ number⟩

end Scan
end SchemaLang
