import SchemaLang.Grammar.Production
import SchemaLang.Proofs.Grammar.TokenClass
import SchemaLang.Proofs.Text.Gap

/-! A text as a sequence of tokens with layout between them, and the recognizers of single
tokens as readers of such sequences. The sequence is related to a text and what remains of it,
so that the character behind a token is always in view. -/
namespace SchemaLang

open Scan Text

/-- Only a mark may be directly followed by a character that a word could contain. -/
def Separated (t : String) (rest : Text) : Prop := (∃ m : Mark, t = m.text) ∨ WordEnds rest

/-- The text is layout, a token, layout, a token and so on, and then the rest. -/
inductive Reads : List String → Text → Text → Prop where
  | nil : Reads [] s s
  | cons : Gap s (t.toList ++ middle) → Separated t middle → Reads ts middle rest →
      Reads (t :: ts) s rest

@[simp] theorem reads_nil_iff : Reads [] s rest ↔ s = rest := by
  constructor
  · rintro ⟨⟩; rfl
  · rintro rfl; exact .nil

theorem reads_singleton_iff : Reads [t] s rest ↔ Gap s (t.toList ++ rest) ∧ Separated t rest := by
  constructor
  · rintro (_ | ⟨gap, apart, ⟨⟩⟩)
    exact ⟨gap, apart⟩
  · rintro ⟨gap, apart⟩
    exact .cons gap apart .nil

theorem reads_cons_iff : Reads (t :: ts) s rest ↔
    ∃ middle, Reads [t] s middle ∧ Reads ts middle rest := by
  constructor
  · rintro (_ | ⟨gap, apart, later⟩)
    exact ⟨_, .cons gap apart .nil, later⟩
  · rintro ⟨middle, first, later⟩
    obtain ⟨gap, apart⟩ := reads_singleton_iff.mp first
    exact .cons gap apart later

theorem reads_append_iff : Reads (ts ++ us) s rest ↔
    ∃ middle, Reads ts s middle ∧ Reads us middle rest := by
  induction ts generalizing s with
  | nil => simp
  | cons t ts ih =>
    rw [List.cons_append, reads_cons_iff]
    constructor
    · rintro ⟨first, head, later⟩
      obtain ⟨middle, tail, later⟩ := ih.mp later
      exact ⟨middle, reads_cons_iff.mpr ⟨first, head, tail⟩, later⟩
    · rintro ⟨middle, earlier, later⟩
      obtain ⟨first, head, tail⟩ := reads_cons_iff.mp earlier
      exact ⟨first, head, ih.mpr ⟨middle, tail, later⟩⟩

theorem Reads.append (first : Reads ts s middle) (later : Reads us middle rest) :
    Reads (ts ++ us) s rest :=
  reads_append_iff.mpr ⟨middle, first, later⟩

theorem isSolid_of_wordChar (inWord : isWordChar c = true) : isSolid c = true := by
  cases solid : isSolid c with
  | true => rfl
  | false =>
    have cases : (((c = ' ' ∨ c = '\t') ∨ c = '\r') ∨ c = '\n') ∨ c = '/' := by
      simpa [isSolid, isLayoutBlank, Classical.or_iff_not_imp_left] using solid
    rcases cases with (((rfl | rfl) | rfl) | rfl) | rfl <;> revert inWord <;> decide

theorem isSolid_of_tokenChar (inside : isTokenChar c = true) : isSolid c = true := by
  simp only [isTokenChar, Bool.or_eq_true, decide_eq_true_eq] at inside
  rcases inside with ((word | rfl) | rfl) | rfl
  · exact isSolid_of_wordChar word
  all_goals decide

@[simp] theorem mark_toList (m : Mark) : m.text.toList = [m.char] := by
  simp [Mark.text, Char.toString]

theorem isSolid_mark (m : Mark) : isSolid m.char = true := by
  cases m <;> decide

theorem mark_not_lexeme (m : Mark) : ¬ IsLexeme m.text := by
  rintro ⟨c, run, same, start⟩
  obtain rfl : m.char = c := by simpa using congrArg List.head? same
  revert start
  cases m <;> decide

theorem IsLexeme.separated_iff (isLexeme : IsLexeme t) : Separated t rest ↔ WordEnds rest := by
  constructor
  · rintro (⟨m, rfl⟩ | ends)
    · exact absurd isLexeme (mark_not_lexeme m)
    · exact ends
  · exact .inr

/-- No layout begins where a lexeme does. -/
theorem IsLexeme.solid (isLexeme : IsLexeme t) : ∃ c run, t.toList = c :: run ∧ isSolid c = true := by
  obtain ⟨c, run, same, inWord | rfl⟩ := isLexeme
  · exact ⟨c, run, same, isSolid_of_wordChar inWord⟩
  · exact ⟨'-', run, same, by decide⟩

theorem IsLexeme.reads_iff (isLexeme : IsLexeme t) : Reads [t] s rest ↔
    s.skipLayout = t.toList ++ rest ∧ WordEnds rest := by
  rw [reads_singleton_iff, isLexeme.separated_iff]
  obtain ⟨c, run, same, solid⟩ := isLexeme.solid
  rw [same, List.cons_append, gap_solid_iff solid]

theorem reads_mark_iff {m : Mark} : Reads [m.text] s rest ↔ s.skipLayout = m.char :: rest := by
  rw [reads_singleton_iff, mark_toList, List.singleton_append, gap_solid_iff (isSolid_mark m)]
  exact and_iff_left (.inl ⟨m, rfl⟩)

/-- Two ways to read a mark or a lexeme next begin with the same character. -/
theorem IsLexeme.not_mark (isLexeme : IsLexeme t) (reads : Reads [t] s rest) (m : Mark) :
    ¬ Reads [m.text] s other := by
  intro marked
  obtain ⟨same, -⟩ := isLexeme.reads_iff.mp reads
  rw [reads_mark_iff.mp marked] at same
  refine mark_not_lexeme m ?_
  obtain ⟨c, run, first, start⟩ := isLexeme
  obtain rfl : m.char = c := by simpa [first] using congrArg List.head? same
  exact ⟨m.char, [], mark_toList m, start⟩

theorem reads_mark_unique {m n : Mark} (first : Reads [m.text] s rest) (second : Reads [n.text] s other) :
    m = n := by
  have same := (reads_mark_iff.mp first).symm.trans (reads_mark_iff.mp second)
  have chars : m.char = n.char := by simpa using congrArg List.head? same
  revert chars
  cases m <;> cases n <;> decide

theorem IsWord.word_found (isWord : IsWord t) (reads : Reads [t] s rest) :
    word s.skipLayout = .found t.toList rest := by
  obtain ⟨same, ends⟩ := isWord.isLexeme.reads_iff.mp reads
  exact word_found_iff.mpr ⟨same, by simpa using isWord, ends⟩

theorem IsWord.reads_unique (left : IsWord t) (right : IsWord u) (first : Reads [t] s rest)
    (second : Reads [u] s other) : t = u := by
  have same := (left.word_found first).symm.trans (right.word_found second)
  simp only [Outcome.found.injEq, String.toList_inj] at same
  exact same.1

namespace Grammar

theorem placed_found_iff {p : Scan α} : placed p s = .found (place, a) rest ↔
    p s.skipLayout = .found a rest ∧ place = s.skipLayout := by
  simp only [placed, bind_found_iff, layout_found_iff, here_found_iff, pure_found_iff,
    Prod.mk.injEq]
  constructor
  · rintro ⟨_, _, rfl, _, _, ⟨rfl, rfl⟩, _, _, found, ⟨rfl, rfl⟩, rfl⟩
    exact ⟨found, rfl⟩
  · rintro ⟨found, rfl⟩
    exact ⟨(), _, rfl, _, _, ⟨rfl, rfl⟩, a, rest, found, ⟨rfl, rfl⟩, rfl⟩

theorem token_found_iff {lexeme : Scan Text} : token lexeme s = .found t rest ↔
    lexeme s.skipLayout = .found t.text.toList rest ∧ t.place = s.skipLayout := by
  simp only [token, map_found_iff, Prod.exists, placed_found_iff]
  constructor
  · rintro ⟨place, w, ⟨found, rfl⟩, rfl⟩
    simpa using found
  · rintro ⟨found, same⟩
    exact ⟨_, _, ⟨found, same⟩, by simp⟩

/-- The recognizers of one token read a sequence of one, and place it where it starts. -/
theorem name_found_iff : name s = .found t rest ↔
    IsIdentifier t.text ∧ Reads [t.text] s rest ∧ t.place = s.skipLayout := by
  rw [name, token_found_iff, identifier_found_iff, String.ofList_toList]
  constructor
  · rintro ⟨⟨same, named, ends⟩, place⟩
    exact ⟨named, named.1.isLexeme.reads_iff.mpr ⟨same, ends⟩, place⟩
  · rintro ⟨named, reads, place⟩
    obtain ⟨same, ends⟩ := named.1.isLexeme.reads_iff.mp reads
    exact ⟨⟨same, named, ends⟩, place⟩

theorem literal_found_iff : literal s = .found t rest ↔
    IsIntLiteral t.text ∧ Reads [t.text] s rest ∧ t.place = s.skipLayout := by
  rw [literal, token_found_iff, intLiteral_found_iff, String.ofList_toList]
  constructor
  · rintro ⟨⟨same, number, ends⟩, place⟩
    exact ⟨number, number.isLexeme.reads_iff.mpr ⟨same, ends⟩, place⟩
  · rintro ⟨number, reads, place⟩
    obtain ⟨same, ends⟩ := number.isLexeme.reads_iff.mp reads
    exact ⟨⟨same, number, ends⟩, place⟩

theorem token_word_found_iff : token word s = .found t rest ↔
    IsWord t.text ∧ Reads [t.text] s rest ∧ t.place = s.skipLayout := by
  rw [token_found_iff, word_found_iff, String.ofList_toList]
  constructor
  · rintro ⟨⟨same, isWord, ends⟩, place⟩
    exact ⟨isWord, isWord.isLexeme.reads_iff.mpr ⟨same, ends⟩, place⟩
  · rintro ⟨isWord, reads, place⟩
    obtain ⟨same, ends⟩ := isWord.isLexeme.reads_iff.mp reads
    exact ⟨⟨same, isWord, ends⟩, place⟩

/-- A scoped name also takes every further step that stands directly behind it. -/
theorem reference_found_iff : reference s = .found t rest ↔ IsScopedName t.text ∧
    Reads [t.text] s rest ∧ Absent qualification rest ∧ t.place = s.skipLayout := by
  rw [reference, token_found_iff, scopedName_found_iff, String.ofList_toList]
  constructor
  · rintro ⟨⟨same, chained, ends, absent⟩, place⟩
    exact ⟨chained, chained.isLexeme.reads_iff.mpr ⟨same, ends⟩, absent, place⟩
  · rintro ⟨chained, reads, absent, place⟩
    obtain ⟨same, ends⟩ := chained.isLexeme.reads_iff.mp reads
    exact ⟨⟨same, chained, ends, absent⟩, place⟩

theorem boundary_found_iff : boundary s = .found u rest ↔ s = rest ∧ WordEnds rest := by
  cases s with
  | nil =>
    simp only [boundary, Outcome.found.injEq, true_and]
    constructor
    · rintro rfl
      exact ⟨rfl, wordEnds_nil⟩
    · exact fun same => same.1
  | cons c s =>
    by_cases inWord : isWordChar c = true
    · simp only [boundary, inWord, ↓reduceIte, reduceCtorEq, false_iff]
      rintro ⟨rfl, ends⟩
      simp [inWord] at ends
    · simp only [boundary, inWord, Bool.false_eq_true, ↓reduceIte, Outcome.found.injEq, true_and]
      constructor
      · rintro rfl
        exact ⟨rfl, by simpa using inWord⟩
      · exact fun same => same.1

theorem keyword_found_iff (reserved : w ∈ reservedWords) : keyword w s = .found u rest ↔
    Reads [w] s rest := by
  simp only [keyword, bind_found_iff, layout_found_iff, tag_found_iff, boundary_found_iff,
    (isWord_reserved reserved).isLexeme.reads_iff]
  constructor
  · rintro ⟨_, _, rfl, _, _, ⟨rfl, same⟩, rfl, ends⟩
    exact ⟨same, ends⟩
  · rintro ⟨same, ends⟩
    exact ⟨(), _, rfl, _, _, ⟨rfl, same⟩, rfl, ends⟩

theorem mark_found_iff : mark m s = .found u rest ↔ Reads [m.text] s rest := by
  simp only [mark, symbol, bind_found_iff, layout_found_iff, tag_found_iff, pure_found_iff,
    reads_mark_iff, mark_toList]
  constructor
  · rintro ⟨_, _, rfl, _, _, ⟨rfl, same⟩, _, rfl⟩
    exact same
  · intro same
    exact ⟨(), _, rfl, _, _, ⟨rfl, same⟩, trivial, rfl⟩

end Grammar
end SchemaLang
