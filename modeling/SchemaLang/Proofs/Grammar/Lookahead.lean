import SchemaLang.Proofs.Grammar.Soundness

/-! What the next token of a text rules out. A production is absent where the next token opens
something else, which is all that a greedy reader has to know about what follows it. -/
namespace SchemaLang

open Scan

/-- The next token. -/
def Opens (s : Text) (t : String) : Prop := ∃ rest, Reads [t] s rest

theorem Reads.opens (reads : Reads (t :: ts) s rest) : Opens s t := by
  obtain ⟨middle, first, -⟩ := reads_cons_iff.mp reads
  exact ⟨middle, first⟩

theorem Reads.length_le (reads : Reads ts s rest) : rest.length ≤ s.length := by
  induction reads with
  | nil => exact Nat.le_refl _
  | cons gap _ _ ih =>
    have shorter := gap.length_le
    rw [List.length_append] at shorter
    omega

theorem Reads.length_lt (reads : Reads ts s rest) (member : t ∈ ts) (filled : t ≠ "") :
    rest.length < s.length := by
  induction reads with
  | nil => simp at member
  | @cons s u middle ts rest gap _ later ih =>
    have shorter := gap.length_le
    rw [List.length_append] at shorter
    rcases List.mem_cons.mp member with rfl | member
    · have positive : 0 < t.toList.length := List.length_pos_iff.mpr (by simpa using filled)
      have := later.length_le
      omega
    · have := ih member
      omega

/-- A token that opens with neither a colon nor a dot does not go on with a scoped name. -/
theorem Opens.qualification_absent (opens : Opens s t) (same : t.toList = c :: run)
    (other : c ≠ ':' ∧ c ≠ '.') : Absent qualification s := by
  obtain ⟨rest, reads⟩ := opens
  obtain ⟨gap, -⟩ := reads_singleton_iff.mp reads
  apply Scan.qualification_absent
  intro d head
  rcases gap.head with rfl | ⟨d', tail, rfl, hollow⟩
  · obtain rfl : c = d := by simpa [same] using head
    exact other
  · obtain rfl : d' = d := by simpa using head
    constructor <;> rintro rfl <;> simp [Text.isSolid, Text.isLayoutBlank] at hollow

theorem IsIdentifier.qualification_absent (named : IsIdentifier t) (opens : Opens s t) :
    Absent qualification s := by
  obtain ⟨c, run, same, start, -⟩ := named.1
  refine opens.qualification_absent same ⟨?_, ?_⟩ <;> rintro rfl <;> simp [isWordStart] at start

/-- A scoped name begins with a word, and that word is free. -/
theorem IsScopedName.free (chained : IsScopedName u) (reads : Reads [u] s other)
    (isWord : IsWord t) (first : Reads [t] s rest) : t ∉ reservedWords := by
  obtain ⟨same, ends⟩ := chained.isLexeme.reads_iff.mp reads
  have found := isWord.word_found first
  cases chained with
  | name named =>
    obtain rfl := isWord.reads_unique named.1 first reads
    exact named.2
  | @qualified v separator _ named joins =>
    have boundary : WordEnds (separator.toList ++ (‹String›.toList ++ other)) :=
      wordEnds_separator joins _
    have cut : word s.skipLayout = .found v.toList _ :=
      word_found_iff.mpr ⟨by simpa using same, by simpa using named.1, boundary⟩
    rw [found, Outcome.found.injEq, String.toList_inj] at cut
    exact cut.1 ▸ named.2

namespace Grammar

theorem quiet_token {lexeme : Scan Text} (quiet : Quiet lexeme) : Quiet (token lexeme) :=
  (quiet_layout.bind fun _ => quiet_here.bind fun _ => quiet.bind fun _ => quiet_pure _).map _

theorem quiet_symbol (text : String) : Quiet (symbol text) :=
  quiet_layout.bind fun _ => (quiet_tag text).bind fun _ => quiet_pure _

theorem quiet_keyword (w : String) : Quiet (keyword w) :=
  quiet_layout.bind fun _ => (quiet_tag w).bind fun _ => quiet_boundary

theorem mark_absent {m n : Mark} (opens : Opens s n.text) (different : n ≠ m) :
    Absent (mark m) s := by
  obtain ⟨rest, reads⟩ := opens
  refine (quiet_symbol m.text).absent fun _ _ found => different ?_
  exact reads_mark_unique reads (mark_found_iff.mp found)

theorem mark_absent_of_word {m : Mark} (reserved : t ∈ reservedWords) (opens : Opens s t) :
    Absent (mark m) s := by
  obtain ⟨rest, reads⟩ := opens
  refine (quiet_symbol m.text).absent fun _ _ found => ?_
  exact (isWord_reserved reserved).isLexeme.not_mark reads m (mark_found_iff.mp found)

theorem keyword_absent_of_mark (reserved : w ∈ reservedWords) {m : Mark}
    (opens : Opens s m.text) : Absent (keyword w) s := by
  obtain ⟨rest, reads⟩ := opens
  refine (quiet_keyword w).absent fun _ _ found => ?_
  exact (isWord_reserved reserved).isLexeme.not_mark ((keyword_found_iff reserved).mp found) m reads

theorem keyword_absent (reserved : w ∈ reservedWords) (other : t ∈ reservedWords)
    (opens : Opens s t) (different : t ≠ w) : Absent (keyword w) s := by
  obtain ⟨rest, reads⟩ := opens
  refine (quiet_keyword w).absent fun _ _ found => different ?_
  exact (isWord_reserved other).reads_unique (isWord_reserved reserved) reads
    ((keyword_found_iff reserved).mp found)

theorem name_absent {m : Mark} (opens : Opens s m.text) : Absent name s := by
  obtain ⟨rest, reads⟩ := opens
  refine (quiet_token quiet_identifier).absent fun _ _ found => ?_
  obtain ⟨named, first, -⟩ := name_found_iff.mp found
  exact named.1.isLexeme.not_mark first m reads

theorem literal_absent (isWord : IsWord t) (opens : Opens s t) : Absent literal s := by
  obtain ⟨rest, reads⟩ := opens
  refine (quiet_token quiet_intLiteral).absent fun u _ found => ?_
  obtain ⟨number, first, -⟩ := literal_found_iff.mp found
  have heads := (number.isLexeme.reads_iff.mp first).1.symm.trans (isWord.isLexeme.reads_iff.mp reads).1
  obtain ⟨c, run, word, start, -⟩ := isWord
  obtain ⟨sign, d, digits, spelled, rfl | rfl, digit, -⟩ := number
  · obtain rfl : d = c := by simpa [spelled, word] using congrArg List.head? heads
    simp [not_digit_of_start start] at digit
  · obtain rfl : '-' = c := by simpa [spelled, word] using congrArg List.head? heads
    simp [isWordStart] at start

theorem quiet_primitiveType : Quiet primitiveType :=
  (quiet_layout.bind fun _ => quiet_here.bind fun _ => (quiet_word.select _).bind fun _ =>
    quiet_pure _).map _

theorem quiet_octetsKeyword :
    Quiet (token (do let text ← tag "octets"; boundary; pure text)) :=
  quiet_token ((quiet_tag "octets").bind fun _ => quiet_boundary.bind fun _ => quiet_pure _)

theorem octetsType_absent (absent : ∀ rest, ¬ Reads ["octets"] s rest) : Absent octetsType s := by
  refine bind_absent (quiet_octetsKeyword.absent fun t rest found => absent rest ?_)
  exact (octetsKeyword_found_iff.mp found).2

/-- No type begins with a mark or with a reserved word that is not one of the built-in types. -/
theorem typeSpec_absent (primitive : ∀ p rest, ¬ Reads [Primitive.keyword p] s rest)
    (reference : ∀ t rest, IsScopedName t → ¬ Reads [t] s rest) : Absent typeSpec s := by
  apply orElse_absent
  · refine quiet_primitiveType.absent fun t rest found => ?_
    obtain ⟨kind, -, -, reads⟩ := primitiveType_found_iff.mp found
    exact primitive kind rest reads
  apply orElse_absent
  · exact octetsType_absent (primitive .octets)
  · refine map_absent ((quiet_token quiet_scopedName).absent fun t rest found => ?_)
    obtain ⟨chained, reads, -⟩ := reference_found_iff.mp found
    exact reference t.text rest chained reads

theorem member_absent_of_mark {m : Mark} (opens : Opens s m.text) : Absent member s := by
  obtain ⟨_, marked⟩ := opens
  refine bind_absent (typeSpec_absent (fun p rest reads => ?_) fun t rest chained reads => ?_)
  · exact (isWord_keyword p).isLexeme.not_mark reads m marked
  · exact chained.isLexeme.not_mark reads m marked

theorem member_absent_of_case (opens : Opens s "case") : Absent member s := by
  obtain ⟨_, case⟩ := opens
  have isWord : IsWord "case" := isWord_reserved (by decide)
  refine bind_absent (typeSpec_absent (fun p rest reads => ?_) fun t rest chained reads => ?_)
  · have same := isWord.reads_unique (isWord_keyword p) case reads
    revert same
    cases p <;> decide
  · exact chained.free reads isWord case (by decide)

end Grammar
end SchemaLang
