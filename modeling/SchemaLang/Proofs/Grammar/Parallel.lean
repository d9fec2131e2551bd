import SchemaLang.Proofs.Grammar.Agreement
import SchemaLang.Proofs.Grammar.Progress

/-! Texts that a recognizer cannot tell apart. What is read of them is layout and solid characters,
so it is enough that a relation between texts is kept over both; then the whole grammar reads the
same from related texts, places aside. -/
namespace SchemaLang

open Text (isSolid)

/-- One text keeps to the way of the other, over layout and one solid character after the other. A
closing brace may lead to another relation. -/
structure Follows (R E : Text → Text → Prop) : Prop where
  layout : R s s' → R s.skipLayout s'.skipLayout
  ending : R [] s' → s' = []
  step : isSolid c = true → c ≠ '\x7d' → R (c :: s) s' → ∃ t, s' = c :: t ∧ R s t
  close : R ('\x7d' :: s) s' → ∃ t, s' = '\x7d' :: t ∧ E s t

/-- Each of two texts follows the other, and their places look alike. -/
structure Parallel (R E : Text → Text → Prop) (f g : Text → π) : Prop where
  forth : Follows R E
  back : Follows (flip R) (flip E)
  place : R s s' → f s = g s'

namespace Parallel

variable {R E : Text → Text → Prop} {f g : Text → π}

theorem symm (par : Parallel R E f g) : Parallel (flip R) (flip E) g f :=
  ⟨par.back, par.forth, fun related => (par.place related).symm⟩

theorem solids (par : Parallel R E f g) (solid : ∀ c ∈ w, isSolid c = true ∧ c ≠ '\x7d')
    (related : R (w ++ s) s') : ∃ t, s' = w ++ t ∧ R s t := by
  induction w generalizing s' with
  | nil => exact ⟨s', rfl, related⟩
  | cons c w ih =>
    obtain ⟨⟨solid, other⟩, inside⟩ := List.forall_mem_cons.mp solid
    obtain ⟨t, rfl, next⟩ := par.forth.step solid other related
    obtain ⟨u, rfl, last⟩ := ih inside next
    exact ⟨u, rfl, last⟩

theorem wordEnds (par : Parallel R E f g) (related : R s s') (ends : WordEnds s) :
    WordEnds s' := by
  intro c head
  obtain ⟨t, rfl⟩ := List.head?_eq_some_iff.mp head
  by_contra inWord
  have word : isWordChar c = true := by simpa using inWord
  have other : c ≠ '\x7d' := by rintro rfl; exact absurd word (by decide)
  obtain ⟨u, rfl, -⟩ := par.back.step (isSolid_of_wordChar word) other related
  exact inWord (ends c rfl)

end Parallel

theorem solid_of_tokenChar (inside : isTokenChar c = true) : isSolid c = true ∧ c ≠ '\x7d' := by
  refine ⟨isSolid_of_tokenChar inside, ?_⟩
  rintro rfl
  exact absurd inside (by decide)

namespace Grammar

open Scan

/-- Reads one token of a kind in front of what may follow it. -/
structure Reader (p : Scan (Token Text)) (kind : String → Prop) (follow : Text → Prop) : Prop where
  quiet : Quiet p
  found_iff : p s = .found t rest ↔
    kind t.text ∧ Reads [t.text] s rest ∧ follow rest ∧ t.place = s.skipLayout
  isLexeme : kind text → IsLexeme text
  compact : kind text → Compact text

theorem name_reader : Reader name IsIdentifier fun _ => True where
  quiet := quiet_token quiet_identifier
  found_iff := by simp [name_found_iff]
  isLexeme named := named.1.isLexeme
  compact named := IsWord.compact named.1

theorem literal_reader : Reader literal IsIntLiteral fun _ => True where
  quiet := quiet_token quiet_intLiteral
  found_iff := by simp [literal_found_iff]
  isLexeme number := number.isLexeme
  compact number := number.compact

theorem word_reader : Reader (token word) IsWord fun _ => True where
  quiet := quiet_token quiet_word
  found_iff := by simp [token_word_found_iff]
  isLexeme isWord := isWord.isLexeme
  compact isWord := IsWord.compact isWord

theorem reference_reader : Reader reference IsScopedName (Absent qualification) where
  quiet := quiet_token quiet_scopedName
  found_iff := reference_found_iff
  isLexeme chained := chained.isLexeme
  compact chained := chained.compact

theorem octetsKeyword_reader : Reader (token (do let text ← tag "octets"; boundary; pure text))
    (· = "octets") fun _ => True where
  quiet := quiet_octetsKeyword
  found_iff := by
    intro s ⟨text, place⟩ rest
    rw [octetsKeyword_found_iff]
    simp only [Token.mk.injEq, true_and]
    constructor
    · rintro ⟨⟨rfl, place⟩, reads⟩
      exact ⟨rfl, reads, place⟩
    · rintro ⟨rfl, reads, place⟩
      exact ⟨⟨rfl, place⟩, reads⟩
  isLexeme := by rintro _ rfl; exact (isWord_keyword .octets).isLexeme
  compact := by rintro _ rfl; exact compact_keyword .octets

end Grammar

namespace Parallel

open Scan Grammar

variable {R E : Text → Text → Prop} {f g : Text → π} (par : Parallel R E f g)
include par

theorem reads (isLexeme : IsLexeme t) (compact : Compact t) (related : R s s')
    (reads : Reads [t] s rest) : ∃ rest', Reads [t] s' rest' ∧ R rest rest' := by
  obtain ⟨same, ends⟩ := isLexeme.reads_iff.mp reads
  have skipped := par.forth.layout related
  rw [same] at skipped
  obtain ⟨rest', same', rests⟩ :=
    par.solids (fun c mem => solid_of_tokenChar (compact c mem)) skipped
  exact ⟨rest', isLexeme.reads_iff.mpr ⟨same', par.wordEnds rests ends⟩, rests⟩

theorem token_carries {p : Scan (Token Text)} (reader : Reader p kind follow)
    (follows : ∀ ⦃s s'⦄, R s s' → follow s → follow s') :
    Carries R (Alike (Token.map f) (Token.map g)) R p p := by
  intro s s' t rest related found
  obtain ⟨isKind, reads, next, place⟩ := reader.found_iff.mp found
  obtain ⟨rest', reads', rests⟩ :=
    par.reads (reader.isLexeme isKind) (reader.compact isKind) related reads
  refine ⟨⟨t.text, s'.skipLayout⟩, rest', ?_, ?_, rests⟩
  · exact reader.found_iff.mpr ⟨isKind, reads', follows rests next, rfl⟩
  · simp [Alike, Token.map, place, par.place (par.forth.layout related)]

theorem token_agree {p : Scan (Token Text)} (reader : Reader p kind follow)
    (follows : ∀ ⦃s s'⦄, R s s' → (follow s ↔ follow s')) :
    Respects R (Alike (Token.map f) (Token.map g)) R p :=
  .of_carries reader.quiet reader.quiet
    (par.token_carries reader fun _ _ related => (follows related).mp)
    (par.symm.token_carries reader fun _ _ related => (follows related).mpr)

theorem name_agree : Respects R (Alike (Token.map f) (Token.map g)) R name :=
  par.token_agree name_reader fun _ _ _ => .rfl

theorem literal_agree : Respects R (Alike (Token.map f) (Token.map g)) R literal :=
  par.token_agree literal_reader fun _ _ _ => .rfl

theorem word_agree : Respects R (Alike (Token.map f) (Token.map g)) R (token word) :=
  par.token_agree word_reader fun _ _ _ => .rfl

theorem octetsKeyword_agree : Respects R (Alike (Token.map f) (Token.map g)) R
    (token (do let text ← tag "octets"; boundary; pure text)) :=
  par.token_agree octetsKeyword_reader fun _ _ _ => .rfl

/-- A step into a scope stands directly behind what it continues, without layout. -/
theorem qualification_absent (related : R s s') (absent : Absent qualification s') :
    Absent qualification s := by
  refine quiet_qualification.absent fun q rest found => ?_
  obtain ⟨separator, name, joins, named, rfl, rfl, ends⟩ := qualification_found_iff.mp found
  have solid : ∀ c ∈ separator.toList ++ name.toList, isSolid c = true ∧ c ≠ '\x7d' := by
    intro c mem
    apply solid_of_tokenChar
    rcases List.mem_append.mp mem with mem | mem
    · rcases joins with rfl | rfl
      · exact (by decide : Compact "::") c mem
      · exact (by decide : Compact ".") c mem
    · exact IsWord.compact named.1 c mem
  obtain ⟨rest', rfl, rests⟩ := par.solids solid related
  exact absent.not_found (qualification_found_iff.mpr
    ⟨separator, name, joins, named, rfl, rfl, par.wordEnds rests ends⟩)

theorem reference_agree : Respects R (Alike (Token.map f) (Token.map g)) R reference :=
  par.token_agree reference_reader fun _ _ related =>
    ⟨par.symm.qualification_absent related, par.qualification_absent related⟩

theorem mark_carries (other : m ≠ .closeBrace) :
    Carries R (Alike id id) R (mark m) (mark m) := by
  intro s s' u rest related found
  have same := reads_mark_iff.mp (mark_found_iff.mp found)
  have skipped := par.forth.layout related
  rw [same] at skipped
  have notClose : m.char ≠ '\x7d' := by revert other; cases m <;> decide
  obtain ⟨rest', same', rests⟩ := par.forth.step (isSolid_mark m) notClose skipped
  exact ⟨u, rest', mark_found_iff.mpr (reads_mark_iff.mpr same'), rfl, rests⟩

theorem mark_agree (other : m ≠ .closeBrace) : Respects R (Alike id id) R (mark m) :=
  .of_carries (quiet_symbol m.text) (quiet_symbol m.text) (par.mark_carries other)
    (par.symm.mark_carries other)

theorem close_carries : Carries R (Alike id id) E (mark .closeBrace) (mark .closeBrace) := by
  intro s s' u rest related found
  have skipped := par.forth.layout related
  rw [reads_mark_iff.mp (mark_found_iff.mp found)] at skipped
  obtain ⟨rest', same, rests⟩ := par.forth.close skipped
  exact ⟨u, rest', mark_found_iff.mpr (reads_mark_iff.mpr same), rfl, rests⟩

theorem close_agree : Respects R (Alike id id) E (mark .closeBrace) :=
  .of_carries (quiet_symbol _) (quiet_symbol _) par.close_carries par.symm.close_carries

theorem keyword_carries (reserved : w ∈ reservedWords) :
    Carries R (Alike id id) R (keyword w) (keyword w) := by
  intro s s' u rest related found
  have isWord := isWord_reserved reserved
  obtain ⟨rest', reads, rests⟩ := par.reads isWord.isLexeme (IsWord.compact isWord) related
    ((keyword_found_iff reserved).mp found)
  exact ⟨u, rest', (keyword_found_iff reserved).mpr reads, rfl, rests⟩

theorem keyword_agree (reserved : w ∈ reservedWords) :
    Respects R (Alike id id) R (keyword w) :=
  .of_carries (quiet_keyword w) (quiet_keyword w) (par.keyword_carries reserved)
    (par.symm.keyword_carries reserved)

theorem primitiveType_carries :
    Carries R (Alike (ParseTree.TypeSpec.map f) (ParseTree.TypeSpec.map g)) R primitiveType
      primitiveType := by
  intro s s' t rest related found
  obtain ⟨kind, rfl, plain, reads⟩ := primitiveType_found_iff.mp found
  obtain ⟨rest', reads', rests⟩ :=
    par.reads (isWord_keyword kind).isLexeme (compact_keyword kind) related reads
  refine ⟨_, rest', primitiveType_found_iff.mpr ⟨kind, rfl, plain, reads'⟩, ?_, rests⟩
  simp [Alike, ParseTree.TypeSpec.map, Token.map, par.place (par.forth.layout related)]

theorem primitiveType_agree :
    Respects R (Alike (ParseTree.TypeSpec.map f) (ParseTree.TypeSpec.map g)) R primitiveType :=
  .of_carries quiet_primitiveType quiet_primitiveType par.primitiveType_carries
    par.symm.primitiveType_carries

theorem octetsType_agree :
    Respects R (Alike (ParseTree.TypeSpec.map f) (ParseTree.TypeSpec.map g)) R octetsType := by
  apply par.octetsKeyword_agree.bind
  intro keyword keyword' same
  apply ((par.mark_agree (by decide)).expecting _).andThen
  -- The size decides what is made of the keyword, so both sides make the same of keywords alike.
  have size : Respects R (fun sized sized' => ∀ k k', k.map f = k'.map g →
      (sized k).map f = (sized' k').map g) R octetsSize := by
    apply Agree.orElse
    · apply par.literal_agree.map
      intro size size' same k k' keywords
      simpa [ParseTree.TypeSpec.map] using ⟨keywords, same⟩
    · apply par.name_agree.map
      intro field field' same k k' keywords
      simpa [ParseTree.TypeSpec.map] using ⟨keywords, same⟩
  apply (size.expecting _).bind
  intro sized sized' sizes
  apply ((par.mark_agree (by decide)).expecting _).andThen
  exact .pure (sizes _ _ same)

theorem typeSpec_agree :
    Respects R (Alike (ParseTree.TypeSpec.map f) (ParseTree.TypeSpec.map g)) R typeSpec := by
  apply par.primitiveType_agree.orElse
  apply par.octetsType_agree.orElse
  apply par.reference_agree.map
  intro name name' same
  exact congrArg ParseTree.TypeSpec.named same

theorem member_agree :
    Respects R (Alike (ParseTree.Member.map f) (ParseTree.Member.map g)) R member := by
  apply par.typeSpec_agree.bind
  intro type type' types
  apply (par.name_agree.expecting _).bind
  intro name name' names
  apply ((par.mark_agree (by decide)).expecting _).andThen
  exact .pure (by simp [Alike, ParseTree.Member.map, types, names])

theorem members_agree :
    Respects R (Alike (List.map (ParseTree.Member.map f)) (List.map (ParseTree.Member.map g))) R
      member.many :=
  par.member_agree.many member_progress member_progress

theorem enumValue_agree :
    Respects R (Alike (ParseTree.EnumValue.map f) (ParseTree.EnumValue.map g)) R enumValue := by
  apply par.name_agree.bind
  intro name name' names
  have initializer := (par.mark_agree (m := .equals) (by decide)).andThen
    (par.literal_agree.expecting .integerLiteral)
  apply initializer.maybe.bind
  intro literal literal' literals
  exact .pure (by simp [Alike, ParseTree.EnumValue.map, names, literals])

theorem enum_agree :
    Respects R (Alike (ParseTree.Enum.map f) (ParseTree.Enum.map g)) E enum := by
  apply (par.keyword_agree (by decide)).andThen
  apply (par.name_agree.expecting _).bind
  intro name name' names
  apply ((par.mark_agree (by decide)).expecting _).andThen
  have further := (par.mark_agree (m := .comma) (by decide)).andThen par.enumValue_agree
  have values :=
    par.enumValue_agree.sepBy1 further furtherValue_progress furtherValue_progress
  apply (values.expecting _).bind
  intro values values' same
  apply (par.mark_agree (by decide)).maybe.andThen
  apply (par.close_agree.expecting _).andThen
  exact .pure (by simpa [Alike, ParseTree.Enum.map] using ⟨names, same⟩)

theorem typeId_agree : Respects R (Alike (Token.map f) (Token.map g)) R
    (do
      mark .openBracket
      let id ← literal.expecting .typeId
      (mark .closeBracket).expecting (.mark .closeBracket)
      pure id) := by
  apply (par.mark_agree (by decide)).andThen
  apply (par.literal_agree.expecting _).bind
  intro id id' same
  apply ((par.mark_agree (by decide)).expecting _).andThen
  exact .pure same

theorem struct_agree :
    Respects R (Alike (ParseTree.Struct.map f) (ParseTree.Struct.map g)) E struct := by
  apply (par.keyword_agree (by decide)).andThen
  apply (par.name_agree.expecting _).bind
  intro name name' names
  apply par.typeId_agree.maybe.bind
  intro typeId typeId' typeIds
  have supertype := (par.keyword_agree (w := "extends") (by decide)).andThen
    (par.reference_agree.expecting .supertypeName)
  apply supertype.maybe.bind
  intro supertype supertype' supertypes
  apply ((par.mark_agree (by decide)).expecting _).andThen
  apply par.members_agree.bind
  intro members members' same
  apply (par.close_agree.expecting _).andThen
  exact .pure (by simpa [Alike, ParseTree.Struct.map] using ⟨names, typeIds, supertypes, same⟩)

theorem unionCase_agree :
    Respects R (Alike (ParseTree.Case.map f) (ParseTree.Case.map g)) R unionCase := by
  apply (par.keyword_agree (by decide)).andThen
  apply (par.literal_agree.expecting _).bind
  intro value value' values
  apply ((par.mark_agree (by decide)).expecting _).andThen
  apply par.members_agree.bind
  intro members members' same
  exact .pure (by simpa [Alike, ParseTree.Case.map] using ⟨values, same⟩)

theorem switch_agree : Respects R (Alike (Token.map f) (Token.map g)) R
    (do
      keyword "switch"
      (mark .openParen).expecting (.mark .openParen)
      let type ← (token word).expecting .discriminantType
      (mark .closeParen).expecting (.mark .closeParen)
      pure type) := by
  apply (par.keyword_agree (by decide)).andThen
  apply ((par.mark_agree (by decide)).expecting _).andThen
  apply (par.word_agree.expecting _).bind
  intro type type' same
  apply ((par.mark_agree (by decide)).expecting _).andThen
  exact .pure same

theorem union_agree :
    Respects R (Alike (ParseTree.Union.map f) (ParseTree.Union.map g)) E union := by
  apply (par.keyword_agree (by decide)).andThen
  apply (par.name_agree.expecting _).bind
  intro name name' names
  apply par.switch_agree.maybe.bind
  intro type type' types
  apply ((par.mark_agree (by decide)).expecting _).andThen
  apply (par.unionCase_agree.many unionCase_progress unionCase_progress).bind
  intro cases cases' same
  apply (par.close_agree.expecting _).andThen
  exact .pure (by simpa [Alike, ParseTree.Union.map] using ⟨names, types, same⟩)

/-- Behind its closing brace a declaration may still have a mark. -/
theorem declaration_agree
    (behind : Respects E (Alike id id) E (mark .semicolon)) :
    Respects R (Alike (ParseTree.Declaration.map f) (ParseTree.Declaration.map g)) E declaration := by
  have kind : Respects R (Alike (ParseTree.Declaration.map f) (ParseTree.Declaration.map g)) E
      ((.enum <$> enum) <|> (.struct <$> struct) <|> (.union <$> union)) := by
    apply Agree.orElse
    · exact par.enum_agree.map fun _ _ same => congrArg ParseTree.Declaration.enum same
    apply Agree.orElse
    · exact par.struct_agree.map fun _ _ same => congrArg ParseTree.Declaration.struct same
    · exact par.union_agree.map fun _ _ same => congrArg ParseTree.Declaration.union same
  apply kind.bind
  intro d d' same
  apply behind.maybe.andThen
  exact .pure same

end Parallel
end SchemaLang
