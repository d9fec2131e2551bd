import SchemaLang.Proofs.Grammar.Progress
import SchemaLang.Proofs.ParseTree.Tokens

/-! The way of a recognizer through a text. It passes layout and single characters and collects the
tokens that the tree keeps, each at the place where it stands; so the tokens of a tree follow each
other in the text. -/
namespace SchemaLang

open Text (Gap LayoutUnit isSolid)

/-- What is passed between a text and a later rest of it, and the tokens collected on the way. -/
inductive Trail : Text → List (Token Text) → Text → Prop where
  | here : Trail s [] s
  | unit : LayoutUnit s middle → Trail middle ts rest → Trail s ts rest
  | solid : isSolid c = true → Trail s ts rest → Trail (c :: s) ts rest
  | token : (∀ c ∈ t.text.toList, isSolid c = true) → t.text ≠ "" →
      t.place = t.text.toList ++ middle → Trail middle ts rest → Trail t.place (t :: ts) rest

namespace Trail

theorem append (first : Trail s ts middle) (later : Trail middle us rest) :
    Trail s (ts ++ us) rest := by
  induction first with
  | here => exact later
  | unit unit _ ih => exact .unit unit (ih later)
  | solid solid _ ih => exact .solid solid (ih later)
  | token solid filled place _ ih => exact .token solid filled place (ih later)

theorem gap (gap : Gap s middle) (trail : Trail middle ts rest) : Trail s ts rest := by
  induction gap with
  | none => exact trail
  | unit unit _ ih => exact .unit unit (ih trail)

theorem layout (trail : Trail s.skipLayout ts rest) : Trail s ts rest :=
  .gap (Text.gap_skipLayout s) trail

theorem solids (solid : ∀ c ∈ w, isSolid c = true) (trail : Trail middle ts rest) :
    Trail (w ++ middle) ts rest := by
  induction w with
  | nil => exact trail
  | cons c w ih =>
    obtain ⟨first, others⟩ := List.forall_mem_cons.mp solid
    exact .solid first (ih others)

/-- The same way without a look at the tokens. -/
theorem passes (trail : Trail s ts rest) : Trail s [] rest := by
  induction trail with
  | here => exact .here
  | unit unit _ ih => exact .unit unit ih
  | solid solid _ ih => exact .solid solid ih
  | token solid _ place _ ih => exact place ▸ ih.solids solid

/-- Over layout the way comes to the next solid character. -/
theorem next (trail : Trail s ts rest) (passes : ts = []) (stop : rest = c :: tail)
    (solid : isSolid c = true) :
    ∃ d more, s.skipLayout = d :: more ∧ isSolid d = true ∧ Trail (d :: more) [] rest := by
  induction trail with
  | here =>
    subst stop
    exact ⟨c, tail, Text.skipLayout_solid solid, solid, .here⟩
  | unit unit _ ih =>
    obtain ⟨d, more, skipped, first, trail⟩ := ih passes stop
    exact ⟨d, more, (Text.skipLayout_unit unit).trans skipped, first, trail⟩
  | solid first trail _ =>
    subst passes
    exact ⟨_, _, Text.skipLayout_solid first, first, .solid first trail⟩
  | token => cases passes

/-- Over a solid character it goes on, unless it has come to its end. -/
theorem step (trail : Trail s ts rest) (passes : ts = []) (same : s = c :: more)
    (solid : isSolid c = true) : rest = c :: more ∨ Trail more [] rest := by
  cases trail with
  | here => exact .inl same
  | unit unit =>
    subst same
    simp [unit.hollow] at solid
  | solid _ trail =>
    obtain ⟨-, rfl⟩ := List.cons.inj same
    subst passes
    exact .inr trail
  | token => cases passes

theorem suffix (trail : Trail s ts rest) : rest <:+ s := by
  induction trail with
  | here => exact List.suffix_rfl
  | unit unit _ ih => exact ih.trans unit.suffix
  | solid _ _ ih => exact ih.trans (List.suffix_cons ..)
  | token _ _ place _ ih => exact ih.trans (place ▸ List.suffix_append ..)

theorem mem (trail : Trail s ts rest) (mem : t ∈ ts) :
    t.place <:+ s ∧ t.text.toList <+: t.place := by
  induction trail with
  | here => cases mem
  | unit unit _ ih => exact ⟨(ih mem).1.trans unit.suffix, (ih mem).2⟩
  | solid _ _ ih => exact ⟨(ih mem).1.trans (List.suffix_cons ..), (ih mem).2⟩
  | token _ _ place _ ih =>
    rcases List.mem_cons.mp mem with rfl | mem
    · exact ⟨List.suffix_rfl, place ▸ List.prefix_append ..⟩
    · exact ⟨(ih mem).1.trans (place ▸ List.suffix_append ..), (ih mem).2⟩

/-- A later token stands behind the text of an earlier one. -/
theorem apart (trail : Trail s ts rest) :
    ts.Pairwise fun t u => t.text ≠ "" ∧
      ∃ middle, t.place = t.text.toList ++ middle ∧ u.place <:+ middle := by
  induction trail with
  | here => exact .nil
  | unit _ _ ih => exact ih
  | solid _ _ ih => exact ih
  | token _ filled place trail ih =>
    exact .cons (fun u mem => ⟨filled, _, place, (trail.mem mem).1⟩) ih

/-- A later token stands further on. -/
theorem pairwise (trail : Trail s ts rest) :
    ts.Pairwise fun t u => u.place <:+ t.place ∧ u.place ≠ t.place := by
  refine trail.apart.imp fun {t u} ⟨filled, middle, place, inside⟩ => ?_
  refine ⟨place ▸ inside.trans (List.suffix_append ..), fun same => filled ?_⟩
  have longer := inside.length_le
  rw [same, place, List.length_append] at longer
  exact String.toList_eq_nil_iff.mp (List.length_eq_zero_iff.mp (by omega))

end Trail

theorem Compact.solid (compact : Compact t) : ∀ c ∈ t.toList, isSolid c = true :=
  fun c mem => isSolid_of_tokenChar (compact c mem)

/-- A lexeme that is read is passed without being kept. -/
theorem IsLexeme.trail (isLexeme : IsLexeme t) (compact : Compact t) (reads : Reads [t] s rest) :
    Trail s [] rest := by
  obtain ⟨same, -⟩ := isLexeme.reads_iff.mp reads
  exact .layout (same ▸ .solids compact.solid .here)

theorem IsLexeme.token_trail {t : Token Text} (isLexeme : IsLexeme t.text)
    (compact : Compact t.text) (reads : Reads [t.text] s rest) (place : t.place = s.skipLayout) :
    Trail s [t] rest := by
  obtain ⟨same, -⟩ := isLexeme.reads_iff.mp reads
  have filled : t.text ≠ "" := by
    obtain ⟨c, run, spelled, -⟩ := isLexeme
    intro empty
    simp [empty] at spelled
  exact .layout (place ▸ .token compact.solid filled (place.trans same) .here)

namespace Grammar

open Scan ParseTree

/-- What is found was passed, and its tokens were collected. -/
def Trails (p : Scan α) (tokens : α → List (Token Text)) : Prop :=
  ∀ ⦃s a rest⦄, p s = .found a rest → Trail s (tokens a) rest

theorem Trails.many {p : Scan α} (trails : Trails p tokens) : Trails p.many (·.flatMap tokens) := by
  intro s as rest found
  fun_induction Scan.many p s generalizing as rest with
  | case1 s a middle head shorter later tail same ih =>
    cases found
    simpa only [List.flatMap_cons] using (trails head).append (ih same)
  | case2 | case3 | case6 => cases found
  | case4 | case5 =>
    cases found
    exact .here

theorem Trails.maybe {p : Scan (Token Text)} (trails : Trails p fun t => [t]) :
    Trails p.maybe Option.toList := by
  intro s o rest found
  rcases maybe_found_iff.mp found with ⟨t, present, rfl⟩ | ⟨-, rfl, rfl⟩
  · exact trails present
  · exact .here

theorem mark_trails : Trails (mark m) fun _ => [] := by
  intro s _ rest found
  have same := reads_mark_iff.mp (mark_found_iff.mp found)
  exact .layout (same ▸ .solid (isSolid_mark m) .here)

theorem maybe_mark_trails : Trails (mark m).maybe fun _ => [] := by
  intro s o rest found
  rcases maybe_found_iff.mp found with ⟨_, present, -⟩ | ⟨-, rfl, -⟩
  · exact mark_trails present
  · exact .here

theorem keyword_trails (reserved : w ∈ reservedWords) : Trails (keyword w) fun _ => [] := by
  intro s _ rest found
  have isWord := isWord_reserved reserved
  exact isWord.isLexeme.trail (IsWord.compact isWord) ((keyword_found_iff reserved).mp found)

theorem name_trails : Trails name fun t => [t] := by
  intro s t rest found
  obtain ⟨named, reads, place⟩ := name_found_iff.mp found
  exact named.1.isLexeme.token_trail (IsWord.compact named.1) reads place

theorem literal_trails : Trails literal fun t => [t] := by
  intro s t rest found
  obtain ⟨number, reads, place⟩ := literal_found_iff.mp found
  exact number.isLexeme.token_trail number.compact reads place

theorem reference_trails : Trails reference fun t => [t] := by
  intro s t rest found
  obtain ⟨chained, reads, -, place⟩ := reference_found_iff.mp found
  exact chained.isLexeme.token_trail chained.compact reads place

theorem token_word_trails : Trails (token word) fun t => [t] := by
  intro s t rest found
  obtain ⟨isWord, reads, place⟩ := token_word_found_iff.mp found
  exact isWord.isLexeme.token_trail (IsWord.compact isWord) reads place

theorem keyword_token_trail (kind : Primitive) (reads : Reads [kind.keyword] s rest) :
    Trail s [⟨kind.keyword, s.skipLayout⟩] rest :=
  (isWord_keyword kind).isLexeme.token_trail (t := ⟨_, _⟩)
    (compact_keyword kind) reads rfl

theorem octetsType_trails : Trails octetsType TypeSpec.tokens := by
  intro s t rest found
  simp only [octetsType, octetsSize, bind_found_iff, expecting_found_iff, pure_found_iff,
    octetsKeyword_found_iff, orElse_found_iff, map_found_iff] at found
  obtain ⟨_, _, ⟨rfl, keyword⟩, _, _, opens, _, _, size, _, _, closes, rfl, rfl⟩ := found
  have opened := (keyword_token_trail .octets keyword).append (mark_trails opens)
  rcases size with ⟨size, found, rfl⟩ | ⟨-, field, found, rfl⟩
  · exact opened.append ((literal_trails found).append (mark_trails closes))
  · exact opened.append ((name_trails found).append (mark_trails closes))

theorem typeSpec_trails : Trails typeSpec TypeSpec.tokens := by
  intro s t rest found
  simp only [typeSpec, orElse_found_iff] at found
  rcases found with found | ⟨-, found | ⟨-, found⟩⟩
  · obtain ⟨kind, rfl, -, reads⟩ := primitiveType_found_iff.mp found
    exact keyword_token_trail kind reads
  · exact octetsType_trails found
  · obtain ⟨name, referred, rfl⟩ := map_found_iff.mp found
    exact reference_trails referred

theorem member_trails : Trails member Member.tokens := by
  intro s m rest found
  simp only [member, bind_found_iff, expecting_found_iff, pure_found_iff] at found
  obtain ⟨type, _, typed, name, _, named, _, _, closes, rfl, rfl⟩ := found
  exact (typeSpec_trails typed).append ((name_trails named).append (mark_trails closes))

theorem initializer_trails :
    Trails (do mark .equals; literal.expecting .integerLiteral) fun t => [t] := by
  intro s t rest found
  simp only [bind_found_iff, expecting_found_iff] at found
  obtain ⟨_, _, equals, found⟩ := found
  exact (mark_trails equals).append (literal_trails found)

theorem enumValue_trails : Trails enumValue EnumValue.tokens := by
  intro s v rest found
  simp only [enumValue, bind_found_iff, pure_found_iff] at found
  obtain ⟨name, _, named, literal, _, found, rfl, rfl⟩ := found
  exact (name_trails named).append (initializer_trails.maybe found)

theorem furtherValue_trails : Trails (do let _ ← mark .comma; enumValue) EnumValue.tokens := by
  intro s v rest found
  simp only [bind_found_iff] at found
  obtain ⟨_, _, comma, found⟩ := found
  exact (mark_trails comma).append (enumValue_trails found)

theorem enum_trails : Trails enum Enum.tokens := by
  intro s e rest found
  simp only [enum, sepBy1, bind_found_iff, expecting_found_iff, pure_found_iff] at found
  obtain ⟨_, _, opens, name, _, named, _, _, brace, values, _,
    ⟨first, _, head, others, _, tail, rfl, rfl⟩, _, _, comma, _, _, closes, rfl, rfl⟩ := found
  have header := (keyword_trails (by decide) opens).append
    ((name_trails named).append (mark_trails brace))
  have values := (enumValue_trails head).append (furtherValue_trails.many tail)
  have closed := (maybe_mark_trails comma).append (mark_trails closes)
  simpa [Enum.tokens] using header.append (values.append closed)

theorem typeId_trails : Trails (do
      mark .openBracket
      let id ← literal.expecting .typeId
      (mark .closeBracket).expecting (.mark .closeBracket)
      pure id) fun t => [t] := by
  intro s t rest found
  simp only [bind_found_iff, expecting_found_iff, pure_found_iff] at found
  obtain ⟨_, _, opens, _, _, value, _, _, closes, rfl, rfl⟩ := found
  exact (mark_trails opens).append ((literal_trails value).append (mark_trails closes))

theorem supertype_trails :
    Trails (do keyword "extends"; reference.expecting .supertypeName) fun t => [t] := by
  intro s t rest found
  simp only [bind_found_iff, expecting_found_iff] at found
  obtain ⟨_, _, extending, found⟩ := found
  exact (keyword_trails (by decide) extending).append (reference_trails found)

theorem struct_trails : Trails struct Struct.tokens := by
  intro s t rest found
  simp only [struct, bind_found_iff, expecting_found_iff] at found
  simp only [pure_found_iff] at found
  obtain ⟨_, _, opens, name, _, named, typeId, _, bracketed, supertype, _, extending, _, _, brace,
    members, _, body, _, _, closes, rfl, rfl⟩ := found
  have header := (keyword_trails (by decide) opens).append ((name_trails named).append
    ((typeId_trails.maybe bracketed).append (supertype_trails.maybe extending)))
  have block := (mark_trails brace).append ((member_trails.many body).append (mark_trails closes))
  simpa [Struct.tokens] using header.append block

theorem unionCase_trails : Trails unionCase Case.tokens := by
  intro s c rest found
  simp only [unionCase, bind_found_iff, expecting_found_iff, pure_found_iff] at found
  obtain ⟨_, _, opens, value, _, number, _, _, colon, members, _, body, rfl, rfl⟩ := found
  have header := (keyword_trails (by decide) opens).append (literal_trails number)
  exact header.append ((mark_trails colon).append (member_trails.many body))

theorem switch_trails : Trails (do
      keyword "switch"
      (mark .openParen).expecting (.mark .openParen)
      let type ← (token word).expecting .discriminantType
      (mark .closeParen).expecting (.mark .closeParen)
      pure type) fun t => [t] := by
  intro s t rest found
  simp only [bind_found_iff, expecting_found_iff, pure_found_iff] at found
  obtain ⟨_, _, switches, _, _, opens, _, _, type, _, _, closes, rfl, rfl⟩ := found
  have opened := (keyword_trails (by decide) switches).append (mark_trails opens)
  exact opened.append ((token_word_trails type).append (mark_trails closes))

theorem union_trails : Trails union Union.tokens := by
  intro s u rest found
  simp only [union, bind_found_iff, expecting_found_iff] at found
  simp only [pure_found_iff] at found
  obtain ⟨_, _, opens, name, _, named, type, _, switched, _, _, brace, cases, _, body, _, _, closes,
    rfl, rfl⟩ := found
  have header := (keyword_trails (by decide) opens).append
    ((name_trails named).append (switch_trails.maybe switched))
  have block := (mark_trails brace).append
    ((unionCase_trails.many body).append (mark_trails closes))
  simpa [Union.tokens] using header.append block

theorem declaration_trails : Trails declaration Declaration.tokens := by
  intro s d rest found
  simp only [declaration, bind_found_iff, pure_found_iff, orElse_found_iff, map_found_iff] at found
  obtain ⟨_, _, kind, _, _, semicolon, rfl, rfl⟩ := found
  rw [← List.append_nil (Declaration.tokens _)]
  refine Trail.append ?_ (maybe_mark_trails semicolon)
  rcases kind with ⟨e, found, rfl⟩ | ⟨-, ⟨t, found, rfl⟩ | ⟨-, u, found, rfl⟩⟩
  · exact enum_trails found
  · exact struct_trails found
  · exact union_trails found

theorem itemWith_trails (inner : Trails p Scope.tokens) : Trails (itemWith p) Item.tokens := by
  intro s i rest found
  simp only [itemWith, orElse_found_iff, map_found_iff] at found
  rcases found with ⟨c, found, rfl⟩ | ⟨-, d, found, rfl⟩
  · exact inner found
  · exact declaration_trails found

/-- Before its closing brace a scope has been passed with all its tokens. -/
theorem scopeWith_trail (inner : Trails p Scope.tokens) (found : scopeWith p s = .found c rest) :
    ∃ middle, Trail s c.tokens middle ∧ middle.skipLayout = '\x7d' :: rest := by
  simp only [scopeWith, bind_found_iff, expecting_found_iff, pure_found_iff] at found
  obtain ⟨_, _, opens, name, _, named, _, _, brace, items, middle, body, _, _, closes, rfl, rfl⟩ :=
    found
  have header := (keyword_trails (by decide) opens).append
    ((name_trails named).append (mark_trails brace))
  refine ⟨middle, ?_, reads_mark_iff.mp (mark_found_iff.mp closes)⟩
  rw [Scope.tokens, Item.allTokens_eq]
  exact header.append ((itemWith_trails inner).many body)

theorem scope_trails (bound : Nat) : Trails (scope bound) Scope.tokens := by
  induction bound with
  | zero => intro s c rest found; simp [scope, missing] at found
  | succ bound ih =>
    intro s c rest found
    obtain ⟨middle, trail, closes⟩ := scopeWith_trail ih found
    rw [← List.append_nil c.tokens]
    exact trail.append (.layout (closes ▸ .solid (by decide) .here))

theorem scope_trail {bound : Nat} (found : scope bound s = .found c rest) :
    ∃ middle, Trail s c.tokens middle ∧ middle.skipLayout = '\x7d' :: rest := by
  cases bound with
  | zero => simp [scope, missing] at found
  | succ bound => exact scopeWith_trail (scope_trails bound) found

theorem recognize_trail (found : recognize s = .found tree rest) :
    ∃ middle, Trail s tree.tokens middle := by
  obtain ⟨last, ⟨-, reads⟩, -⟩ := recognize_found_iff.mp found
  exact ⟨last, (scope_trails _).many reads.many_found⟩

end Grammar
end SchemaLang
