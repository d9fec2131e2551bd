import SchemaLang.Proofs.Grammar.Phrase
import SchemaLang.Proofs.Grammar.Reading

/-! Whatever a recognizer finds is spelled by tokens that the grammar derives. Greedy repetition
and ordered choice can only pick among derivations, so each production follows from its parts. -/
namespace SchemaLang

/-- Trees and tokens without their places. -/
abbrev bare : π → Unit := fun _ => ()

namespace Grammar

open Scan Phrase

def Sound (p : Scan α) (view : α → β) (phrase : Phrase β) : Prop :=
  ∀ ⦃s a rest⦄, p s = .found a rest → ∃ ts, Reads ts s rest ∧ phrase ts (view a)

theorem Sound.many {p : Scan α} (sound : Sound p view phrase) :
    Sound p.many (List.map view) (Many phrase) := by
  intro s as rest found
  fun_induction Scan.many p s generalizing as rest with
  | case1 s a middle head shorter later tail same ih =>
    cases found
    obtain ⟨ts, reads, derived⟩ := sound head
    obtain ⟨us, more, deriveds⟩ := ih same
    exact ⟨ts ++ us, reads.append more, .cons derived deriveds⟩
  | case2 | case3 | case6 => cases found
  | case4 | case5 =>
    cases found
    exact ⟨[], .nil, .nil⟩

theorem Sound.maybe {p : Scan α} (sound : Sound p view phrase) :
    Sound p.maybe (Option.map view) (Optional phrase) := by
  intro s o rest found
  rcases maybe_found_iff.mp found with ⟨a, present, rfl⟩ | ⟨-, rfl, rfl⟩
  · obtain ⟨ts, reads, derived⟩ := sound present
    exact ⟨ts, reads, .some derived⟩
  · exact ⟨[], .nil, .none⟩

theorem trailing_sound (found : (mark m).maybe s = .found o rest) :
    ∃ ts, Reads ts s rest ∧ Trailing m.text ts := by
  rcases maybe_found_iff.mp found with ⟨_, present, rfl⟩ | ⟨-, rfl, -⟩
  · exact ⟨[m.text], mark_found_iff.mp present, .present⟩
  · exact ⟨[], .nil, .absent⟩

theorem literal_sound : Sound literal (Token.map bare) (Terminal IsIntLiteral) := by
  intro s t rest found
  obtain ⟨number, reads, -⟩ := literal_found_iff.mp found
  exact ⟨[t.text], reads, .token number⟩

theorem reference_sound : Sound reference (Token.map bare) (Terminal IsScopedName) := by
  intro s t rest found
  obtain ⟨chained, reads, -, -⟩ := reference_found_iff.mp found
  exact ⟨[t.text], reads, .token chained⟩

theorem plainPrimitive?_eq_some_iff : plainPrimitive? w = some kind ↔
    w = kind.keyword.toList ∧ kind ≠ .octets := by
  unfold plainPrimitive?
  constructor
  · intro found
    split at found
    · cases found
    · rename_i other
      have same := Primitive.keyword_of_ofKeyword? found
      refine ⟨by simp [same], ?_⟩
      rintro rfl
      exact other found
  · rintro ⟨rfl, plain⟩
    rw [String.ofList_toList, Primitive.ofKeyword?_keyword]
    cases kind <;> simp_all

theorem primitiveType_found_iff : primitiveType s = .found t rest ↔
    ∃ kind, t = .primitive kind ⟨kind.keyword, s.skipLayout⟩ ∧ kind ≠ .octets ∧
      Reads [kind.keyword] s rest := by
  simp only [primitiveType, map_found_iff, Prod.exists, placed_found_iff, select_found_iff,
    plainPrimitive?_eq_some_iff]
  constructor
  · rintro ⟨_, kind, ⟨⟨_, found, rfl, plain⟩, rfl⟩, rfl⟩
    obtain ⟨same, -, ends⟩ := word_found_iff.mp found
    exact ⟨kind, rfl, plain, (isWord_keyword kind).isLexeme.reads_iff.mpr ⟨same, ends⟩⟩
  · rintro ⟨kind, rfl, plain, reads⟩
    exact ⟨_, kind, ⟨⟨_, (isWord_keyword kind).word_found reads, rfl, plain⟩, rfl⟩, rfl⟩

/-- The keyword that opens the octets of a member. -/
theorem octetsKeyword_found_iff :
    token (do let text ← tag "octets"; boundary; pure text) s = .found t rest ↔
      t = ⟨"octets", s.skipLayout⟩ ∧ Reads ["octets"] s rest := by
  have reads_iff : Reads ["octets"] s rest ↔ _ := (isWord_keyword .octets).isLexeme.reads_iff
  rw [token_found_iff, reads_iff]
  simp only [bind_found_iff, tag_found_iff, boundary_found_iff, pure_found_iff]
  constructor
  · rintro ⟨⟨_, _, ⟨rfl, cut⟩, _, _, ⟨rfl, ends⟩, same, rfl⟩, place⟩
    obtain ⟨text, _⟩ := t
    obtain rfl : "octets" = text := String.toList_inj.mp same
    exact ⟨by simpa using place, cut, ends⟩
  · rintro ⟨rfl, cut, ends⟩
    exact ⟨⟨_, _, ⟨rfl, cut⟩, (), _, ⟨rfl, ends⟩, rfl, rfl⟩, rfl⟩

theorem octetsType_sound : Sound octetsType (.map bare) Phrase.TypeSpec := by
  intro s t rest found
  simp only [octetsType, octetsSize, bind_found_iff, expecting_found_iff, pure_found_iff,
    octetsKeyword_found_iff, orElse_found_iff, map_found_iff] at found
  obtain ⟨_, _, ⟨rfl, keyword⟩, _, _, opens, _, _, size, _, _, closes, rfl, rfl⟩ := found
  have opens := mark_found_iff.mp opens
  have closes := mark_found_iff.mp closes
  rcases size with ⟨size, found, rfl⟩ | ⟨-, field, found, rfl⟩
  · obtain ⟨number, reads, -⟩ := literal_found_iff.mp found
    exact ⟨_, keyword.append (opens.append (reads.append closes)), .fixed number⟩
  · obtain ⟨named, reads, -⟩ := name_found_iff.mp found
    exact ⟨_, keyword.append (opens.append (reads.append closes)), .sized named⟩

theorem typeSpec_sound : Sound typeSpec (.map bare) Phrase.TypeSpec := by
  intro s t rest found
  simp only [typeSpec, orElse_found_iff] at found
  rcases found with found | ⟨-, found | ⟨-, found⟩⟩
  · obtain ⟨kind, rfl, plain, reads⟩ := primitiveType_found_iff.mp found
    exact ⟨_, reads, .primitive plain⟩
  · exact octetsType_sound found
  · obtain ⟨name, referred, rfl⟩ := map_found_iff.mp found
    obtain ⟨chained, reads, -, -⟩ := reference_found_iff.mp referred
    exact ⟨_, reads, .named chained⟩

theorem member_sound : Sound member (.map bare) Phrase.Member := by
  intro s m rest found
  simp only [member, bind_found_iff, expecting_found_iff, pure_found_iff] at found
  obtain ⟨type, _, typed, name, _, named, _, _, closes, rfl, rfl⟩ := found
  obtain ⟨ts, reads, derived⟩ := typeSpec_sound typed
  obtain ⟨named, next, -⟩ := name_found_iff.mp named
  exact ⟨_, reads.append (next.append (mark_found_iff.mp closes)), .member derived named⟩

theorem initializer_sound :
    Sound (do mark .equals; literal.expecting .integerLiteral) (Token.map bare)
      (After "=" (Terminal IsIntLiteral)) := by
  intro s t rest found
  simp only [bind_found_iff, expecting_found_iff] at found
  obtain ⟨_, _, equals, found⟩ := found
  obtain ⟨ts, reads, derived⟩ := literal_sound found
  exact ⟨_, (mark_found_iff.mp equals).append reads, .token derived⟩

theorem enumValue_sound : Sound enumValue (.map bare) Phrase.EnumValue := by
  intro s v rest found
  simp only [enumValue, bind_found_iff, pure_found_iff] at found
  obtain ⟨name, _, named, literal, _, found, rfl, rfl⟩ := found
  obtain ⟨named, reads, -⟩ := name_found_iff.mp named
  obtain ⟨ls, next, derived⟩ := initializer_sound.maybe found
  exact ⟨_, reads.append next, .value named derived⟩

theorem furtherValue_sound : Sound (do let _ ← mark .comma; enumValue) (.map bare)
    (After "," Phrase.EnumValue) := by
  intro s v rest found
  simp only [bind_found_iff] at found
  obtain ⟨_, _, comma, found⟩ := found
  obtain ⟨ts, reads, derived⟩ := enumValue_sound found
  exact ⟨_, (mark_found_iff.mp comma).append reads, .token derived⟩

/-- The parts of an enum that is found. -/
theorem enum_found (found : enum s = .found e rest) :
    ∃ body first middle others stop o close, e.values = first :: others ∧
      IsIdentifier e.name.text ∧ Reads ["enum", e.name.text, "\x7b"] s body ∧
      enumValue body = .found first middle ∧
      (do let _ ← mark .comma; enumValue).many middle = .found others stop ∧
      (mark .comma).maybe stop = .found o close ∧ Reads ["\x7d"] close rest := by
  simp only [enum, sepBy1, bind_found_iff, expecting_found_iff, pure_found_iff] at found
  obtain ⟨_, _, opens, name, _, named, _, body, brace, values, _,
    ⟨first, middle, head, others, stop, tail, rfl, rfl⟩, o, close, comma, _, _, closes, rfl, rfl⟩ :=
    found
  have opens := (keyword_found_iff (by decide)).mp opens
  obtain ⟨named, next, -⟩ := name_found_iff.mp named
  have header := opens.append (next.append (mark_found_iff.mp brace))
  exact ⟨body, first, middle, others, stop, o, close, rfl, named, header, head, tail, comma,
    mark_found_iff.mp closes⟩

theorem enum_sound : Sound enum (.map bare) Phrase.Enum := by
  intro s e rest found
  obtain ⟨body, first, middle, others, stop, o, close, held, named, header, head, tail, comma,
    closes⟩ := enum_found found
  obtain ⟨vs, reads, derived⟩ := enumValue_sound head
  obtain ⟨ws, more, deriveds⟩ := furtherValue_sound.many tail
  obtain ⟨cs, comma, trailing⟩ := trailing_sound comma
  have body := ((reads.append more).append comma).append closes
  obtain ⟨name, _⟩ := e
  obtain rfl := held
  exact ⟨_, header.append body, .enum named derived deriveds trailing⟩

theorem typeId_sound : Sound (do
      mark .openBracket
      let id ← literal.expecting .typeId
      (mark .closeBracket).expecting (.mark .closeBracket)
      pure id) (Token.map bare) TypeId := by
  intro s t rest found
  simp only [bind_found_iff, expecting_found_iff, pure_found_iff] at found
  obtain ⟨_, _, opens, _, _, value, _, _, closes, rfl, rfl⟩ := found
  obtain ⟨number, reads, -⟩ := literal_found_iff.mp value
  have closes := mark_found_iff.mp closes
  exact ⟨_, (mark_found_iff.mp opens).append (reads.append closes), .typeId number⟩

theorem supertype_sound :
    Sound (do keyword "extends"; reference.expecting .supertypeName) (Token.map bare)
      (After "extends" (Terminal IsScopedName)) := by
  intro s t rest found
  simp only [bind_found_iff, expecting_found_iff] at found
  obtain ⟨_, _, extending, found⟩ := found
  have extending := (keyword_found_iff (by decide)).mp extending
  obtain ⟨ts, reads, derived⟩ := reference_sound found
  exact ⟨_, extending.append reads, .token derived⟩

theorem struct_sound : Sound struct (.map bare) Phrase.Struct := by
  intro s t rest found
  simp only [struct, bind_found_iff, expecting_found_iff] at found
  simp only [pure_found_iff] at found
  obtain ⟨_, _, opens, name, _, named, typeId, _, bracketed, supertype, _, extending, _, _, brace,
    members, _, body, _, _, closes, rfl, rfl⟩ := found
  have opens := (keyword_found_iff (by decide)).mp opens
  obtain ⟨named, next, -⟩ := name_found_iff.mp named
  obtain ⟨is, bracketed, identified⟩ := typeId_sound.maybe bracketed
  obtain ⟨es, extending, derived⟩ := supertype_sound.maybe extending
  have brace := mark_found_iff.mp brace
  obtain ⟨ms, body, deriveds⟩ := member_sound.many body
  have block := brace.append (body.append (mark_found_iff.mp closes))
  exact ⟨_, opens.append (next.append ((bracketed.append extending).append block)),
    .struct named identified derived deriveds⟩

theorem unionCase_sound : Sound unionCase (.map bare) Phrase.Case := by
  intro s c rest found
  simp only [unionCase, bind_found_iff, expecting_found_iff, pure_found_iff] at found
  obtain ⟨_, _, opens, value, _, number, _, _, colon, members, _, body, rfl, rfl⟩ := found
  have opens := (keyword_found_iff (by decide)).mp opens
  obtain ⟨number, next, -⟩ := literal_found_iff.mp number
  obtain ⟨ms, body, deriveds⟩ := member_sound.many body
  exact ⟨_, opens.append (next.append ((mark_found_iff.mp colon).append body)),
    .case number deriveds⟩

theorem switch_sound : Sound (do
      keyword "switch"
      (mark .openParen).expecting (.mark .openParen)
      let type ← (token word).expecting .discriminantType
      (mark .closeParen).expecting (.mark .closeParen)
      pure type) (Token.map bare) Switch := by
  intro s t rest found
  simp only [bind_found_iff, expecting_found_iff, pure_found_iff] at found
  obtain ⟨_, _, switches, _, _, opens, _, _, type, _, _, closes, rfl, rfl⟩ := found
  have switches := (keyword_found_iff (by decide)).mp switches
  obtain ⟨isWord, reads, -⟩ := token_word_found_iff.mp type
  have closes := mark_found_iff.mp closes
  exact ⟨_, switches.append ((mark_found_iff.mp opens).append (reads.append closes)),
    .switch isWord⟩

theorem union_sound : Sound union (.map bare) Phrase.Union := by
  intro s u rest found
  simp only [union, bind_found_iff, expecting_found_iff] at found
  simp only [pure_found_iff] at found
  obtain ⟨_, _, opens, name, _, named, type, _, switched, _, _, brace, cases, _, body, _, _, closes,
    rfl, rfl⟩ := found
  have opens := (keyword_found_iff (by decide)).mp opens
  obtain ⟨named, next, -⟩ := name_found_iff.mp named
  obtain ⟨ss, switched, derived⟩ := switch_sound.maybe switched
  have brace := mark_found_iff.mp brace
  obtain ⟨cs, body, deriveds⟩ := unionCase_sound.many body
  have block := brace.append (body.append (mark_found_iff.mp closes))
  exact ⟨_, opens.append (next.append (switched.append block)), .union named derived deriveds⟩

theorem declaration_sound : Sound declaration (.map bare) Phrase.Declaration := by
  intro s d rest found
  simp only [declaration, bind_found_iff, pure_found_iff, orElse_found_iff, map_found_iff] at found
  obtain ⟨_, _, kind, _, _, semicolon, rfl, rfl⟩ := found
  obtain ⟨us, semicolon, trailing⟩ := trailing_sound semicolon
  rcases kind with ⟨e, found, rfl⟩ | ⟨-, ⟨t, found, rfl⟩ | ⟨-, u, found, rfl⟩⟩
  · obtain ⟨ts, reads, derived⟩ := enum_sound found
    exact ⟨_, reads.append semicolon, .enum derived trailing⟩
  · obtain ⟨ts, reads, derived⟩ := struct_sound found
    exact ⟨_, reads.append semicolon, .struct derived trailing⟩
  · obtain ⟨ts, reads, derived⟩ := union_sound found
    exact ⟨_, reads.append semicolon, .union derived trailing⟩

/-- The parts of a scope that is found. -/
theorem scopeWith_found (found : scopeWith p s = .found c rest) :
    ∃ body close, IsIdentifier c.name.text ∧ Reads ["scope", c.name.text, "\x7b"] s body ∧
      (((fun s => ParseTree.Item.scope s.name s.items) <$> p) <|>
        (ParseTree.Item.declaration <$> declaration)).many body = .found c.items close ∧
      Reads ["\x7d"] close rest := by
  simp only [scopeWith, bind_found_iff, expecting_found_iff, pure_found_iff] at found
  obtain ⟨_, _, opens, name, _, named, _, body, brace, _, close, items, _, _, closes, rfl, rfl⟩ :=
    found
  have opens := (keyword_found_iff (by decide)).mp opens
  obtain ⟨named, next, -⟩ := name_found_iff.mp named
  have header := opens.append (next.append (mark_found_iff.mp brace))
  exact ⟨body, close, named, header, items, mark_found_iff.mp closes⟩

theorem scopeWith_sound (inner : Sound p (ParseTree.Scope.map bare) Phrase.Scope) :
    Sound (scopeWith p) (ParseTree.Scope.map bare) Phrase.Scope := by
  have items : Sound (((fun s => .scope s.name s.items) <$> p) <|> (.declaration <$> declaration))
      (ParseTree.Item.map bare) Phrase.Item := by
    intro s i rest found
    simp only [orElse_found_iff, map_found_iff] at found
    rcases found with ⟨c, found, rfl⟩ | ⟨-, d, found, rfl⟩
    · obtain ⟨ts, reads, derived⟩ := inner found
      cases derived with | scope named deriveds => exact ⟨_, reads, .scope named deriveds⟩
    · obtain ⟨ts, reads, derived⟩ := declaration_sound found
      exact ⟨ts, reads, .declaration derived⟩
  intro s c rest found
  obtain ⟨body, close, named, header, found, closes⟩ := scopeWith_found found
  obtain ⟨ts, reads, deriveds⟩ := items.many found
  rw [← ParseTree.Item.mapAll_eq] at deriveds
  exact ⟨_, header.append (reads.append closes), .scope named deriveds⟩

theorem scope_sound (bound : Nat) : Sound (scope bound) (.map bare) Phrase.Scope := by
  induction bound with
  | zero => intro s c rest found; simp [scope, missing] at found
  | succ bound ih => exact scopeWith_sound ih

theorem ending_found_iff : ending s = .found u rest ↔ s = [] ∧ rest = [] := by
  cases s <;> simp [ending, eq_comm]

theorem recognize_sound (found : recognize s = .found tree rest) :
    ∃ ts middle, Reads ts s middle ∧ Text.Gap middle [] ∧ Phrase.Specification ts (tree.map bare) := by
  simp only [recognize, specification, many1, bind_found_iff, expecting_found_iff,
    pure_found_iff, layout_found_iff, ending_found_iff] at found
  obtain ⟨_, middle, ⟨first, _, head, others, _, tail, rfl, rfl⟩, _, _, ⟨_, _, rfl, ended, -⟩,
    rfl, -⟩ := found
  obtain ⟨ts, reads, derived⟩ := scope_sound _ head
  obtain ⟨us, more, deriveds⟩ := (scope_sound _).many tail
  exact ⟨ts ++ us, _, reads.append more, Text.gap_nil_iff.mpr ended, .scopes derived deriveds⟩

end Grammar
end SchemaLang
