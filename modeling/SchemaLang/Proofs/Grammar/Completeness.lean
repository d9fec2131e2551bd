import SchemaLang.Proofs.Grammar.Lookahead

/-! Whatever the grammar derives is found. A derivation and a text that spells it determine what
each recognizer does, given that what follows in the text cannot be taken for more of the same;
`follow` says so for each production, and the productions around it provide it. -/
namespace SchemaLang.Grammar

open Scan Phrase

/-- Texts up to `bound` that spell a derivation are read as its tree. The bound serves only the
nesting of scopes. -/
def Complete (p : Scan α) (view : α → β) (phrase : Phrase β) (follow : Text → Prop)
    (bound : Nat) : Prop :=
  ∀ ⦃s ts b rest⦄, s.length ≤ bound → phrase ts b → Reads ts s rest → follow rest →
    ∃ a, p s = .found a rest ∧ view a = b

/-- Between two constructs the next one follows, behind the last one none does. -/
theorem Complete.repeats {p : Scan α} (each : Complete p view phrase follow bound)
    (filled : ∀ ⦃ts b⦄, phrase ts b → ∃ t ∈ ts, t ≠ "")
    (starts : ∀ ⦃ts b s rest⦄, phrase ts b → Reads ts s rest → follow s)
    (small : s.length ≤ bound) (derived : Many phrase ts bs) (reads : Reads ts s rest)
    (next : follow rest) (absent : Absent p rest) :
    ∃ as, Repeats p s as rest ∧ as.map view = bs := by
  induction derived generalizing s with
  | nil =>
    obtain rfl := reads_nil_iff.mp reads
    exact ⟨[], .stop absent, rfl⟩
  | @cons ts b us bs first later ih =>
    obtain ⟨middle, reads, more⟩ := reads_append_iff.mp reads
    have between : follow middle := by
      cases later with
      | nil => exact reads_nil_iff.mp more ▸ next
      | cons second _ =>
        obtain ⟨_, more, -⟩ := reads_append_iff.mp more
        exact starts second more
    obtain ⟨t, member, nonempty⟩ := filled first
    have shorter := reads.length_lt member nonempty
    obtain ⟨a, found, rfl⟩ := each small first reads between
    obtain ⟨as, repeats, rfl⟩ := ih (by omega) more
    exact ⟨a :: as, .next found shorter repeats, rfl⟩

theorem Complete.many {p : Scan α} (each : Complete p view phrase follow bound)
    (filled : ∀ ⦃ts b⦄, phrase ts b → ∃ t ∈ ts, t ≠ "")
    (starts : ∀ ⦃ts b s rest⦄, phrase ts b → Reads ts s rest → follow s) :
    Complete p.many (List.map view) (Many phrase) (fun rest => follow rest ∧ Absent p rest)
      bound := by
  intro s ts bs rest small derived reads next
  obtain ⟨as, repeats, same⟩ := each.repeats filled starts small derived reads next.1 next.2
  exact ⟨as, repeats.many_found, same⟩

theorem Complete.maybe {p : Scan α} (each : Complete p view phrase follow bound) :
    Complete p.maybe (Option.map view) (Optional phrase)
      (fun rest => follow rest ∧ Absent p rest) bound := by
  intro s ts o rest small derived reads next
  cases derived with
  | none =>
    obtain rfl := reads_nil_iff.mp reads
    exact ⟨none, maybe_found_iff.mpr (.inr ⟨next.2, rfl, rfl⟩), rfl⟩
  | some derived =>
    obtain ⟨a, found, rfl⟩ := each small derived reads next.1
    exact ⟨some a, maybe_found_iff.mpr (.inl ⟨a, found, rfl⟩), rfl⟩

theorem trailing_complete {m : Mark} (trailing : Trailing m.text ts) (reads : Reads ts s rest)
    (absent : Absent (mark m) rest) : ∃ o, (mark m).maybe s = .found o rest := by
  cases trailing with
  | absent =>
    obtain rfl := reads_nil_iff.mp reads
    exact ⟨none, maybe_found_iff.mpr (.inr ⟨absent, rfl, rfl⟩)⟩
  | present =>
    exact ⟨some (), maybe_found_iff.mpr (.inl ⟨(), mark_found_iff.mpr reads, rfl⟩)⟩

theorem name_complete (named : IsIdentifier t) (reads : Reads [t] s rest) :
    name s = .found ⟨t, s.skipLayout⟩ rest :=
  name_found_iff.mpr ⟨named, reads, rfl⟩

theorem literal_complete (number : IsIntLiteral t) (reads : Reads [t] s rest) :
    literal s = .found ⟨t, s.skipLayout⟩ rest :=
  literal_found_iff.mpr ⟨number, reads, rfl⟩

theorem mark_complete {m : Mark} (reads : Reads [m.text] s rest) : mark m s = .found () rest :=
  mark_found_iff.mpr reads

theorem keyword_complete (reserved : w ∈ reservedWords) (reads : Reads [w] s rest) :
    keyword w s = .found () rest :=
  (keyword_found_iff reserved).mpr reads

theorem octetsType_found (keyword : Reads ["octets"] s afterKeyword)
    (opens : Reads ["["] afterKeyword afterOpen) (size : octetsSize afterOpen = .found sized afterSize)
    (closes : Reads ["]"] afterSize rest) :
    octetsType s = .found (sized ⟨"octets", s.skipLayout⟩) rest := by
  simp only [octetsType, bind_found_iff, expecting_found_iff, pure_found_iff,
    octetsKeyword_found_iff]
  exact ⟨_, _, ⟨rfl, keyword⟩, _, _, mark_complete opens, _, _, size, _, _, mark_complete closes,
    rfl, rfl⟩

theorem primitiveType_absent_of_octets (reads : Reads ["octets"] s rest) :
    Absent primitiveType s := by
  refine quiet_primitiveType.absent fun t _ found => ?_
  obtain ⟨kind, -, plain, first⟩ := primitiveType_found_iff.mp found
  have same := (isWord_keyword kind).reads_unique
    (isWord_keyword .octets) first reads
  revert same plain
  cases kind <;> decide

theorem typeSpec_octets (keyword : Reads ["octets"] s middle)
    (found : octetsType s = .found t rest) : typeSpec s = .found t rest :=
  orElse_right (primitiveType_absent_of_octets keyword) (orElse_left found)

theorem typeSpec_complete : Complete typeSpec (.map bare) Phrase.TypeSpec
    (Absent qualification) bound := by
  intro s ts type rest _ derived reads next
  cases derived with
  | @primitive kind plain =>
    have found := primitiveType_found_iff.mpr ⟨kind, rfl, plain, reads⟩
    exact ⟨_, orElse_left found, rfl⟩
  | fixed number =>
    obtain ⟨afterKeyword, keyword, reads⟩ := reads_cons_iff.mp reads
    obtain ⟨afterOpen, opens, reads⟩ := reads_cons_iff.mp reads
    obtain ⟨afterSize, size, closes⟩ := reads_cons_iff.mp reads
    have sized : octetsSize afterOpen = .found _ afterSize :=
      orElse_left (map_found _ (literal_complete number size))
    exact ⟨_, typeSpec_octets keyword (octetsType_found keyword opens sized closes), rfl⟩
  | sized named =>
    obtain ⟨afterKeyword, keyword, reads⟩ := reads_cons_iff.mp reads
    obtain ⟨afterOpen, opens, reads⟩ := reads_cons_iff.mp reads
    obtain ⟨afterSize, field, closes⟩ := reads_cons_iff.mp reads
    have sized : octetsSize afterOpen = .found _ afterSize :=
      orElse_right (map_absent (literal_absent named.1 ⟨_, field⟩))
        (map_found _ (name_complete named field))
    exact ⟨_, typeSpec_octets keyword (octetsType_found keyword opens sized closes), rfl⟩
  | @named name chained =>
    have builtin (p : Primitive) (other : Text) : ¬ Reads [p.keyword] s other := fun first =>
      chained.free reads (isWord_keyword p) first (keyword_reserved p)
    have notPrimitive : Absent primitiveType s := by
      refine quiet_primitiveType.absent fun t _ found => ?_
      obtain ⟨kind, -, -, first⟩ := primitiveType_found_iff.mp found
      exact builtin kind _ first
    have found : reference s = .found ⟨name, s.skipLayout⟩ rest :=
      reference_found_iff.mpr ⟨chained, reads, next, rfl⟩
    have notOctets : Absent octetsType s := octetsType_absent (builtin .octets)
    exact ⟨_, orElse_right notPrimitive (orElse_right notOctets (map_found _ found)), rfl⟩

theorem member_complete : Complete member (.map bare) Phrase.Member (fun _ => True) bound := by
  intro s ts m rest small derived reads _
  cases derived with
  | member typed named =>
    obtain ⟨middle, reads, more⟩ := reads_append_iff.mp reads
    obtain ⟨afterName, next, closes⟩ := reads_cons_iff.mp more
    have ends := named.qualification_absent next.opens
    obtain ⟨type, found, rfl⟩ := typeSpec_complete small typed reads ends
    simp only [member, bind_found_iff, expecting_found_iff, pure_found_iff]
    exact ⟨_, ⟨_, _, found, _, _, name_complete named next, _, _, mark_complete closes, rfl, rfl⟩,
      rfl⟩

theorem members_complete : Complete member.many (List.map (.map bare)) (Many Phrase.Member)
    (Absent member) bound := by
  intro s ts members rest small derived reads next
  refine member_complete.many ?_ (fun _ _ _ _ _ _ => trivial) small derived reads ⟨trivial, next⟩
  rintro _ _ ⟨⟩
  exact ⟨";", by simp, by decide⟩

theorem initializer_complete :
    Complete (do mark .equals; literal.expecting .integerLiteral) (Token.map bare)
      (After "=" (Terminal IsIntLiteral)) (fun _ => True) bound := by
  intro s ts t rest _ derived reads _
  cases derived with | token derived =>
  cases derived with | token number =>
  obtain ⟨middle, equals, value⟩ := reads_cons_iff.mp reads
  simp only [bind_found_iff, expecting_found_iff]
  exact ⟨_, ⟨_, _, mark_complete equals, literal_complete number value⟩, rfl⟩

theorem enumValue_complete : Complete enumValue (.map bare) Phrase.EnumValue
    (Absent (mark .equals)) bound := by
  intro s ts v rest small derived reads next
  cases derived with
  | value named initialized =>
    obtain ⟨middle, first, more⟩ := reads_cons_iff.mp reads
    have shorter := first.length_le
    obtain ⟨literal, found, rfl⟩ := initializer_complete.maybe (by omega) initialized more
      ⟨trivial, bind_absent next⟩
    simp only [enumValue, bind_found_iff, pure_found_iff]
    exact ⟨_, ⟨_, _, name_complete named first, _, _, found, rfl, rfl⟩, rfl⟩

theorem furtherValue_complete : Complete (do let _ ← mark .comma; enumValue) (.map bare)
    (After "," Phrase.EnumValue) (Absent (mark .equals)) bound := by
  intro s ts v rest small derived reads next
  cases derived with | token derived =>
  obtain ⟨middle, comma, more⟩ := reads_cons_iff.mp reads
  have shorter := comma.length_le
  obtain ⟨v, found, rfl⟩ := enumValue_complete (by omega) derived more next
  exact ⟨_, bind_found_iff.mpr ⟨_, _, mark_complete comma, found⟩, rfl⟩

/-- Behind an enum value there is a comma or the closing brace. -/
theorem opens_after_value (values : Many (After "," Phrase.EnumValue) ws more)
    (trailing : Trailing "," cs) (reads : Reads (ws ++ cs ++ ["\x7d"]) s rest) :
    Opens s "," ∨ Opens s "\x7d" := by
  cases values with
  | cons first _ =>
    cases first
    exact .inl reads.opens
  | nil =>
    cases trailing with
    | absent => exact .inr reads.opens
    | present => exact .inl reads.opens

theorem equals_absent (opens : Opens s "," ∨ Opens s "\x7d") : Absent (mark .equals) s := by
  rcases opens with comma | brace
  · exact mark_absent (n := .comma) comma (by decide)
  · exact mark_absent (n := .closeBrace) brace (by decide)

/-- A trailing comma is not taken for a separator. -/
theorem furtherValue_absent (trailing : Trailing "," cs) (reads : Reads (cs ++ ["\x7d"]) s rest) :
    Absent (do let _ ← mark .comma; enumValue) s := by
  cases trailing with
  | absent => exact bind_absent (mark_absent (n := .closeBrace) reads.opens (by decide))
  | present =>
    obtain ⟨middle, comma, brace⟩ := reads_cons_iff.mp reads
    have noName := name_absent (m := .closeBrace) brace.opens
    exact bind_absent_after (mark_complete comma) (bind_absent noName)

theorem enum_complete : Complete enum (.map bare) Phrase.Enum (fun _ => True) bound := by
  intro s ts e rest small derived reads _
  cases derived with
  | @enum name vs first ws others cs named value values trailing =>
    obtain ⟨s₁, opens, reads⟩ := reads_cons_iff.mp reads
    obtain ⟨s₂, next, reads⟩ := reads_cons_iff.mp reads
    obtain ⟨s₃, brace, reads⟩ := reads_cons_iff.mp reads
    rw [List.append_assoc, List.append_assoc] at reads
    obtain ⟨s₄, head, reads⟩ := reads_append_iff.mp reads
    obtain ⟨s₅, tail, closing⟩ := reads_append_iff.mp reads
    obtain ⟨s₆, comma, closes⟩ := reads_append_iff.mp closing
    have shorter := (((opens.append next).append brace).append head).length_le
    have afterHead : Absent (mark .equals) s₄ :=
      equals_absent (opens_after_value values trailing (by simpa using reads))
    have afterTail : Absent (mark .equals) s₅ :=
      equals_absent (opens_after_value .nil trailing (by simpa using closing))
    have stops := mark_absent (n := .closeBrace) (m := .comma) closes.opens (by decide)
    obtain ⟨first, found, rfl⟩ := enumValue_complete (Nat.le_refl _) value head afterHead
    obtain ⟨others, repeats, rfl⟩ := furtherValue_complete.many (by
        rintro _ _ ⟨⟩
        exact ⟨",", by simp, by decide⟩) (by
        rintro _ _ s _ ⟨⟩ reads
        exact mark_absent (n := .comma) reads.opens (by decide))
      (Nat.le_refl _) values tail ⟨afterTail, furtherValue_absent trailing closing⟩
    obtain ⟨_, skipped⟩ := trailing_complete (m := .comma) trailing comma stops
    simp only [enum, sepBy1, bind_found_iff, expecting_found_iff, pure_found_iff]
    exact ⟨_, ⟨_, _, keyword_complete (by decide) opens, _, _, name_complete named next, _, _,
      mark_complete brace, _, _, ⟨_, _, found, _, _, repeats, rfl, rfl⟩, _, _, skipped, _, _,
      mark_complete closes, rfl, rfl⟩, rfl⟩

theorem typeId_complete : Complete (do
      mark .openBracket
      let id ← literal.expecting .typeId
      (mark .closeBracket).expecting (.mark .closeBracket)
      pure id) (Token.map bare) TypeId (fun _ => True) bound := by
  intro s ts t rest _ derived reads _
  cases derived with | typeId number =>
  obtain ⟨s₁, opens, reads⟩ := reads_cons_iff.mp reads
  obtain ⟨s₂, value, closes⟩ := reads_cons_iff.mp reads
  simp only [bind_found_iff, expecting_found_iff, pure_found_iff]
  exact ⟨_, ⟨_, _, mark_complete opens, _, _, literal_complete number value, _, _,
    mark_complete closes, rfl, rfl⟩, rfl⟩

theorem supertype_complete :
    Complete (do keyword "extends"; reference.expecting .supertypeName) (Token.map bare)
      (After "extends" (Terminal IsScopedName)) (Absent qualification) bound := by
  intro s ts t rest _ derived reads next
  cases derived with | token derived =>
  cases derived with | @token name chained =>
  obtain ⟨s₁, extending, reads⟩ := reads_cons_iff.mp reads
  have found : reference s₁ = .found ⟨name, s₁.skipLayout⟩ rest :=
    reference_found_iff.mpr ⟨chained, reads, next, rfl⟩
  simp only [bind_found_iff, expecting_found_iff]
  exact ⟨_, ⟨_, _, keyword_complete (by decide) extending, found⟩, rfl⟩

/-- Without a type id the supertype or the body follows. -/
theorem openBracket_absent (derived : Optional (After "extends" phrase) es supertype)
    (reads : Reads (es ++ "\x7b" :: ts) s rest) : Absent (mark .openBracket) s := by
  cases derived with
  | none => exact mark_absent (n := .openBrace) reads.opens (by decide)
  | some derived =>
    cases derived with | token => exact mark_absent_of_word (by decide) reads.opens

theorem struct_complete : Complete struct (.map bare) Phrase.Struct (fun _ => True) bound := by
  intro s ts t rest _ derived reads _
  cases derived with
  | struct named identified extended members =>
    obtain ⟨s₁, opens, reads⟩ := reads_cons_iff.mp reads
    obtain ⟨s₂, next, reads⟩ := reads_cons_iff.mp reads
    rw [List.append_assoc] at reads
    obtain ⟨s₃, bracketed, reads⟩ := reads_append_iff.mp reads
    obtain ⟨s₄, extending, body⟩ := reads_append_iff.mp reads
    obtain ⟨s₅, brace, block⟩ := reads_cons_iff.mp body
    obtain ⟨s₆, inside, closes⟩ := reads_append_iff.mp block
    have noBracket : Absent (mark .openBracket) s₃ := openBracket_absent extended reads
    have noExtends : Absent (keyword "extends") s₄ :=
      keyword_absent_of_mark (m := .openBrace) (by decide) body.opens
    have noFurther : Absent qualification s₄ := body.opens.qualification_absent rfl (by decide)
    have noMember : Absent member s₆ := member_absent_of_mark (m := .closeBrace) closes.opens
    obtain ⟨typeId, foundId, rfl⟩ := typeId_complete.maybe (Nat.le_refl _) identified bracketed
      ⟨trivial, bind_absent noBracket⟩
    obtain ⟨supertype, foundSuper, rfl⟩ := supertype_complete.maybe (Nat.le_refl _) extended
      extending ⟨noFurther, bind_absent noExtends⟩
    obtain ⟨members, found, rfl⟩ := members_complete (Nat.le_refl _) members inside noMember
    simp only [struct, bind_found_iff, expecting_found_iff, pure_found_iff]
    exact ⟨_, ⟨_, _, keyword_complete (by decide) opens, _, _, name_complete named next, _, _,
      foundId, _, _, foundSuper, _, _, mark_complete brace, _, _, found, _, _,
      mark_complete closes, rfl, rfl⟩, rfl⟩

theorem unionCase_complete : Complete unionCase (.map bare) Phrase.Case (Absent member) bound := by
  intro s ts c rest _ derived reads next
  cases derived with
  | case number members =>
    obtain ⟨s₁, opens, reads⟩ := reads_cons_iff.mp reads
    obtain ⟨s₂, value, reads⟩ := reads_cons_iff.mp reads
    obtain ⟨s₃, colon, body⟩ := reads_cons_iff.mp reads
    obtain ⟨members, found, rfl⟩ := members_complete (Nat.le_refl _) members body next
    simp only [unionCase, bind_found_iff, expecting_found_iff, pure_found_iff]
    exact ⟨_, ⟨_, _, keyword_complete (by decide) opens, _, _, literal_complete number value, _, _,
      mark_complete colon, _, _, found, rfl, rfl⟩, rfl⟩

theorem switch_complete : Complete (do
      keyword "switch"
      (mark .openParen).expecting (.mark .openParen)
      let type ← (token word).expecting .discriminantType
      (mark .closeParen).expecting (.mark .closeParen)
      pure type) (Token.map bare) Switch (fun _ => True) bound := by
  intro s ts t rest _ derived reads _
  cases derived with
  | @switch type isWord =>
    obtain ⟨s₁, switches, reads⟩ := reads_cons_iff.mp reads
    obtain ⟨s₂, opens, reads⟩ := reads_cons_iff.mp reads
    obtain ⟨s₃, reads, closes⟩ := reads_cons_iff.mp reads
    have found : token word s₂ = .found ⟨type, s₂.skipLayout⟩ s₃ :=
      token_word_found_iff.mpr ⟨isWord, reads, rfl⟩
    simp only [bind_found_iff, expecting_found_iff, pure_found_iff]
    exact ⟨_, ⟨_, _, keyword_complete (by decide) switches, _, _, mark_complete opens, _, _, found,
      _, _, mark_complete closes, rfl, rfl⟩, rfl⟩

theorem cases_complete : Complete unionCase.many (List.map (.map bare)) (Many Phrase.Case)
    (fun rest => Absent member rest ∧ Absent unionCase rest) bound := by
  apply unionCase_complete.many
  · rintro _ _ ⟨⟩
    exact ⟨"case", by simp, by decide⟩
  · rintro _ _ s _ ⟨⟩ reads
    exact member_absent_of_case reads.opens

theorem union_complete : Complete union (.map bare) Phrase.Union (fun _ => True) bound := by
  intro s ts u rest _ derived reads _
  cases derived with
  | union named switched cases =>
    obtain ⟨s₁, opens, reads⟩ := reads_cons_iff.mp reads
    obtain ⟨s₂, next, reads⟩ := reads_cons_iff.mp reads
    obtain ⟨s₃, switching, body⟩ := reads_append_iff.mp reads
    obtain ⟨s₄, brace, block⟩ := reads_cons_iff.mp body
    obtain ⟨s₅, inside, closes⟩ := reads_append_iff.mp block
    have noSwitch : Absent (keyword "switch") s₃ :=
      keyword_absent_of_mark (m := .openBrace) (by decide) body.opens
    have noMember : Absent member s₅ := member_absent_of_mark (m := .closeBrace) closes.opens
    have noCase : Absent unionCase s₅ :=
      bind_absent (keyword_absent_of_mark (m := .closeBrace) (by decide) closes.opens)
    obtain ⟨type, foundType, rfl⟩ := switch_complete.maybe (Nat.le_refl _) switched switching
      ⟨trivial, bind_absent noSwitch⟩
    obtain ⟨cases, found, rfl⟩ := cases_complete (Nat.le_refl _) cases inside ⟨noMember, noCase⟩
    simp only [union, bind_found_iff, expecting_found_iff, pure_found_iff]
    exact ⟨_, ⟨_, _, keyword_complete (by decide) opens, _, _, name_complete named next, _, _,
      foundType, _, _, mark_complete brace, _, _, found, _, _, mark_complete closes, rfl, rfl⟩, rfl⟩

/-- The words that open a scope or a declaration. -/
def itemWords : List String := ["scope", "enum", "struct", "union"]

theorem declaration_head (derived : Phrase.Declaration ts d) :
    ∃ w us, ts = w :: us ∧ w ∈ itemWords ∧ w ≠ "scope" := by
  cases derived with
  | enum derived => cases derived; exact ⟨"enum", _, rfl, by decide, by decide⟩
  | struct derived => cases derived; exact ⟨"struct", _, rfl, by decide, by decide⟩
  | union derived => cases derived; exact ⟨"union", _, rfl, by decide, by decide⟩

theorem item_head (derived : Phrase.Item ts i) : ∃ w us, ts = w :: us ∧ w ∈ itemWords := by
  cases derived with
  | scope => exact ⟨"scope", _, rfl, by decide⟩
  | declaration derived =>
    obtain ⟨w, us, same, member, -⟩ := declaration_head derived
    exact ⟨w, us, same, member⟩

theorem itemWords_reserved (member : w ∈ itemWords) : w ∈ reservedWords ∧ w ≠ "" := by
  simp only [itemWords, List.mem_cons, List.not_mem_nil, or_false] at member
  rcases member with rfl | rfl | rfl | rfl <;> decide

theorem declaration_complete : Complete declaration (.map bare) Phrase.Declaration
    (Absent (mark .semicolon)) bound := by
  intro s ts d rest _ derived reads next
  simp only [declaration, bind_found_iff, pure_found_iff]
  cases derived with
  | enum derived trailing =>
    obtain ⟨middle, reads, semicolon⟩ := reads_append_iff.mp reads
    obtain ⟨e, found, rfl⟩ := enum_complete (Nat.le_refl _) derived reads trivial
    obtain ⟨_, skipped⟩ := trailing_complete (m := .semicolon) trailing semicolon next
    exact ⟨_, ⟨_, _, orElse_left (map_found _ found), _, _, skipped, rfl, rfl⟩, rfl⟩
  | struct derived trailing =>
    obtain ⟨middle, reads, semicolon⟩ := reads_append_iff.mp reads
    obtain ⟨t, found, rfl⟩ := struct_complete (Nat.le_refl _) derived reads trivial
    obtain ⟨_, skipped⟩ := trailing_complete (m := .semicolon) trailing semicolon next
    have opens : Opens s "struct" := by cases derived; exact reads.opens
    have noEnum : Absent enum s :=
      bind_absent (keyword_absent (by decide) (by decide) opens (by decide))
    exact ⟨_, ⟨_, _, orElse_right (map_absent noEnum) (orElse_left (map_found _ found)), _, _,
      skipped, rfl, rfl⟩, rfl⟩
  | union derived trailing =>
    obtain ⟨middle, reads, semicolon⟩ := reads_append_iff.mp reads
    obtain ⟨u, found, rfl⟩ := union_complete (Nat.le_refl _) derived reads trivial
    obtain ⟨_, skipped⟩ := trailing_complete (m := .semicolon) trailing semicolon next
    have opens : Opens s "union" := by cases derived; exact reads.opens
    have noEnum : Absent enum s :=
      bind_absent (keyword_absent (by decide) (by decide) opens (by decide))
    have noStruct : Absent struct s :=
      bind_absent (keyword_absent (by decide) (by decide) opens (by decide))
    exact ⟨_, ⟨_, _, orElse_right (map_absent noEnum) (orElse_right (map_absent noStruct)
      (map_found _ found)), _, _, skipped, rfl, rfl⟩, rfl⟩

theorem scope_absent (absent : Absent (keyword "scope") s) (bound : Nat) :
    Absent (scope bound) s := by
  cases bound with
  | zero => exact ⟨s, rfl⟩
  | succ bound => exact bind_absent absent

/-- What a scope holds, read where its scopes are read by `p`. -/
def itemWith (p : Scan (ParseTree.Scope Text)) : Scan (ParseTree.Item Text) :=
  ((fun s => .scope s.name s.items) <$> p) <|> (.declaration <$> declaration)

theorem item_complete
    (inner : Complete (scope level) (ParseTree.Scope.map bare) Phrase.Scope (fun _ => True) bound) :
    Complete (itemWith (scope level)) (.map bare) Phrase.Item (Absent (mark .semicolon)) bound := by
  intro s ts i rest small derived reads next
  cases derived with
  | scope named items =>
    obtain ⟨⟨name, items⟩, found, same⟩ := inner small (.scope named items) reads trivial
    refine ⟨_, orElse_left (map_found _ found), ?_⟩
    simp only [ParseTree.Scope.map, ParseTree.Scope.mk.injEq] at same
    simp [ParseTree.Item.map, same.1, same.2]
  | declaration derived =>
    obtain ⟨d, found, rfl⟩ := declaration_complete small derived reads next
    obtain ⟨w, us, rfl, member, different⟩ := declaration_head derived
    have noScope : Absent (keyword "scope") s :=
      keyword_absent (by decide) (itemWords_reserved member).1 reads.opens different
    exact ⟨_, orElse_right (map_absent (scope_absent noScope level)) (map_found _ found), rfl⟩

theorem item_absent (opens : Opens s "\x7d") : Absent (itemWith (scope level)) s := by
  have absent {w} (reserved : w ∈ reservedWords) : Absent (keyword w) s :=
    keyword_absent_of_mark (m := .closeBrace) reserved opens
  have noScope : Absent (scope level) s := scope_absent (absent (by decide)) level
  have noEnum : Absent enum s := bind_absent (absent (by decide))
  have noStruct : Absent struct s := bind_absent (absent (by decide))
  have noUnion : Absent union s := bind_absent (absent (by decide))
  apply orElse_absent
  · exact map_absent noScope
  apply map_absent
  apply bind_absent
  apply orElse_absent
  · exact map_absent noEnum
  apply orElse_absent
  · exact map_absent noStruct
  · exact map_absent noUnion

theorem items_complete
    (inner : Complete (scope level) (ParseTree.Scope.map bare) Phrase.Scope (fun _ => True) bound) :
    Complete (itemWith (scope level)).many (List.map (.map bare)) (Many Phrase.Item)
      (fun rest => Absent (mark .semicolon) rest ∧ Absent (itemWith (scope level)) rest) bound := by
  apply (item_complete inner).many
  · intro ts i derived
    obtain ⟨w, us, rfl, member⟩ := item_head derived
    exact ⟨w, by simp, (itemWords_reserved member).2⟩
  · intro ts i s rest derived reads
    obtain ⟨w, us, rfl, member⟩ := item_head derived
    exact mark_absent_of_word (itemWords_reserved member).1 reads.opens

/-- A scope is read under every bound that its text does not exceed, since the texts of the
scopes inside are shorter. -/
theorem scope_complete (bound : Nat) :
    Complete (scope bound) (.map bare) Phrase.Scope (fun _ => True) bound := by
  induction bound with
  | zero =>
    intro s ts c rest small derived reads _
    cases derived
    have shorter := reads.length_lt (List.mem_cons_self ..) (by decide)
    omega
  | succ bound ih =>
    intro s ts c rest small derived reads _
    cases derived with
    | scope named items =>
      obtain ⟨s₁, opens, reads⟩ := reads_cons_iff.mp reads
      obtain ⟨s₂, next, reads⟩ := reads_cons_iff.mp reads
      obtain ⟨s₃, brace, block⟩ := reads_cons_iff.mp reads
      obtain ⟨s₄, inside, closes⟩ := reads_append_iff.mp block
      have shorter := opens.length_lt (List.mem_cons_self ..) (by decide)
      have noLonger := (next.append brace).length_le
      have noSemicolon : Absent (mark .semicolon) s₄ :=
        mark_absent (n := .closeBrace) closes.opens (by decide)
      obtain ⟨items, found, rfl⟩ := items_complete ih (by omega) items inside
        ⟨noSemicolon, item_absent closes.opens⟩
      simp only [scope, scopeWith, bind_found_iff, expecting_found_iff, pure_found_iff]
      refine ⟨_, ⟨_, _, keyword_complete (by decide) opens, _, _, name_complete named next, _, _,
        mark_complete brace, _, _, found, _, _, mark_complete closes, rfl, rfl⟩, ?_⟩
      simp [ParseTree.Scope.map, ParseTree.Item.mapAll_eq, Token.map]

theorem scopes_complete (bound : Nat) : Complete (scope bound).many (List.map (.map bare))
    (Many Phrase.Scope) (Absent (keyword "scope")) bound := by
  intro s ts scopes rest small derived reads next
  refine (scope_complete bound).many ?_ (fun _ _ _ _ _ _ => trivial) small derived reads
    ⟨trivial, scope_absent next bound⟩
  rintro _ _ ⟨⟩
  exact ⟨"scope", by simp, by decide⟩

theorem keyword_absent_at_end (ended : s.skipLayout = []) (reserved : w ∈ reservedWords) :
    Absent (keyword w) s := by
  refine (quiet_keyword w).absent fun _ _ found => ?_
  have isWord := isWord_reserved reserved
  obtain ⟨same, -⟩ := isWord.isLexeme.reads_iff.mp ((keyword_found_iff reserved).mp found)
  obtain ⟨c, run, spelled, -⟩ := isWord
  simp [ended, spelled] at same

theorem recognize_complete (derived : Phrase.Specification ts tree) (reads : Reads ts s middle)
    (ends : Text.Gap middle []) :
    ∃ placed, recognize s = .found placed [] ∧ placed.map bare = tree := by
  cases derived with
  | scopes first others =>
    obtain ⟨afterFirst, reads, more⟩ := reads_append_iff.mp reads
    have ended := Text.gap_nil_iff.mp ends
    obtain ⟨c, head, rfl⟩ := scope_complete s.length (Nat.le_refl _) first reads trivial
    obtain ⟨cs, tail, rfl⟩ := scopes_complete s.length reads.length_le others more
      (keyword_absent_at_end ended (by decide))
    simp only [recognize, specification, many1, bind_found_iff, expecting_found_iff,
      pure_found_iff, layout_found_iff, ending_found_iff]
    exact ⟨_, ⟨_, _, ⟨_, _, head, _, _, tail, rfl, rfl⟩, (), _, ⟨(), _, rfl, ended, rfl⟩, rfl, rfl⟩,
      rfl⟩

end SchemaLang.Grammar
