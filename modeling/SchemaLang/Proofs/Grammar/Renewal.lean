import SchemaLang.Proofs.Grammar.Language
import SchemaLang.Proofs.Grammar.Renumbering

/-! The productions on a text with other literals beside its enum values. Each of them derives a tree
from what stands there, and that tree is the one of the first text but for these literals. -/
namespace SchemaLang

open Text

variable {number : ParseTree.EnumValue Text → Option String}

namespace Grammar

open Scan Phrase ParseTree

/-- Behind the literal that is written, if any, the reader goes on as if nothing stood there. -/
theorem initializer_passed {number : Option (Token Text)}
    (found : (do mark .equals; literal.expecting .integerLiteral).maybe (init ++ after) =
      .found number rest)
    (written : Initializer (number.map Token.text) init) (next : Reads [Mark.text m] rest last) :
    WordEnds after ∧ Gap rest after := by
  rcases maybe_found_iff.mp found with ⟨t, present, rfl⟩ | ⟨-, rfl, rfl⟩
  · simp only [bind_found_iff, expecting_found_iff] at present
    obtain ⟨_, _, equals, number⟩ := present
    obtain ⟨-, digits, -⟩ := literal_found_iff.mp number
    obtain ⟨rfl, ends⟩ := written.rest_eq ((mark_found_iff.mp equals).append digits)
    exact ⟨ends, .none⟩
  · cases written with
    | absent spacing =>
      have stops : WordEnds (m.char :: last) := wordEnds_cons.mpr (by cases m <;> decide)
      have behind : after.skipLayout = m.char :: last := by
        rw [← skipLayout_gap (spacing after)]
        exact reads_mark_iff.mp next
      exact ⟨(behind ▸ gap_skipLayout after).wordEnds stops, spacing after⟩

theorem enumValue_renumbered (found : enumValue s = .found v rest)
    (renumbered : Renumbered number (v :: vs) s s') (written : Written vs rest)
    (next : Reads [Mark.text m] rest last) :
    ∃ ts w rest', Reads ts s' rest' ∧ Phrase.EnumValue ts w ∧
      w.unnumbered = (v.map bare).unnumbered ∧ Nearby number vs rest rest' := by
  simp only [enumValue, bind_found_iff, pure_found_iff] at found
  obtain ⟨name, middle, named, literal, _, found, rfl, rfl⟩ := found
  obtain ⟨isName, first, place⟩ := name_found_iff.mp named
  obtain ⟨skipped, -⟩ := isName.1.isLexeme.reads_iff.mp first
  cases renumbered with
  | @value vs v before init after init' after' here old new others =>
    have filled : name.text.toList ≠ [] := by
      obtain ⟨c, run, same, -⟩ := isName.1
      simp [same]
    obtain rfl : middle = init ++ after :=
      List.append_cancel_left (skipped.symm.trans (place.symm.trans here))
    obtain ⟨ends, passed⟩ := initializer_passed found old next
    have ends' : WordEnds after' := by
      intro c head
      exact ends c (others.head written ▸ head)
    obtain ⟨ts, t, rest', reads, derived, passed'⟩ := new.read ends'
    have gap : Gap (before ++ name.place) name.place := by
      have gap := gap_skipLayout (before ++ name.place)
      rwa [← place] at gap
    have replaces : Replaces (name.text.toList ++ (init' ++ after')) name.place := by
      rw [show name.place = _ from here]
      exact .prepend filled
    exact ⟨_, _, rest', .cons (gap.swap rfl replaces) (.inr (new.wordEnds ends')) reads,
      .value isName derived, rfl, after, after', passed, passed', others⟩

/-- What is found in a text is derived from the text with other literals, up to them, and both go
on with what differs in the literals behind. -/
def Renews (p : Scan α) (values : α → List (EnumValue Text)) (view : α → β) (strip : β → β)
    (phrase : Phrase β) : Prop :=
  ∀ ⦃s a rest number vs s'⦄, p s = .found a rest → Renumbered number (values a ++ vs) s s' →
    Written vs rest → ∃ ts b rest', Reads ts s' rest' ∧ phrase ts b ∧
      strip b = strip (view a) ∧ Renumbered number vs rest rest'

/-- A construct without enum values stays what it is. -/
theorem Sound.renews {p : Scan α} {view : α → β} (sound : Sound p view phrase) (strip : β → β) :
    Renews p (fun _ => []) view strip phrase := by
  intro s a rest number vs s' found renumbered written
  obtain ⟨ts, reads, derived⟩ := sound found
  obtain ⟨rest', reads', others⟩ := renumbered.skip reads written
  exact ⟨ts, view a, rest', reads', derived, rfl, others⟩

theorem Renews.many {p : Scan α} (renews : Renews p values view strip phrase)
    (writes : Writes p values) :
    Renews p.many (List.flatMap values) (List.map view) (List.map strip) (Many phrase) := by
  intro s as rest number vs s' found renumbered written
  fun_induction Scan.many p s generalizing as rest s' with
  | case1 s a middle head shorter later tail same ih =>
    cases found
    rw [List.flatMap_cons, List.append_assoc] at renumbered
    obtain ⟨ts, b, middle', reads, derived, alike, between⟩ :=
      renews head renumbered (writes.many same written)
    obtain ⟨us, bs, rest', more, deriveds, alikes, others⟩ := ih same between written
    exact ⟨_, b :: bs, rest', reads.append more, .cons derived deriveds, by simp [alike, alikes],
      others⟩
  | case2 | case3 | case6 => cases found
  | case4 | case5 =>
    cases found
    exact ⟨[], [], s', .nil, .nil, rfl, renumbered⟩

theorem furtherValues_written (repeats : Repeats (do let _ ← mark .comma; enumValue) s values rest)
    (written : Written vs rest) : Written (values ++ vs) s := by
  simpa using furtherValue_writes.many repeats.many_found written

/-- Behind a value stands a comma or what stands behind all of them. -/
theorem furtherValues_next (repeats : Repeats (do let _ ← mark .comma; enumValue) s values rest)
    (next : Reads [Mark.text m] rest last) : ∃ n after, Reads [Mark.text n] s after := by
  cases repeats with
  | stop => exact ⟨m, last, next⟩
  | next found =>
    obtain ⟨_, after, comma, -⟩ := bind_found_iff.mp found
    exact ⟨.comma, after, mark_found_iff.mp comma⟩

/-- The values behind the first one. In front of each stands a comma. -/
theorem furtherValues_renumbered {values : List (EnumValue Text)}
    (repeats : Repeats (do let _ ← mark .comma; enumValue) s values rest)
    (nearby : Nearby number (values ++ vs) s s') (written : Written vs rest)
    (next : Reads [Mark.text m] rest last) :
    ∃ ts ws rest', Reads ts s' rest' ∧ Many (After "," Phrase.EnumValue) ts ws ∧
      ws.map EnumValue.unnumbered = (values.map (.map bare)).map EnumValue.unnumbered ∧
      Nearby number vs rest rest' := by
  induction repeats generalizing s' with
  | stop => exact ⟨[], [], s', .nil, .nil, rfl, nearby⟩
  | @next s v middle values rest found _ repeats ih =>
    obtain ⟨_, first, comma, found⟩ := bind_found_iff.mp found
    have further := furtherValues_written repeats written
    have all := enumValue_writes found further
    obtain ⟨n, after, goesOn⟩ := furtherValues_next repeats next
    obtain ⟨first', comma', here⟩ := nearby.mark (mark_found_iff.mp comma) all
    obtain ⟨ts, w, middle', reads, derived, alike, between⟩ :=
      enumValue_renumbered found here further goesOn
    obtain ⟨us, ws, rest', more, deriveds, alikes, others⟩ := ih between written next
    exact ⟨_, w :: ws, rest', (comma'.append reads).append more, .cons (.token derived) deriveds,
      by simp [alike, alikes], others⟩

/-- The end of an enum, with or without a trailing comma. -/
theorem closing_renumbered (comma : (mark .comma).maybe s = .found o middle)
    (brace : Reads ["\x7d"] middle rest) (written : Written vs rest) :
    (∃ m last, Reads [Mark.text m] s last) ∧ ∀ s', Nearby number vs s s' →
      ∃ cs rest', Reads (cs ++ ["\x7d"]) s' rest' ∧ Phrase.Trailing "," cs ∧
        Renumbered number vs rest rest' := by
  rcases maybe_found_iff.mp comma with ⟨_, present, -⟩ | ⟨-, rfl, -⟩
  · have comma := mark_found_iff.mp present
    have further := written.mono brace.suffix
    refine ⟨⟨.comma, middle, comma⟩, fun s' nearby => ?_⟩
    obtain ⟨middle', comma', between⟩ := nearby.mark comma further
    obtain ⟨rest', closes', others⟩ := between.skip brace written
    exact ⟨[","], rest', comma'.append closes', .present, others⟩
  · refine ⟨⟨.closeBrace, rest, brace⟩, fun s' nearby => ?_⟩
    obtain ⟨rest', closes', others⟩ := nearby.mark (m := .closeBrace) brace written
    exact ⟨[], rest', closes', .absent, others⟩

theorem enum_renews : Renews enum ParseTree.Enum.values (.map bare) ParseTree.Enum.unnumbered
    Phrase.Enum := by
  intro s e rest number vs s' found renumbered written
  obtain ⟨body, first, middle, others, stop, o, close, held, isName, header, head, tail, comma,
    closes⟩ := enum_found found
  have repeats := (many_found_iff furtherValue_progress).mp tail
  have later := trailing_writes comma (written.mono closes.suffix)
  have further := furtherValues_written repeats later
  have all := enumValue_writes head further
  obtain ⟨⟨m, last, ends⟩, close⟩ := closing_renumbered comma closes written
  obtain ⟨n, after, goesOn⟩ := furtherValues_next repeats ends
  rw [held] at renumbered
  obtain ⟨body', header', inside⟩ := renumbered.skip header all
  obtain ⟨us, w, middle', reads, derived, alike, between⟩ :=
    enumValue_renumbered head inside further goesOn
  obtain ⟨us', ws, stop', more, deriveds, alikes, nearby⟩ :=
    furtherValues_renumbered repeats between later ends
  obtain ⟨cs, rest', closed, trailing, others⟩ := close stop' nearby
  have block := (reads.append more).append closed
  rw [← List.append_assoc] at block
  refine ⟨_, ⟨⟨e.name.text, ()⟩, w :: ws⟩, rest', header'.append block, ?_, ?_, others⟩
  · exact .enum isName derived deriveds trailing
  · simp [ParseTree.Enum.unnumbered, ParseTree.Enum.map, Token.map, held, alike, alikes]

theorem declaration_renews : Renews declaration Declaration.values (.map bare)
    Declaration.unnumbered Phrase.Declaration := by
  intro s d rest number vs s' found renumbered written
  simp only [declaration, bind_found_iff, pure_found_iff, orElse_found_iff, map_found_iff] at found
  obtain ⟨d, middle, kind, _, _, semicolon, rfl, rfl⟩ := found
  have further := trailing_writes semicolon written
  obtain ⟨us, semicolon, trailing⟩ := trailing_sound semicolon
  obtain ⟨ts, b, middle', reads, derived, alike, between⟩ : ∃ ts b middle', Reads ts s' middle' ∧
      Phrase.Declaration (ts ++ us) b ∧ b.unnumbered = (d.map bare).unnumbered ∧
      Renumbered number vs middle middle' := by
    rcases kind with ⟨e, found, rfl⟩ | ⟨-, ⟨t, found, rfl⟩ | ⟨-, u, found, rfl⟩⟩
    · obtain ⟨ts, b, middle', reads, derived, alike, between⟩ :=
        enum_renews found renumbered further
      exact ⟨ts, _, middle', reads, .enum derived trailing,
        congrArg ParseTree.Declaration.enum alike, between⟩
    · obtain ⟨ts, b, middle', reads, derived, alike, between⟩ :=
        struct_sound.renews id found renumbered further
      exact ⟨ts, _, middle', reads, .struct derived trailing,
        congrArg ParseTree.Declaration.struct alike, between⟩
    · obtain ⟨ts, b, middle', reads, derived, alike, between⟩ :=
        union_sound.renews id found renumbered further
      exact ⟨ts, _, middle', reads, .union derived trailing,
        congrArg ParseTree.Declaration.union alike, between⟩
  obtain ⟨rest', semicolon', others⟩ := between.skip semicolon written
  exact ⟨_, b, rest', reads.append semicolon', derived, alike, others⟩

theorem itemWith_renews
    (inner : Renews p Scope.values (.map bare) Scope.unnumbered Phrase.Scope) :
    Renews (itemWith p) Item.values (.map bare) Item.unnumbered Phrase.Item := by
  intro s i rest number vs s' found renumbered written
  simp only [itemWith, orElse_found_iff, map_found_iff] at found
  rcases found with ⟨c, found, rfl⟩ | ⟨-, d, found, rfl⟩
  · obtain ⟨ts, b, rest', reads, derived, alike, others⟩ := inner found renumbered written
    cases derived with
    | scope named deriveds =>
      refine ⟨_, _, rest', reads, .scope named deriveds, ?_, others⟩
      simpa [Scope.unnumbered, ParseTree.Scope.map, Item.unnumbered, ParseTree.Item.map] using alike
  · obtain ⟨ts, b, rest', reads, derived, alike, others⟩ :=
      declaration_renews found renumbered written
    exact ⟨ts, _, rest', reads, .declaration derived, congrArg ParseTree.Item.declaration alike,
      others⟩

theorem scopeWith_renews (writes : Writes p Scope.values)
    (inner : Renews p Scope.values (.map bare) Scope.unnumbered Phrase.Scope) :
    Renews (scopeWith p) Scope.values (.map bare) Scope.unnumbered Phrase.Scope := by
  intro s c rest number vs s' found renumbered written
  obtain ⟨body, close, isName, header, items, closes⟩ := scopeWith_found found
  have further := written.mono closes.suffix
  rw [Scope.values, Item.allValues_eq] at renumbered
  obtain ⟨body', header', inside⟩ :=
    renumbered.skip header ((itemWith_writes writes).many items further)
  obtain ⟨ts, b, middle', reads, derived, alike, between⟩ :=
    (itemWith_renews inner).many (itemWith_writes writes) items inside further
  obtain ⟨rest', closes', others⟩ := between.skip closes written
  refine ⟨_, ⟨⟨c.name.text, ()⟩, b⟩, rest', header'.append (reads.append closes'),
    .scope isName derived, ?_, others⟩
  simp [Scope.unnumbered, ParseTree.Scope.map, Token.map, Item.allUnnumbered_eq, Item.mapAll_eq,
    alike]

theorem scope_renews (bound : Nat) :
    Renews (scope bound) Scope.values (.map bare) Scope.unnumbered Phrase.Scope := by
  induction bound with
  | zero => intro s c rest number vs s' found; simp [scope, missing] at found
  | succ bound ih => exact scopeWith_renews (scope_writes bound) ih

/-- With other literals beside its enum values the text is a schema as well, and its tree
differs in nothing else. -/
theorem recognize_renews (found : recognize s = .found tree rest)
    (renumbered : Renumbered number tree.values s s') :
    ∃ ts tree', Spells ts s' ∧ Phrase.Specification ts tree' ∧
      tree'.unnumbered = (tree.map bare).unnumbered := by
  obtain ⟨last, ⟨filled, repeats⟩, ended, rfl⟩ := recognize_found_iff.mp found
  obtain ⟨scopes⟩ := tree
  rw [← List.append_nil (ParseTree.Specification.values _)] at renumbered
  obtain ⟨ts, scopes', last', reads, derived, alike, same⟩ :=
    (scope_renews s.length).many (scope_writes s.length) repeats.many_found renumbered .nil
  cases same with
  | nil =>
    have spells : Spells ts s' := ⟨last, reads, gap_nil_iff.mpr ended⟩
    cases derived with
    | nil => exact absurd (List.map_eq_nil_iff.mp (List.map_eq_nil_iff.mp alike.symm)) filled
    | cons first others =>
      refine ⟨_, _, spells, .scopes first others, ?_⟩
      simpa [ParseTree.Specification.unnumbered, ParseTree.Specification.map] using alike

end Grammar
end SchemaLang
