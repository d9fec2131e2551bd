import SchemaLang.Proofs.Grammar.Progress
import SchemaLang.Proofs.Grammar.Replay
import SchemaLang.Proofs.ParseTree.Unnumbered

/-! How the values of enums stand in a text: one behind the other, each with its name and behind that
an equals sign with its literal, or nothing but layout. -/
namespace SchemaLang

open Text

/-- Layout whatever stands behind it. -/
def Text.Spacing (g : Text) : Prop := ∀ rest, Gap (g ++ rest) rest

/-- What is written behind the name of an enum value for its literal. -/
inductive Initializer : Option String → Text → Prop where
  | absent : Spacing g → Initializer none g
  | written : Spacing g → Spacing h → IsIntLiteral t →
      Initializer (some t) (g ++ '=' :: (h ++ t.toList))

/-- The values stand in the text one behind the other, each with its literal. -/
inductive Written : List (ParseTree.EnumValue Text) → Text → Prop where
  | nil : Written [] s
  | value {v : ParseTree.EnumValue Text} {before init after : Text} :
      v.name.text ≠ "" → v.name.place = v.name.text.toList ++ (init ++ after) →
      Initializer (v.literal.map Token.text) init → Written vs after →
      Written (v :: vs) (before ++ v.name.place)

theorem Written.mono (written : Written vs rest) (suffix : rest <:+ s) : Written vs s := by
  obtain ⟨u, rfl⟩ := suffix
  cases written with
  | nil => exact .nil
  | value filled place initializer others =>
    rw [← List.append_assoc]
    exact .value filled place initializer others

theorem spacing_nil : Spacing [] := fun _ => .none

/-- Layout in front of a character that ends no line comment is layout also in front of others. -/
theorem Text.Gap.spacing (gap : Gap s r) (same : s = u ++ r) (first : r.head? = some c)
    (plain : c ≠ '\n') : Spacing u := by
  intro rest
  induction gap generalizing u with
  | none =>
    obtain rfl : u = [] := by simpa using same
    exact .none
  | unit unit gap ih =>
    obtain ⟨v, rfl⟩ := gap.suffix
    obtain ⟨w, rfl⟩ := unit.suffix
    rw [← List.append_assoc] at same
    obtain rfl := List.append_cancel_right same
    rw [List.append_assoc]
    refine .unit (unit.swap rfl ?_) (ih rfl first)
    cases v with
    | nil => exact fun stops => absurd (stops c first) plain
    | cons => exact id

/-- Every literal can be written, and none as well. -/
theorem exists_initializer (numbers : ∀ t ∈ literal, IsIntLiteral t) :
    ∃ init, Initializer literal init := by
  cases literal with
  | none => exact ⟨[], .absent spacing_nil⟩
  | some t => exact ⟨_, .written spacing_nil spacing_nil (numbers t rfl)⟩

theorem wordEnds_of_hollow (hollow : isSolid c = false) : WordEnds (c :: s) := by
  rw [wordEnds_cons]
  cases inWord : isWordChar c with
  | false => rfl
  | true => simp [isSolid_of_wordChar inWord] at hollow

theorem Text.Gap.wordEnds (gap : Gap s rest) (ends : WordEnds rest) : WordEnds s := by
  rcases gap.head with rfl | ⟨c, tail, rfl, hollow⟩
  · exact ends
  · exact wordEnds_of_hollow hollow

theorem Initializer.wordEnds (initializer : Initializer literal init) (ends : WordEnds after) :
    WordEnds (init ++ after) := by
  cases initializer with
  | absent spacing => exact (spacing after).wordEnds ends
  | @written g h t spacing =>
    rw [List.append_assoc]
    exact (spacing _).wordEnds (wordEnds_cons.mpr (by decide))

theorem Initializer.reads (initializer : Initializer (some t) init) (ends : WordEnds after) :
    Reads ["=", t] (init ++ after) after := by
  cases initializer with
  | @written g h _ before between =>
    have equals : Gap (g ++ '=' :: (h ++ t.toList) ++ after)
        ("=".toList ++ (h ++ t.toList ++ after)) := by
      simpa using before ('=' :: (h ++ (t.toList ++ after)))
    refine .cons equals (.inl ⟨.equals, rfl⟩) (.cons ?_ (.inr ends) .nil)
    rw [List.append_assoc]
    exact between _

/-- Layout in front of a token that is read ends where the token begins. -/
theorem IsLexeme.rest_eq (isLexeme : IsLexeme t) (reads : Reads [t] s rest)
    (gap : Gap s (t.toList ++ after)) : rest = after := by
  obtain ⟨cut, -⟩ := isLexeme.reads_iff.mp reads
  obtain ⟨c, run, same, solid⟩ := isLexeme.solid
  rw [same, List.cons_append] at gap cut
  have ends := (gap_solid_iff solid).mp gap
  exact List.append_cancel_left (List.cons.inj (cut.symm.trans ends)).2

/-- The literal that is read behind a name is the one that is written there. -/
theorem Initializer.rest_eq (initializer : Initializer (some t) init)
    (reads : Reads ["=", t] (init ++ after) rest) : rest = after ∧ WordEnds after := by
  cases initializer with
  | @written g h _ before between number =>
    obtain ⟨middle, equals, literal⟩ := reads_cons_iff.mp reads
    have cut : Text.skipLayout _ = '=' :: middle := (reads_mark_iff (m := .equals)).mp equals
    rw [List.append_assoc, skipLayout_gap (before _), List.cons_append,
      skipLayout_solid (by decide)] at cut
    obtain rfl := (List.cons.inj cut).2
    rw [List.append_assoc] at literal
    obtain rfl := number.isLexeme.rest_eq literal (between _)
    exact ⟨rfl, (number.isLexeme.reads_iff.mp literal).2⟩

/-- A literal that is written is one of the grammar. -/
theorem Initializer.read (initializer : Initializer literal init) (ends : WordEnds after) :
    ∃ ts t rest, Reads ts (init ++ after) rest ∧
      Phrase.Optional (.After "=" (.Terminal IsIntLiteral)) ts t ∧ Gap rest after := by
  cases initializer with
  | absent spacing => exact ⟨[], none, _, .nil, .none, spacing after⟩
  | written before between number =>
    have initializer := Initializer.written before between number
    exact ⟨_, _, after, initializer.reads ends, .some (.token (.token number)), .none⟩

namespace Grammar

open Scan ParseTree

theorem initializer_written {number : Option (Token Text)}
    (found : (do mark .equals; literal.expecting .integerLiteral).maybe s = .found number rest) :
    ∃ init, s = init ++ rest ∧ Initializer (number.map Token.text) init := by
  rcases maybe_found_iff.mp found with ⟨t, present, rfl⟩ | ⟨-, rfl, rfl⟩
  · simp only [bind_found_iff, expecting_found_iff] at present
    obtain ⟨_, middle, equals, found⟩ := present
    obtain ⟨number, digits, -⟩ := literal_found_iff.mp found
    have before := (reads_singleton_iff.mp (mark_found_iff.mp equals)).1
    have between := (reads_singleton_iff.mp digits).1
    obtain ⟨c, run, spelled, solid⟩ := number.isLexeme.solid
    have plain : c ≠ '\n' := by
      rintro rfl
      revert solid
      decide
    obtain ⟨g, rfl⟩ := before.suffix
    obtain ⟨h, rfl⟩ := between.suffix
    refine ⟨g ++ '=' :: (h ++ t.text.toList), by simp; rfl, .written ?_ ?_ number⟩
    · exact before.spacing rfl rfl (by decide)
    · exact between.spacing rfl (by rw [spelled]; rfl) plain
  · exact ⟨[], rfl, .absent spacing_nil⟩

/-- What is found has its values written in front of those behind it. -/
def Writes (p : Scan α) (values : α → List (EnumValue Text)) : Prop :=
  ∀ ⦃s a rest vs⦄, p s = .found a rest → Written vs rest → Written (values a ++ vs) s

theorem Sound.writes {p : Scan α} (sound : Sound p view phrase) : Writes p fun _ => [] := by
  intro s a rest vs found written
  obtain ⟨ts, reads, -⟩ := sound found
  exact written.mono reads.suffix

theorem Writes.many {p : Scan α} (writes : Writes p values) :
    Writes p.many (List.flatMap values) := by
  intro s as rest vs found written
  fun_induction Scan.many p s generalizing as rest with
  | case1 s a middle head shorter later tail same ih =>
    cases found
    simpa using writes head (ih same written)
  | case2 | case3 | case6 => cases found
  | case4 | case5 =>
    cases found
    exact written

theorem enumValue_writes : Writes enumValue fun v => [v] := by
  intro s v rest vs found written
  simp only [enumValue, bind_found_iff, pure_found_iff] at found
  obtain ⟨name, middle, named, literal, _, found, rfl, rfl⟩ := found
  obtain ⟨isName, reads, place⟩ := name_found_iff.mp named
  obtain ⟨cut, -⟩ := isName.1.isLexeme.reads_iff.mp reads
  obtain ⟨init, rfl, initializer⟩ := initializer_written found
  obtain ⟨before, split⟩ := (gap_skipLayout s).suffix
  rw [← place] at split cut
  rw [← split]
  refine .value (v := ⟨name, literal⟩) ?_ cut initializer written
  intro empty
  obtain ⟨c, run, spelled, -⟩ := isName.1
  rw [show name.text = "" from empty] at spelled
  cases spelled

theorem furtherValue_writes : Writes (do let _ ← mark .comma; enumValue) fun v => [v] := by
  intro s v rest vs found written
  obtain ⟨_, _, comma, found⟩ := bind_found_iff.mp found
  exact (enumValue_writes found written).mono (mark_found_iff.mp comma).suffix

theorem trailing_writes : Writes (mark m).maybe fun _ => [] := by
  intro s o rest vs found written
  obtain ⟨_, reads, -⟩ := trailing_sound found
  exact written.mono reads.suffix

theorem enum_writes : Writes enum ParseTree.Enum.values := by
  intro s e rest vs found written
  obtain ⟨body, first, middle, others, stop, o, close, held, -, header, head, tail, comma, closes⟩ :=
    enum_found found
  have closed := trailing_writes comma (written.mono closes.suffix)
  have further := furtherValue_writes.many tail closed
  rw [List.flatMap_singleton'] at further
  rw [held]
  exact (enumValue_writes head further).mono header.suffix

theorem declaration_writes : Writes declaration Declaration.values := by
  intro s d rest vs found written
  simp only [declaration, bind_found_iff, pure_found_iff, orElse_found_iff, map_found_iff] at found
  obtain ⟨_, _, kind, _, _, semicolon, rfl, rfl⟩ := found
  have closed := trailing_writes semicolon written
  rcases kind with ⟨e, found, rfl⟩ | ⟨-, ⟨t, found, rfl⟩ | ⟨-, u, found, rfl⟩⟩
  · exact enum_writes found closed
  · exact struct_sound.writes found closed
  · exact union_sound.writes found closed

theorem itemWith_writes (inner : Writes p Scope.values) : Writes (itemWith p) Item.values := by
  intro s i rest vs found written
  simp only [itemWith, orElse_found_iff, map_found_iff] at found
  rcases found with ⟨c, found, rfl⟩ | ⟨-, d, found, rfl⟩
  · exact inner found written
  · exact declaration_writes found written

theorem scopeWith_writes (inner : Writes p Scope.values) : Writes (scopeWith p) Scope.values := by
  intro s c rest vs found written
  obtain ⟨body, close, -, header, items, closes⟩ := scopeWith_found found
  have closed := written.mono closes.suffix
  rw [Scope.values, Item.allValues_eq]
  exact ((itemWith_writes inner).many items closed).mono header.suffix

theorem scope_writes (bound : Nat) : Writes (scope bound) Scope.values := by
  induction bound with
  | zero => intro s c rest vs found; simp [scope, missing] at found
  | succ bound ih => exact scopeWith_writes ih

theorem recognize_written (found : recognize s = .found tree rest) : Written tree.values s := by
  obtain ⟨last, ⟨-, repeats⟩, -⟩ := recognize_found_iff.mp found
  have written := (scope_writes s.length).many repeats.many_found .nil
  rwa [List.append_nil] at written

end Grammar
end SchemaLang
