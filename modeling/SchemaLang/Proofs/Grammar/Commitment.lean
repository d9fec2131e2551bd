import SchemaLang.Proofs.Grammar.Attempt
import SchemaLang.Proofs.Grammar.Prediction
import SchemaLang.Proofs.Grammar.Replay
import SchemaLang.Proofs.Grammar.Trail
import SchemaLang.Proofs.Text.Place

/-! The commitment of the grammar. A construct that has begun is found or breaks the whole scan, and
the break is reported as it is, whatever is read around it. So a refusal carries a label of the
construct in which the text breaks, and never one of a construct around it. -/
namespace SchemaLang

open Scan Grammar

/-- A scoped name begins with an identifier. -/
theorem IsScopedName.opens (chained : IsScopedName t) (reads : Reads [t] s rest) :
    ∃ w, IsIdentifier w ∧ Opens s w := by
  cases chained with
  | name named => exact ⟨t, named, rest, reads⟩
  | @qualified v separator u named joins chained =>
    have ends := wordEnds_separator joins (u.toList ++ rest)
    obtain ⟨same, -⟩ :=
      (IsScopedName.qualified named joins chained).isLexeme.reads_iff.mp reads
    exact ⟨v, named, _, named.1.isLexeme.reads_iff.mpr ⟨by simpa using same, ends⟩⟩

namespace Grammar

/-- The parts of a schema that commit. The bound of a scope is that of the scopes inside. -/
inductive Construct where
  | scope (bound : Nat) | enum | struct | union | unionCase | member

namespace Construct

def Tree : Construct → Type
  | scope _ => ParseTree.Scope Text
  | enum => ParseTree.Enum Text
  | struct => ParseTree.Struct Text
  | union => ParseTree.Union Text
  | unionCase => ParseTree.Case Text
  | member => ParseTree.Member Text

def scan : (c : Construct) → Scan c.Tree
  | scope bound => Grammar.scope (bound + 1)
  | enum => Grammar.enum
  | struct => Grammar.struct
  | union => Grammar.union
  | unionCase => Grammar.unionCase
  | member => Grammar.member

/-- The words with which a construct begins. A member begins with its type. -/
def Opener : Construct → String → Prop
  | scope _, w => w = "scope"
  | enum, w => w = "enum"
  | struct, w => w = "struct"
  | union, w => w = "union"
  | unionCase, w => w = "case"
  | member, w => IsIdentifier w ∨ ∃ kind : Primitive, w = kind.keyword

def Begins (c : Construct) (s : Text) : Prop := ∃ w, c.Opener w ∧ Opens s w

/-- The labels of a construct itself, without those of the constructs inside. -/
def labels : Construct → List Expected
  | scope _ => [.scopeName, .mark .openBrace, .declarationOrClose]
  | enum => [.enumName, .mark .openBrace, .enumValue, .integerLiteral, .commaOrClose]
  | struct =>
    [.structName, .typeId, .mark .closeBracket, .supertypeName, .mark .openBrace, .memberOrClose]
  | union =>
    [.unionName, .mark .openParen, .discriminantType, .mark .closeParen, .mark .openBrace,
      .caseOrClose]
  | unionCase => [.caseDiscriminant, .mark .colon]
  | member =>
    [.mark .openBracket, .octetsSize, .mark .closeBracket, .memberName, .mark .semicolon]

end Construct

/-- The labels of the grammar: those of a schema as a whole and those of its constructs. -/
def labels : List Expected :=
  [.scope, .scopeOrEnd] ++
    [.scope 0, .enum, .struct, .union, .unionCase, .member].flatMap Construct.labels

/-- On the way through the text a construct has begun that breaks at the stop, with a label of its
own. -/
def Blamed (p : Scan α) (s stop : Text) (e : Expected) : Prop :=
  ∃ c t, Attempts (Construct.scan c) t p s ∧ t <:+ s ∧ c.Begins t ∧ c.scan t = .broken stop e ∧
    e ∈ c.labels

variable {p : Scan α} {p' : Scan β}

theorem Blamed.outward (blamed : Blamed p t stop e) (inside : t <:+ s)
    (attempts : ∀ ⦃c : Construct⦄ ⦃u⦄, Attempts c.scan u p t → Attempts c.scan u p' s) :
    Blamed p' s stop e := by
  obtain ⟨c, u, attempted, within, rest⟩ := blamed
  exact ⟨c, u, attempts attempted, within.trans inside, rest⟩

theorem Blamed.mem_labels (blamed : Blamed p s stop e) : e ∈ labels ∧ e ≠ .scope := by
  obtain ⟨c, -, -, -, -, -, mem⟩ := blamed
  have all : ∀ e ∈ c.labels, e ∈ labels ∧ e ≠ .scope := by
    cases c <;> simp [labels, Construct.labels]
  exact all e mem

/-- A recognizer leaves a rest of the text, and its break has one of the labels or is that of a
construct inside. -/
structure Blames (own : List Expected) (p : Scan α) : Prop where
  leaves : p s = .found a rest → rest <:+ s
  broken : p s = .broken stop e → e ∈ own ∨ Blamed p s stop e

namespace Blames

variable {own : List Expected}

theorem quiet (trails : Trails p tokens) (quiet : Quiet p) : Blames own p where
  leaves found := (trails found).suffix
  broken broken := absurd broken (quiet _ _ _)

theorem pure (a : α) : Blames own (pure a : Scan α) where
  leaves found := (pure_found_iff.mp found).2 ▸ List.suffix_rfl
  broken broken := absurd broken (quiet_pure a _ _ _)

theorem bind {f : α → Scan β} (first : Blames own p) (later : ∀ a, Blames own (f a)) :
    Blames own (p >>= f) where
  leaves found := by
    obtain ⟨a, middle, found, more⟩ := bind_found_iff.mp found
    exact ((later a).leaves more).trans (first.leaves found)
  broken := by
    intro s stop e broken
    rw [bind_apply] at broken
    cases same : p s with
    | found a middle =>
      simp only [same] at broken
      exact ((later a).broken broken).imp_right
        (·.outward (first.leaves same) fun _ _ => .next same)
    | absent => simp [same] at broken
    | broken =>
      simp only [same] at broken
      cases broken
      exact (first.broken same).imp_right (·.outward List.suffix_rfl fun _ _ => .first)

theorem map (blames : Blames own p) (g : α → β) : Blames own (g <$> p) := by
  rw [map_eq]
  exact blames.bind fun a => pure (g a)

theorem orElse {q : Scan α} (left : Blames own p) (right : Blames own q) :
    Blames own (p <|> q) where
  leaves found := by
    rcases orElse_found_iff.mp found with found | ⟨-, found⟩
    · exact left.leaves found
    · exact right.leaves found
  broken := by
    intro s stop e broken
    rw [orElse_apply] at broken
    cases same : p s with
    | found => simp [same] at broken
    | absent stop' =>
      simp only [same] at broken
      exact (right.broken broken).imp_right
        (·.outward List.suffix_rfl fun _ _ => .right ⟨stop', same⟩)
    | broken =>
      simp only [same] at broken
      cases broken
      exact (left.broken same).imp_right (·.outward List.suffix_rfl fun _ _ => .left)

theorem expecting (blames : Blames own p) (mem : e ∈ own) : Blames own (p.expecting e) where
  leaves found := blames.leaves (expecting_found_iff.mp found)
  broken := by
    intro s stop e' broken
    unfold Scan.expecting at broken
    cases same : p s with
    | found => simp [same] at broken
    | absent =>
      simp only [same] at broken
      cases broken
      exact .inl mem
    | broken =>
      simp only [same] at broken
      cases broken
      exact (blames.broken same).imp_right (·.outward List.suffix_rfl fun _ _ => .expecting)

theorem maybe (blames : Blames own p) : Blames own p.maybe where
  leaves found := by
    rcases maybe_found_iff.mp found with ⟨a, found, -⟩ | ⟨-, rfl, -⟩
    · exact blames.leaves found
    · exact List.suffix_rfl
  broken := by
    intro s stop e broken
    unfold Scan.maybe at broken
    cases same : p s with
    | found | absent => simp [same] at broken
    | broken =>
      simp only [same] at broken
      cases broken
      exact (blames.broken same).imp_right (·.outward List.suffix_rfl fun _ _ => .maybe)

theorem many (blames : Blames own p) : Blames own p.many where
  leaves := by
    intro s as rest found
    fun_induction Scan.many p s generalizing as rest with
    | case1 s a middle head shorter later tail same ih =>
      cases found
      exact (ih same).trans (blames.leaves head)
    | case2 | case3 | case6 => cases found
    | case4 | case5 =>
      cases found
      exact List.suffix_rfl
  broken := by
    intro s stop e broken
    fun_induction Scan.many p s with
    | case1 | case2 | case4 | case5 => cases broken
    | case3 s a middle head shorter stop' e' same ih =>
      cases broken
      exact (ih same).imp_right (·.outward (blames.leaves head) fun _ _ => .again head shorter)
    | case6 s stop' e' same =>
      cases broken
      exact (blames.broken same).imp_right (·.outward List.suffix_rfl fun _ _ => .once)

/-- The break of a construct that has begun is its own or that of a construct inside. -/
theorem construct {c : Construct} (blames : Blames c.labels c.scan)
    (begins : ∀ ⦃s stop e⦄, c.scan s = .broken stop e → c.Begins s) : Blames own c.scan where
  leaves := blames.leaves
  broken := by
    intro s stop e broken
    rcases blames.broken broken with mem | blamed
    · exact .inr ⟨c, s, .self, List.suffix_rfl, begins broken, broken, mem⟩
    · exact .inr blamed

end Blames

theorem name_blames : Blames own name := .quiet name_trails (quiet_token quiet_identifier)

theorem literal_blames : Blames own literal := .quiet literal_trails (quiet_token quiet_intLiteral)

theorem reference_blames : Blames own reference :=
  .quiet reference_trails (quiet_token quiet_scopedName)

theorem mark_blames (m : Mark) : Blames own (mark m) := .quiet mark_trails (quiet_symbol _)

theorem keyword_blames (reserved : w ∈ reservedWords) : Blames own (keyword w) :=
  .quiet (keyword_trails reserved) (quiet_keyword w)

/-- A construct with a keyword breaks only behind it. -/
theorem begins_of_broken {f : Unit → Scan α} {c : Construct} (reserved : w ∈ reservedWords)
    (opener : c.Opener w) (broken : (keyword w >>= f) s = .broken stop e) : c.Begins s := by
  rw [bind_apply] at broken
  cases same : keyword w s with
  | found u rest => exact ⟨w, opener, rest, (keyword_found_iff reserved).mp same⟩
  | absent => simp [same] at broken
  | broken stop e => exact absurd same (quiet_keyword w s stop e)

theorem octetsType_blames : Blames Construct.member.labels octetsType := by
  have keyword : Blames Construct.member.labels
      (token (do let text ← tag "octets"; boundary; pure text)) := by
    refine ⟨fun found => ?_, fun broken => absurd broken (quiet_octetsKeyword _ _ _)⟩
    exact (octetsKeyword_found_iff.mp found).2.suffix
  have size : Blames Construct.member.labels octetsSize :=
    (literal_blames.map _).orElse (name_blames.map _)
  apply keyword.bind
  intro keyword
  apply ((mark_blames _).expecting (by decide)).bind
  intro _
  apply (size.expecting (by decide)).bind
  intro sized
  exact ((mark_blames _).expecting (by decide)).bind fun _ => .pure _

theorem member_blames : Blames Construct.member.labels member := by
  have type : Blames Construct.member.labels typeSpec := by
    apply Blames.orElse
    · refine ⟨fun found => ?_, fun broken => absurd broken (quiet_primitiveType _ _ _)⟩
      obtain ⟨_, -, -, reads⟩ := primitiveType_found_iff.mp found
      exact reads.suffix
    · exact octetsType_blames.orElse (reference_blames.map _)
  apply type.bind
  intro type
  apply (name_blames.expecting (by decide)).bind
  intro name
  exact ((mark_blames _).expecting (by decide)).bind fun _ => .pure _

theorem member_begins (broken : member s = .broken stop e) : Construct.member.Begins s := by
  by_contra other
  have absent : Absent member s := by
    refine bind_absent (typeSpec_absent (fun kind rest reads => ?_) fun t rest chained reads => ?_)
    · exact other ⟨kind.keyword, .inr ⟨kind, rfl⟩, rest, reads⟩
    · obtain ⟨w, named, opens⟩ := chained.opens reads
      exact other ⟨w, .inl named, opens⟩
  obtain ⟨stop', absent⟩ := absent
  simp [absent] at broken

theorem member_blamed : Blames own member :=
  .construct (c := .member) member_blames fun _ _ _ broken => member_begins broken

theorem enum_blamed : Blames own enum := by
  refine .construct (c := .enum) ?_ fun _ _ _ => begins_of_broken (by decide) rfl
  have initializer : Blames Construct.enum.labels
      (do mark .equals; literal.expecting .integerLiteral) :=
    (mark_blames _).bind fun _ => literal_blames.expecting (by decide)
  have value : Blames Construct.enum.labels enumValue :=
    name_blames.bind fun _ => initializer.maybe.bind fun _ => .pure _
  have values : Blames Construct.enum.labels (enumValue.sepBy1 (mark .comma)) :=
    value.bind fun _ => ((mark_blames _).bind fun _ => value).many.bind fun _ => .pure _
  apply (keyword_blames (by decide)).bind
  intro _
  apply (name_blames.expecting (by decide)).bind
  intro name
  apply ((mark_blames _).expecting (by decide)).bind
  intro _
  apply (values.expecting (by decide)).bind
  intro values
  apply (mark_blames _).maybe.bind
  intro _
  exact ((mark_blames _).expecting (by decide)).bind fun _ => .pure _

theorem struct_blamed : Blames own struct := by
  refine .construct (c := .struct) ?_ fun _ _ _ => begins_of_broken (by decide) rfl
  have typeId : Blames Construct.struct.labels (do
      mark .openBracket
      let id ← literal.expecting .typeId
      (mark .closeBracket).expecting (.mark .closeBracket)
      pure id) :=
    (mark_blames _).bind fun _ => (literal_blames.expecting (by decide)).bind fun _ =>
      ((mark_blames _).expecting (by decide)).bind fun _ => .pure _
  have supertype : Blames Construct.struct.labels
      (do keyword "extends"; reference.expecting .supertypeName) :=
    (keyword_blames (by decide)).bind fun _ => reference_blames.expecting (by decide)
  apply (keyword_blames (by decide)).bind
  intro _
  apply (name_blames.expecting (by decide)).bind
  intro name
  apply typeId.maybe.bind
  intro typeId
  apply supertype.maybe.bind
  intro supertype
  apply ((mark_blames _).expecting (by decide)).bind
  intro _
  apply member_blamed.many.bind
  intro members
  exact ((mark_blames _).expecting (by decide)).bind fun _ => .pure _

theorem unionCase_blamed : Blames own unionCase := by
  refine .construct (c := .unionCase) ?_ fun _ _ _ => begins_of_broken (by decide) rfl
  apply (keyword_blames (by decide)).bind
  intro _
  apply (literal_blames.expecting (by decide)).bind
  intro value
  apply ((mark_blames _).expecting (by decide)).bind
  intro _
  exact member_blamed.many.bind fun _ => .pure _

theorem union_blamed : Blames own union := by
  refine .construct (c := .union) ?_ fun _ _ _ => begins_of_broken (by decide) rfl
  have header : Blames Construct.union.labels (do
      keyword "switch"
      (mark .openParen).expecting (.mark .openParen)
      let type ← (token word).expecting .discriminantType
      (mark .closeParen).expecting (.mark .closeParen)
      pure type) := by
    apply (keyword_blames (by decide)).bind
    intro _
    apply ((mark_blames _).expecting (by decide)).bind
    intro _
    apply ((Blames.quiet token_word_trails (quiet_token quiet_word)).expecting (by decide)).bind
    intro type
    exact ((mark_blames _).expecting (by decide)).bind fun _ => .pure _
  apply (keyword_blames (by decide)).bind
  intro _
  apply (name_blames.expecting (by decide)).bind
  intro name
  apply header.maybe.bind
  intro type
  apply ((mark_blames _).expecting (by decide)).bind
  intro _
  apply unionCase_blamed.many.bind
  intro cases
  exact ((mark_blames _).expecting (by decide)).bind fun _ => .pure _

theorem declaration_blamed : Blames own declaration := by
  have kinds : Blames own (ParseTree.Declaration.enum <$> enum
      <|> .struct <$> struct <|> .union <$> union) :=
    (enum_blamed.map _).orElse ((struct_blamed.map _).orElse (union_blamed.map _))
  exact kinds.bind fun _ => (mark_blames _).maybe.bind fun _ => .pure _

theorem scope_blamed (bound : Nat) : Blames own (scope bound) := by
  induction bound generalizing own with
  | zero => exact ⟨nofun, nofun⟩
  | succ bound ih =>
    refine .construct (c := .scope bound) ?_ fun _ _ _ => begins_of_broken (by decide) rfl
    have items : Blames (Construct.scope bound).labels (itemWith (scope bound)).many :=
      ((ih.map _).orElse (declaration_blamed.map _)).many
    apply (keyword_blames (by decide)).bind
    intro _
    apply (name_blames.expecting (by simp [Construct.labels])).bind
    intro name
    apply ((mark_blames _).expecting (by simp [Construct.labels])).bind
    intro _
    apply items.bind
    intro items
    exact ((mark_blames _).expecting (by simp [Construct.labels])).bind fun _ => .pure _

theorem keyword_certain {f : Unit → Scan α} (reserved : w ∈ reservedWords) (opens : Opens s w)
    (later : ∀ u, Certain (f u)) : ¬ Absent (keyword w >>= f) s := by
  intro absent
  obtain ⟨rest, reads⟩ := opens
  rcases bind_absent_cases absent with absent | ⟨u, middle, -, absent⟩
  · exact absent.not_found ((keyword_found_iff (u := ()) reserved).mpr reads)
  · exact later u middle absent

theorem typeSpec_begun (begins : Construct.member.Begins s) : ¬ Absent typeSpec s := by
  obtain ⟨w, named | ⟨kind, rfl⟩, rest, reads⟩ := begins
  · intro absent
    obtain ⟨t, rest', found⟩ := reference_of_name named reads
    exact (orElse_absent_cases (orElse_absent_cases absent).2).2.not_found (map_found _ found)
  · intro absent
    by_cases octets : kind = .octets
    · subst octets
      have committed := (orElse_absent_cases (orElse_absent_cases absent).2).1
      rcases bind_absent_cases committed with absent | ⟨keyword, middle, -, absent⟩
      · exact absent.not_found (octetsKeyword_found_iff.mpr ⟨rfl, reads⟩)
      · refine Certain.bind (certain_expecting _ _) (fun _ => ?_) middle absent
        exact (certain_expecting _ _).bind fun _ =>
          (certain_expecting _ _).bind fun _ => certain_pure _
    · exact (orElse_absent_cases absent).1.not_found
        (primitiveType_found_iff.mpr ⟨kind, rfl, octets, reads⟩)

/-- A construct that has begun is not absent. -/
theorem Construct.Begins.certain {c : Construct} (begins : c.Begins s) : ¬ Absent c.scan s := by
  cases c with
  | member =>
    intro absent
    rcases bind_absent_cases absent with absent | ⟨type, middle, -, absent⟩
    · exact typeSpec_begun begins absent
    · refine Certain.bind (certain_expecting _ _) (fun _ => ?_) middle absent
      exact (certain_expecting _ _).bind fun _ => certain_pure _
  | scope bound =>
    obtain ⟨_, rfl, opens⟩ := begins
    refine keyword_certain (by decide) opens fun _ => ?_
    exact (certain_expecting _ _).bind fun _ => (certain_expecting _ _).bind fun _ =>
      (certain_many _).bind fun _ => (certain_expecting _ _).bind fun _ => certain_pure _
  | enum =>
    obtain ⟨_, rfl, opens⟩ := begins
    refine keyword_certain (by decide) opens fun _ => ?_
    exact (certain_expecting _ _).bind fun _ => (certain_expecting _ _).bind fun _ =>
      (certain_expecting _ _).bind fun _ => (certain_maybe _).bind fun _ =>
      (certain_expecting _ _).bind fun _ => certain_pure _
  | struct =>
    obtain ⟨_, rfl, opens⟩ := begins
    refine keyword_certain (by decide) opens fun _ => ?_
    exact (certain_expecting _ _).bind fun _ => (certain_maybe _).bind fun _ =>
      (certain_maybe _).bind fun _ => (certain_expecting _ _).bind fun _ =>
      (certain_many _).bind fun _ => (certain_expecting _ _).bind fun _ => certain_pure _
  | union =>
    obtain ⟨_, rfl, opens⟩ := begins
    refine keyword_certain (by decide) opens fun _ => ?_
    exact (certain_expecting _ _).bind fun _ => (certain_maybe _).bind fun _ =>
      (certain_expecting _ _).bind fun _ => (certain_many _).bind fun _ =>
      (certain_expecting _ _).bind fun _ => certain_pure _
  | unionCase =>
    obtain ⟨_, rfl, opens⟩ := begins
    refine keyword_certain (by decide) opens fun _ => ?_
    exact (certain_expecting _ _).bind fun _ => (certain_expecting _ _).bind fun _ =>
      (certain_many _).bind fun _ => certain_pure _

theorem construct_blamed (c : Construct) : Blames own c.scan := by
  cases c with
  | scope bound => exact scope_blamed (bound + 1)
  | enum => exact enum_blamed
  | struct => exact struct_blamed
  | union => exact union_blamed
  | unionCase => exact unionCase_blamed
  | member => exact member_blamed

/-- Behind its first word a construct is found, or it breaks by the fault of a construct inside or
of its own. -/
theorem Construct.Begins.commits {c : Construct} (begins : c.Begins s) :
    (∃ tree rest, c.scan s = .found tree rest) ∨
      ∃ stop e, c.scan s = .broken stop e ∧ Blamed c.scan s stop e := by
  cases same : c.scan s with
  | found tree rest => exact .inl ⟨tree, rest, rfl⟩
  | absent stop => exact absurd ⟨stop, same⟩ begins.certain
  | broken stop e =>
    refine .inr ⟨stop, e, rfl, ?_⟩
    have blames : Blames [] c.scan := construct_blamed c
    simpa using blames.broken same

theorem ending_blames : Blames own (do layout; ending) := by
  refine ⟨fun found => ?_, fun broken => absurd broken (quiet_ending _ _ _)⟩
  simp only [bind_found_iff, layout_found_iff, ending_found_iff] at found
  obtain ⟨_, _, rfl, ended, rfl⟩ := found
  exact List.nil_suffix

/-- Only where the first scope is missing the label is the one for a scope. -/
theorem specification_broken (broken : specification bound s = .broken stop e) :
    Absent (scope bound) s ∧ e = .scope ∨
      ¬ Absent (scope bound) s ∧ (e = .scopeOrEnd ∨ Blamed (specification bound) s stop e) := by
  have scopes : Blames [] (many1 (scope bound)) :=
    (scope_blamed bound).bind fun _ => (scope_blamed bound).many.bind fun _ => .pure _
  rw [specification, bind_apply, Scan.expecting] at broken
  cases same : many1 (scope bound) s with
  | found trees middle =>
    simp only [same] at broken
    obtain ⟨_, _, found, -⟩ := bind_found_iff.mp same
    have ends : Blames [.scopeOrEnd] (do
        (do layout; ending).expecting .scopeOrEnd
        pure (⟨trees⟩ : ParseTree.Specification Text)) :=
      (ending_blames.expecting (by decide)).bind fun _ => .pure _
    refine .inr ⟨fun absent => absent.not_found found, ?_⟩
    have found : (many1 (scope bound)).expecting .scope s = .found trees middle :=
      expecting_found_iff.mpr same
    refine (ends.broken broken).imp List.mem_singleton.mp fun blamed => ?_
    exact blamed.outward (scopes.leaves same) fun c t attempts => .next found attempts
  | absent stop' =>
    simp only [same] at broken
    cases broken
    rcases bind_absent_cases ⟨_, same⟩ with absent | ⟨_, middle, -, absent⟩
    · exact .inl ⟨absent, rfl⟩
    · exact absurd absent (Certain.bind (certain_many _) (fun _ => certain_pure _) middle)
  | broken stop' e' =>
    simp only [same] at broken
    cases broken
    have blamed : Blamed (many1 (scope bound)) s stop e := by simpa using scopes.broken same
    refine .inr ⟨?_, .inr (blamed.outward List.suffix_rfl fun _ _ attempts => .first attempts.expecting)⟩
    rintro ⟨stop, absent⟩
    simp [many1, bind_apply, absent] at same

theorem scope_absent_iff : Absent (scope s.length) s ↔
    ¬ ∃ rest, s.skipLayout = "scope".toList ++ rest ∧ WordEnds rest := by
  have reserved : "scope" ∈ reservedWords := by decide
  simp only [← (isWord_reserved reserved).isLexeme.reads_iff]
  constructor
  · rintro absent ⟨rest, reads⟩
    have shorter := reads.length_lt (List.mem_singleton_self _) (by decide)
    obtain ⟨bound, same⟩ := Nat.exists_eq_add_one_of_ne_zero (Nat.ne_zero_of_lt shorter)
    rw [same] at absent
    exact Construct.Begins.certain (c := .scope bound) ⟨"scope", rfl, rest, reads⟩ absent
  · intro other
    refine scope_absent ((quiet_keyword _).absent fun u rest found => other ⟨rest, ?_⟩) _
    exact (keyword_found_iff reserved).mp found

/-- A refusal for a break at the stop. Its label is one of the grammar's, and it is the one for a
scope exactly if the text does not begin with that word. -/
structure Committed (source stop : Text) (err : SyntaxError) : Prop where
  broken : recognize source = .broken stop err.expected
  labelled : err.expected ∈ labels
  scope_iff : err.expected = .scope ↔
    ¬ ∃ rest, source.skipLayout = "scope".toList ++ rest ∧ WordEnds rest
  /-- The label belongs to a construct that has begun, or to the schema as a whole. -/
  blamed : err.expected = .scope ∨ err.expected = .scopeOrEnd ∨
    Blamed (specification source.length) source stop err.expected
  /-- What is attempted where it has begun is found, or its break is the one reported, with a label
  of its own or of a construct inside. -/
  inside : ∀ (c : Construct) (t : Text), c.Begins t →
    Attempts c.scan t (specification source.length) source →
      (∃ tree rest, c.scan t = .found tree rest) ∨
        c.scan t = .broken stop err.expected ∧ Blamed c.scan t stop err.expected
  /-- The position is that of an offset in the text, in front of a place without layout. -/
  placed : ∃ before place : Text, source = before ++ place ∧ place.skipLayout = place ∧
    err.position = (LineTable.ofText source).position before.byteSize

/-- Every refusal comes from a break, and is reported as the construct in which the text breaks
says. -/
theorem parse_commits {source : String} (refused : parse source = .error err) :
    ∃ stop, Committed source.toList stop err := by
  obtain ⟨stop, e, runs, rfl⟩ := parse_error_iff.mp refused
  have broken := recognize_broken_iff.mpr runs
  refine ⟨stop, broken, ?labelled, ?scope_iff, ?blamed, fun c t begins attempts => ?inside, ?placed⟩
  case labelled =>
    rcases specification_broken broken with ⟨-, rfl⟩ | ⟨-, rfl | blamed⟩
    · exact (by decide : Expected.scope ∈ labels)
    · exact (by decide : Expected.scopeOrEnd ∈ labels)
    · exact blamed.mem_labels.1
  case scope_iff =>
    rcases specification_broken broken with ⟨absent, rfl⟩ | ⟨certain, other⟩
    · exact iff_of_true rfl (scope_absent_iff.mp absent)
    · refine iff_of_false ?_ (mt scope_absent_iff.mpr certain)
      rcases other with rfl | blamed
      · exact nofun
      · exact blamed.mem_labels.2
  case blamed => exact (specification_broken broken).imp And.right And.right
  case inside =>
    refine begins.commits.imp_right ?_
    rintro ⟨stop', e', same, blamed⟩
    obtain ⟨rfl, rfl⟩ := Outcome.broken.inj ((attempts.broken same).symm.trans broken)
    exact ⟨same, blamed⟩
  case placed =>
    obtain ⟨before, split⟩ := (Text.gap_skipLayout stop).suffix.trans (runs.suffix stop e rfl)
    refine ⟨before, stop.skipLayout, split.symm, Text.skipLayout_skipLayout stop, ?_⟩
    rw [SyntaxError.ofStop, LineTable.positionOf, ← split]
    simp [LineTable.ofText]

/-- The size of octets is missing in a struct two scopes in. -/
theorem parse_commits_inside :
    let source := "scope a \x7b scope b \x7b struct s \x7b octets x; \x7d \x7d \x7d"
    let err : SyntaxError := ⟨⟨1, 39⟩, .mark .openBracket, .word "x;"⟩
    parse source = .error err ∧ ∃ stop, Committed source.toList stop err := by
  intro source err
  have refused : parse source = .error err := by cbv
  exact ⟨refused, parse_commits refused⟩

end Grammar
end SchemaLang
