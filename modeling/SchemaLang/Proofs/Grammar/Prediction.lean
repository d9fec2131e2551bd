import SchemaLang.Proofs.Grammar.Glimpse
import SchemaLang.Proofs.Grammar.Language
import SchemaLang.Proofs.Grammar.Nested

/-! The recognizer reads as the agenda tells. Each recognizer leads from a plan for the text at hand
to a plan for what it leaves; where its construct is absent, the plan for the text at hand comes
down to another one. Composed recognizers lead where their parts do. -/
namespace SchemaLang.Grammar

open Scan

/-- Which verdicts are still to be expected of a text. -/
abbrev Plan := Text → Verdict → Prop

/-- A recognizer as a way from plan to plan, for texts up to a length and down to another one,
because recognizers of nested scopes know only so many levels. -/
structure Leads (high low : Nat) (p : Scan α) (plan after : Plan) (otherwise : Text → Plan) :
    Prop where
  found : s.length ≤ high → p s = .found a rest →
    rest.length ≤ low ∧ ∀ v, after rest v → plan s v
  absent : s.length ≤ high → p s = .absent stop → ∀ v, otherwise stop s v → plan s v
  broken : s.length ≤ high → p s = .broken stop e → plan s (.broken stop e)

/-- If the construct were absent, any verdict would do. -/
abbrev Commits (high low : Nat) (p : Scan α) (plan after : Plan) : Prop :=
  Leads high low p plan after fun _ _ _ => True

/-- The text breaks here. -/
def Stuck (e : Expected) (stop : Text) : Plan := fun _ v => v = .broken stop e

/-- One of the choices is read, or the text breaks where the last one says. -/
def Serves (choices : List Goal.Choice) (e : Expected) (stop : Text) : Plan := fun s v =>
  match firstOf choices stop s with
  | .found next rest => Runs next rest v
  | .absent stop => v = .broken stop e
  | .broken _ _ => False

theorem menu_goal (g : Goal) (agenda : List Goal) :
    ∃ c more, menu (g :: agenda) = c :: more := by
  cases g <;> exact ⟨_, _, rfl⟩

/-- A goal is served by its own choices. -/
theorem serves_menu (g : Goal) (agenda : List Goal) (stop : Text) :
    Serves (menu (g :: agenda)) g.label stop = Runs (g :: agenda) := by
  funext s v
  have here : firstOf (menu (g :: agenda)) stop s = firstOf (menu (g :: agenda)) s s := by
    obtain ⟨c, more, same⟩ := menu_goal g agenda
    rw [same, firstOf, firstOf]
  rw [Serves, here, eq_iff_iff]
  constructor
  · intro serves
    cases same : firstOf (menu (g :: agenda)) s s with
    | found next rest => exact .read same (by simpa only [same] using serves)
    | absent stop =>
      simp only [same] at serves
      exact serves ▸ .stuck same
    | broken stop e => simp only [same] at serves
  · intro runs
    cases runs with
    | read found runs => simpa only [found] using runs
    | stuck absent => simp only [absent]

/-- A way that is left for the choices of a goal is left for the goal. -/
theorem serves_otherwise (g : Goal) (agenda : List Goal) :
    Serves (menu (g :: agenda)) g.label = fun _ => Runs (g :: agenda) :=
  funext fun stop => serves_menu g agenda stop

variable {high low n : Nat} {plan middle after : Plan} {otherwise : Text → Plan} {p : Scan α}

namespace Leads

theorem pure (a : α) : Commits n n (Pure.pure a) plan plan where
  found := by
    intro s b rest small found
    obtain ⟨rfl, rfl⟩ := pure_found_iff.mp found
    exact ⟨small, fun _ => id⟩
  absent := by simp [pure_apply]
  broken := by simp [pure_apply]

/-- If the second part is absent, the plan for the text in front of the first one has to do. -/
theorem bind_back {f : α → Scan β} {other last : Text → Plan}
    (first : Leads high n p plan middle otherwise)
    (later : ∀ a, Leads n low (f a) middle after other)
    (aside : ∀ ⦃s stop v⦄, p s = .absent stop → last stop s v → otherwise stop s v)
    (back : ∀ ⦃s a rest stop v⦄, p s = .found a rest → last stop s v → other stop rest v) :
    Leads high low (p >>= f) plan after last where
  found := by
    intro s b rest small found
    obtain ⟨a, between, found, more⟩ := bind_found_iff.mp found
    obtain ⟨small', back⟩ := first.found small found
    obtain ⟨small'', back'⟩ := (later a).found small' more
    exact ⟨small'', fun v next => back v (back' v next)⟩
  absent := by
    intro s stop small absent v left
    rw [bind_apply] at absent
    cases same : p s with
    | found a between =>
      simp only [same] at absent
      obtain ⟨small', back'⟩ := first.found small same
      exact back' v ((later a).absent small' absent v (back same left))
    | absent stop' =>
      obtain rfl : stop' = stop := by simpa [same] using absent
      exact first.absent small same v (aside same left)
    | broken => simp [same] at absent
  broken := by
    intro s stop e small broken
    rw [bind_apply] at broken
    cases same : p s with
    | found a between =>
      simp only [same] at broken
      obtain ⟨small', back'⟩ := first.found small same
      exact back' _ ((later a).broken small' broken)
    | absent => simp [same] at broken
    | broken stop' e' =>
      obtain ⟨rfl, rfl⟩ : stop' = stop ∧ e' = e := by simpa [same] using broken
      exact first.broken small same

theorem bind {f : α → Scan β} (first : Leads high n p plan middle otherwise)
    (later : ∀ a, Commits n low (f a) middle after) :
    Leads high low (p >>= f) plan after otherwise :=
  first.bind_back later (fun _ _ _ _ left => left) fun _ _ _ _ _ _ _ => trivial

theorem nearer (leads : Leads (n + 1) low p plan after otherwise) (progress : Progress p) :
    Leads (n + 1) n p plan after otherwise where
  found := by
    intro s a rest small found
    have shorter := progress found
    exact ⟨by omega, (leads.found small found).2⟩
  absent := leads.absent
  broken := leads.broken

theorem farther (leads : Leads high n p plan after otherwise) :
    Leads high (n + 1) p plan after otherwise where
  found small found := ⟨Nat.le_succ_of_le (leads.found small found).1, (leads.found small found).2⟩
  absent := leads.absent
  broken := leads.broken

theorem map (leads : Leads high low p plan after otherwise) (g : α → β) :
    Leads high low (g <$> p) plan after otherwise := by
  rw [map_eq]
  exact leads.bind fun _ => pure _

theorem orElse {q : Scan α} (left : Leads high low p plan after otherwise)
    (right : ∀ stop, Leads high low q (otherwise stop) after last) :
    Leads high low (p <|> q) plan after last where
  found := by
    intro s a rest small found
    rcases orElse_found_iff.mp found with found | ⟨⟨stop, absent⟩, found⟩
    · exact left.found small found
    · obtain ⟨small', back⟩ := (right stop).found small found
      exact ⟨small', fun v next => left.absent small absent v (back v next)⟩
  absent := by
    intro s stop small absent v other
    rw [orElse_apply] at absent
    cases same : p s with
    | found => simp [same] at absent
    | absent earlier =>
      simp only [same] at absent
      exact left.absent small same v ((right earlier).absent small absent v other)
    | broken => simp [same] at absent
  broken := by
    intro s stop e small broken
    rw [orElse_apply] at broken
    cases same : p s with
    | found => simp [same] at broken
    | absent earlier =>
      simp only [same] at broken
      exact left.absent small same _ ((right earlier).broken small broken)
    | broken stop' e' =>
      obtain ⟨rfl, rfl⟩ : stop' = stop ∧ e' = e := by simpa [same] using broken
      exact left.broken small same

theorem expecting (leads : Leads high low p plan after (Stuck e)) :
    Commits high low (p.expecting e) plan after where
  found small found := leads.found small (expecting_found_iff.mp found)
  absent := by
    intro s stop small absent
    unfold Scan.expecting at absent
    cases same : p s <;> simp [same] at absent
  broken := by
    intro s stop e' small broken
    unfold Scan.expecting at broken
    cases same : p s with
    | found => simp [same] at broken
    | absent stop' =>
      obtain ⟨rfl, rfl⟩ : stop' = stop ∧ e = e' := by simpa [same] using broken
      exact leads.absent small same _ rfl
    | broken stop' e'' =>
      obtain ⟨rfl, rfl⟩ : stop' = stop ∧ e'' = e' := by simpa [same] using broken
      exact leads.broken small same

theorem maybe (leads : Leads n n p plan after fun _ => after) :
    Commits n n p.maybe plan after where
  found := by
    intro s o rest small found
    rcases maybe_found_iff.mp found with ⟨a, found, -⟩ | ⟨⟨stop, absent⟩, rfl, -⟩
    · exact leads.found small found
    · exact ⟨small, leads.absent small absent⟩
  absent := by
    intro s stop small absent
    unfold Scan.maybe at absent
    cases same : p s <;> simp [same] at absent
  broken := by
    intro s stop e small broken
    unfold Scan.maybe at broken
    cases same : p s with
    | found => simp [same] at broken
    | absent => simp [same] at broken
    | broken stop' e' =>
      obtain ⟨rfl, rfl⟩ : stop' = stop ∧ e' = e := by simpa [same] using broken
      exact leads.broken small same

/-- A repetition comes back to its plan until there is no further construct. -/
theorem many (leads : Leads n n p plan plan fun _ => after) (progress : Progress p) :
    Commits n n p.many plan after where
  found := by
    intro s as rest small found
    have repeats := (many_found_iff progress).mp found
    clear found
    induction repeats with
    | stop absent =>
      obtain ⟨stop, absent⟩ := absent
      exact ⟨small, leads.absent small absent⟩
    | next found _ _ ih =>
      obtain ⟨small', back⟩ := leads.found small found
      obtain ⟨small'', back'⟩ := ih small'
      exact ⟨small'', fun v next => back v (back' v next)⟩
  absent := by
    intro s stop small absent v _
    fun_induction Scan.many p s with
    | case1 | case3 | case4 | case5 | case6 => cases absent
    | case2 s a middle head shorter stop' same ih =>
      obtain rfl : stop' = stop := by simpa using absent
      obtain ⟨small', back⟩ := leads.found small head
      exact back v (ih small' same)
  broken := by
    intro s stop e small broken
    fun_induction Scan.many p s with
    | case1 | case2 | case4 | case5 => cases broken
    | case3 s a middle head shorter stop' e' same ih =>
      obtain ⟨rfl, rfl⟩ : stop' = stop ∧ e' = e := by simpa using broken
      obtain ⟨small', back⟩ := leads.found small head
      exact back _ (ih small' same)
    | case6 s stop' e' same =>
      obtain ⟨rfl, rfl⟩ : stop' = stop ∧ e' = e := by simpa using broken
      exact leads.broken small same

/-- The first choice is read, or the others are left. -/
theorem first {t : Test} (scans : (fun _ => ()) <$> p = t.scan) (next : List Goal)
    (more : List Goal.Choice) (stop : Text) (small : high ≤ low + 1) :
    Leads high low p (Serves ((t, next) :: more) e stop) (Runs next) (Serves more e) where
  found := by
    intro s a rest small' found
    have found : t.scan s = .found () rest := scans ▸ map_found _ found
    have shorter := t.progress found
    refine ⟨by omega, fun v runs => ?_⟩
    simpa [Serves, firstOf, found] using runs
  absent := by
    intro s stop _ absent v other
    have absent : t.scan s = .absent stop := by
      rw [← scans, map_eq, bind_apply, absent]
    simpa [Serves, firstOf, absent] using other
  broken := by
    intro s stop e _ broken
    have broken : t.scan s = .broken stop e := by
      rw [← scans, map_eq, bind_apply, broken]
    exact absurd broken (t.quiet s stop e)

end Leads

/-- A goal that one test alone decides. -/
theorem single_commits {t : Test} {g : Goal} (scans : (fun _ => ()) <$> p = t.scan)
    (choices : g.choices = [(t, [])]) (agenda : List Goal) :
    Commits n n (p.expecting g.label) (Runs (g :: agenda)) (Runs agenda) := by
  have menu : menu (g :: agenda) = [(t, agenda)] := by simp [menu, choices]
  rw [← serves_menu g agenda [], menu]
  exact (Leads.first scans agenda [] [] (Nat.le_succ n)).expecting

variable {e : Expected} {stop : Text} {agenda : List Goal} {more : List Goal.Choice}

theorem name_commits (e : Expected) (agenda : List Goal) :
    Commits n n (name.expecting e) (Runs (.name e :: agenda)) (Runs agenda) :=
  single_commits (t := .name) (g := .name e) rfl rfl agenda

theorem literal_commits (e : Expected) (agenda : List Goal) :
    Commits n n (literal.expecting e) (Runs (.literal e :: agenda)) (Runs agenda) :=
  single_commits (t := .literal) (g := .literal e) rfl rfl agenda

theorem word_commits (e : Expected) (agenda : List Goal) :
    Commits n n ((token word).expecting e) (Runs (.word e :: agenda)) (Runs agenda) :=
  single_commits (t := .word) (g := .word e) rfl rfl agenda

theorem mark_commits (m : Mark) (agenda : List Goal) :
    Commits n n ((mark m).expecting (.mark m)) (Runs (.mark m :: agenda)) (Runs agenda) :=
  single_commits (t := .mark m) (g := .mark m) (id_map _) rfl agenda

theorem close_commits (e : Expected) (agenda : List Goal) :
    Commits n n ((mark .closeBrace).expecting e) (Runs (.close e :: agenda)) (Runs agenda) :=
  single_commits (t := .mark .closeBrace) (g := .close e) (id_map _) rfl agenda

theorem octetsKeyword_scans :
    (fun _ => ()) <$> token (do let text ← tag "octets"; boundary; pure text) =
      keyword "octets" := by
  funext s
  simp only [token, placed, map_eq, keyword, bind_apply, layout, here, tag]
  cases cut : "octets".toList.isPrefixOf? s.skipLayout with
  | none => rfl
  | some rest =>
    dsimp only
    cases boundary rest <;> rfl

theorem octetsType_leads :
    Leads n n octetsType
      (Serves ((.keyword "octets" (by decide), Goal.octetsEnd ++ agenda) :: more) e stop)
      (Runs agenda) (Serves more e) := by
  apply (Leads.first octetsKeyword_scans _ _ _ (Nat.le_succ n)).bind
  intro keyword
  apply (mark_commits _ _).bind
  intro _
  have size : Commits n n (octetsSize.expecting .octetsSize)
      (Runs (.octetsSize :: .mark .closeBracket :: agenda))
      (Runs (.mark .closeBracket :: agenda)) := by
    rw [← serves_menu _ _ []]
    apply Leads.expecting
    apply ((Leads.first rfl _ _ _ (Nat.le_succ n)).map _).orElse
    intro stop
    exact (Leads.first rfl _ _ _ (Nat.le_succ n)).map _
  apply size.bind
  intro sized
  exact (mark_commits _ _).bind fun _ => Leads.pure _

/-- The choices with which a member begins, in front of an agenda. -/
def memberMenu (g : Goal) (agenda : List Goal) : List Goal.Choice :=
  (Goal.memberChoices g).map fun c => (c.1, c.2 ++ agenda)

theorem typeSpec_leads (g : Goal) :
    Leads n n typeSpec (Serves (memberMenu g agenda ++ more) e stop)
      (Runs (Goal.memberEnd ++ g :: agenda)) (Serves more e) := by
  apply (Leads.first rfl _ _ _ (Nat.le_succ n)).orElse
  intro stop
  apply octetsType_leads.orElse
  intro stop
  exact (Leads.first rfl _ _ _ (Nat.le_succ n)).map _

theorem member_leads (g : Goal) (agenda : List Goal) (more : List Goal.Choice) (e : Expected)
    (stop : Text) :
    Leads n n member (Serves (memberMenu g agenda ++ more) e stop) (Runs (g :: agenda))
      (Serves more e) := by
  apply (typeSpec_leads g).bind
  intro type
  apply (name_commits _ _).bind
  intro name
  exact (mark_commits _ _).bind fun _ => Leads.pure _

/-- Members are read as long as a goal allows them, up to the goal that it comes down to. -/
theorem members_commit {g other : Goal}
    (choices : menu (g :: agenda) = memberMenu g agenda ++ menu (other :: agenda))
    (label : g.label = other.label) :
    Commits n n member.many (Runs (g :: agenda)) (Runs (other :: agenda)) := by
  have leads : Leads n n member _ _ _ :=
    member_leads g agenda (menu (other :: agenda)) other.label []
  rw [← choices, ← label, serves_menu, label, serves_otherwise] at leads
  exact leads.many member_progress

theorem enumValue_leads {otherwise : Text → Plan}
    (named : Leads n n name plan (Runs (.afterName :: agenda)) otherwise) :
    Leads n n enumValue plan (Runs (.afterValue :: agenda)) otherwise := by
  apply named.bind
  intro name
  have initializer : Leads n n (do mark .equals; literal.expecting .integerLiteral)
      (Runs (.afterName :: agenda)) (Runs (.afterValue :: agenda))
      fun _ => Runs (.afterValue :: agenda) := by
    rw [← serves_otherwise .afterValue, ← serves_menu .afterName agenda []]
    apply (Leads.first (t := .mark .equals) (id_map _) _ _ _ (Nat.le_succ n)).bind
    intro _
    exact literal_commits _ _
  apply initializer.maybe.bind
  intro value
  exact Leads.pure _

/-- The brace behind the values of an enum. -/
abbrev Goal.closeValues : Goal := .close .commaOrClose

/-- Behind a list of values. A comma that no value follows is left to be read. -/
def Trailing (agenda : List Goal) : Plan := fun s v =>
  (∀ rest, mark .comma s = .found () rest → Runs (.closeValues :: agenda) rest v) ∧
    (Absent (mark .comma) s → Runs (.closeValues :: agenda) s v)

theorem trailing_commits :
    Commits n n (mark .comma).maybe (Trailing agenda) (Runs (.closeValues :: agenda)) := by
  apply Leads.maybe
  constructor
  · intro s u rest small found
    have shorter := (Test.mark .comma).progress found
    refine ⟨by omega, fun v runs => ⟨fun rest' found' => ?_, fun absent => ?_⟩⟩
    · obtain ⟨-, rfl⟩ := Outcome.found.inj (found.symm.trans found')
      exact runs
    · exact absurd found absent.not_found
  · intro s stop small absent v runs
    refine ⟨fun rest found => ?_, fun _ => runs⟩
    rw [absent] at found
    cases found
  · intro s stop e _ broken
    exact absurd broken (quiet_symbol _ s stop e)

/-- A comma promises a value or the end of the list. Only the recognizer takes it back to read it
again. -/
theorem furtherValue_leads :
    Leads n n (do let _ ← mark .comma; enumValue) (Runs (.afterValue :: agenda))
      (Runs (.afterValue :: agenda)) fun _ => Trailing agenda := by
  have value : Leads n n enumValue (Runs (.afterComma :: agenda)) (Runs (.afterValue :: agenda))
      fun _ => Runs (.closeValues :: agenda) := by
    rw [← serves_otherwise .closeValues, ← serves_menu .afterComma agenda []]
    exact enumValue_leads (Leads.first rfl _ _ _ (Nat.le_succ n))
  have comma : Leads n n (mark .comma) (Runs (.afterValue :: agenda)) (Runs (.afterComma :: agenda))
      fun _ => Runs (.closeValues :: agenda) := by
    rw [← serves_otherwise .closeValues, ← serves_menu .afterValue agenda []]
    exact Leads.first (t := .mark .comma) (id_map _) _ _ _ (Nat.le_succ n)
  apply comma.bind_back fun _ => value
  · intro s stop v absent left
    exact left.2 ⟨stop, absent⟩
  · intro s _ rest stop v found left
    exact left.1 rest found

theorem keyword_leads (reserved : w ∈ reservedWords) (next : List Goal) (small : high ≤ low + 1) :
    Leads high low (keyword w) (Serves ((.keyword w reserved, next) :: more) e stop) (Runs next)
      (Serves more e) :=
  Leads.first (t := .keyword w reserved) (id_map _) next more stop small

theorem enum_leads :
    Leads n n enum
      (Serves ((.keyword "enum" (by decide), Goal.enumBody ++ agenda) :: more) e stop)
      (Runs agenda) (Serves more e) := by
  apply (keyword_leads _ _ (Nat.le_succ n)).bind
  intro _
  apply (name_commits _ _).bind
  intro name
  apply (mark_commits _ _).bind
  intro _
  have values : Commits n n ((enumValue.sepBy1 (mark .comma)).expecting .enumValue)
      (Runs (.name .enumValue :: .afterName :: agenda)) (Trailing agenda) := by
    rw [← serves_menu _ _ []]
    apply Leads.expecting
    apply (enumValue_leads (Leads.first rfl _ _ _ (Nat.le_succ n))).bind
    intro value
    apply (furtherValue_leads.many furtherValue_progress).bind
    intro values
    exact Leads.pure _
  apply values.bind
  intro values
  apply trailing_commits.bind
  intro _
  exact (close_commits _ _).bind fun _ => Leads.pure _

theorem struct_leads :
    Leads n n struct
      (Serves ((.keyword "struct" (by decide), Goal.structBody ++ agenda) :: more) e stop)
      (Runs agenda) (Serves more e) := by
  apply (keyword_leads _ _ (Nat.le_succ n)).bind
  intro _
  apply (name_commits _ _).bind
  intro name
  have typeId : Leads n n (do
        mark .openBracket
        let id ← literal.expecting .typeId
        (mark .closeBracket).expecting (.mark .closeBracket)
        pure id)
      (Runs (.structHeader :: .members :: agenda)) (Runs (.extension :: .members :: agenda))
      fun _ => Runs (.extension :: .members :: agenda) := by
    rw [← serves_otherwise .extension, ← serves_menu .structHeader _ []]
    apply (Leads.first (t := .mark .openBracket) (id_map _) _ _ _ (Nat.le_succ n)).bind
    intro _
    apply (literal_commits _ _).bind
    intro id
    exact (mark_commits _ _).bind fun _ => Leads.pure _
  have referred : Commits n n (reference.expecting .supertypeName)
      (Runs (.supertype :: .members :: agenda))
      (Runs (.mark .openBrace :: .members :: agenda)) := by
    rw [← serves_menu .supertype _ []]
    exact (Leads.first rfl _ _ _ (Nat.le_succ n)).expecting
  have supertype : Leads n n (do keyword "extends"; reference.expecting .supertypeName)
      (Runs (.extension :: .members :: agenda)) (Runs (.mark .openBrace :: .members :: agenda))
      fun _ => Runs (.mark .openBrace :: .members :: agenda) := by
    rw [← serves_otherwise (.mark .openBrace), ← serves_menu .extension _ []]
    exact (keyword_leads _ _ (Nat.le_succ n)).bind fun _ => referred
  have body : Commits n n member.many (Runs (.members :: agenda))
      (Runs (.close .memberOrClose :: agenda)) := members_commit rfl rfl
  apply typeId.maybe.bind
  intro typeId
  apply supertype.maybe.bind
  intro supertype
  apply (mark_commits _ _).bind
  intro _
  apply body.bind
  intro members
  exact (close_commits _ _).bind fun _ => Leads.pure _

theorem unionCase_leads :
    Leads n n unionCase (Runs (.cases :: agenda)) (Runs (.cases :: agenda))
      fun _ => Runs (.close .caseOrClose :: agenda) := by
  have opened : Leads n n (keyword "case") (Runs (.cases :: agenda))
      (Runs (.literal .caseDiscriminant :: .mark .colon :: .caseMembers :: agenda))
      fun _ => Runs (.close .caseOrClose :: agenda) := by
    rw [← serves_otherwise (.close .caseOrClose), ← serves_menu .cases _ []]
    exact keyword_leads _ _ (Nat.le_succ n)
  have members :
      Commits n n member.many (Runs (.caseMembers :: agenda)) (Runs (.cases :: agenda)) :=
    members_commit rfl rfl
  apply opened.bind
  intro _
  apply (literal_commits _ _).bind
  intro value
  apply (mark_commits _ _).bind
  intro _
  exact members.bind fun _ => Leads.pure _

theorem union_leads :
    Leads n n union
      (Serves ((.keyword "union" (by decide), Goal.unionBody ++ agenda) :: more) e stop)
      (Runs agenda) (Serves more e) := by
  apply (keyword_leads _ _ (Nat.le_succ n)).bind
  intro _
  apply (name_commits _ _).bind
  intro name
  have header : Leads n n (do
        keyword "switch"
        (mark .openParen).expecting (.mark .openParen)
        let type ← (token word).expecting .discriminantType
        (mark .closeParen).expecting (.mark .closeParen)
        pure type)
      (Runs (.unionHeader :: .cases :: agenda)) (Runs (.mark .openBrace :: .cases :: agenda))
      fun _ => Runs (.mark .openBrace :: .cases :: agenda) := by
    rw [← serves_otherwise (.mark .openBrace), ← serves_menu .unionHeader _ []]
    apply (keyword_leads _ _ (Nat.le_succ n)).bind
    intro _
    apply (mark_commits _ _).bind
    intro _
    apply (word_commits _ _).bind
    intro type
    exact (mark_commits _ _).bind fun _ => Leads.pure _
  apply header.maybe.bind
  intro type
  apply (mark_commits _ _).bind
  intro _
  apply (unionCase_leads.many unionCase_progress).bind
  intro cases
  exact (close_commits _ _).bind fun _ => Leads.pure _

/-- The choices with which a declaration begins, in front of an agenda. -/
def declarationMenu (agenda : List Goal) : List Goal.Choice :=
  Goal.declarationChoices.map fun c => (c.1, c.2 ++ agenda)

theorem declaration_leads :
    Leads n n declaration (Serves (declarationMenu agenda ++ more) e stop)
      (Runs (.items :: agenda)) (Serves more e) := by
  have semicolon : Leads n n (mark .semicolon) (Runs (.afterDeclaration :: agenda))
      (Runs (.items :: agenda)) fun _ => Runs (.items :: agenda) := by
    rw [← serves_otherwise .items, ← serves_menu .afterDeclaration _ []]
    exact Leads.first (t := .mark .semicolon) (id_map _) _ _ _ (Nat.le_succ n)
  refine Leads.bind ?_ fun d => semicolon.maybe.bind fun _ => Leads.pure d
  apply (enum_leads.map _).orElse
  intro stop
  apply (struct_leads.map _).orElse
  intro stop
  exact union_leads.map _

/-- A recognizer of scopes leads on from wherever their keyword leads into them. -/
def LeadsScopes (n : Nat) (p : Scan (ParseTree.Scope Text)) : Prop :=
  ∀ ⦃plan : Plan⦄ ⦃otherwise : Text → Plan⦄ ⦃agenda : List Goal⦄,
    Leads n n (keyword "scope") plan (Runs (Goal.scopeBody ++ agenda)) otherwise →
    Leads n n p plan (Runs agenda) otherwise

theorem item_leads {inner : Scan (ParseTree.Scope Text)} (scopes : LeadsScopes n inner) :
    Leads n n (itemWith inner) (Runs (.items :: agenda)) (Runs (.items :: agenda))
      fun _ => Runs (.close .declarationOrClose :: agenda) := by
  rw [← serves_otherwise (.close .declarationOrClose)]
  have opened : Leads n n (keyword "scope") (Runs (.items :: agenda))
      (Runs (Goal.scopeBody ++ .items :: agenda))
      (Serves (declarationMenu agenda ++ menu (.close .declarationOrClose :: agenda))
        .declarationOrClose) := by
    rw [← serves_menu .items _ []]
    exact keyword_leads _ _ (Nat.le_succ n)
  apply ((scopes opened).map _).orElse
  intro stop
  exact declaration_leads.map _

/-- The keyword of a scope pays for the level that the scopes inside are further in. -/
theorem scopeWith_leads {inner : Scan (ParseTree.Scope Text)} (progress : Progress inner)
    (scopes : LeadsScopes n inner) : LeadsScopes (n + 1) (scopeWith inner) := by
  intro plan otherwise agenda opened
  have reads : Leads (n + 1) n (keyword "scope") plan (Runs (Goal.scopeBody ++ agenda)) otherwise :=
    opened.nearer (keyword_progress (by decide) (by decide))
  refine Leads.farther ?_
  apply reads.bind
  intro _
  apply (name_commits _ _).bind
  intro name
  apply (mark_commits _ _).bind
  intro _
  apply ((item_leads scopes).many (item_progress progress)).bind
  intro items
  exact (close_commits _ _).bind fun _ => Leads.pure _

theorem scope_leads (n : Nat) : LeadsScopes n (scope n) := by
  induction n with
  | zero =>
    intro plan otherwise agenda opened
    constructor
    · intro s a rest _ found
      cases found
    · intro s stop small absent v other
      obtain rfl : s = stop := Outcome.absent.inj absent
      obtain rfl : s = [] := List.length_eq_zero_iff.mp (Nat.le_zero.mp small)
      obtain ⟨stop, absent⟩ := keyword_absent_of_empty (w := "scope") (by decide)
      have start := Test.scan_absent_stop (t := .keyword "scope" (by decide)) absent
      rw [Text.skipLayout_of_no_unit rfl] at start
      obtain rfl : stop = [] := start
      exact opened.absent small absent v other
    · intro s stop e _ broken
      cases broken
  | succ n ih => exact scopeWith_leads (scope_progress n) ih

/-- The verdicts on a text in which no further scope stands. -/
def Ending : Plan := fun s v =>
  (s.skipLayout = [] → v = .accepted) ∧ (s.skipLayout ≠ [] → v = .broken s.skipLayout .scopeOrEnd)

theorem scopes_commit : Commits n n (scope n).many (Runs []) Ending := by
  refine Leads.many (scope_leads n ⟨?_, ?_, ?_⟩) (scope_progress n)
  · intro s u rest small found
    have shorter := keyword_progress (by decide) (by decide) found
    have chosen : firstOf (menu []) s s = .found Goal.scopeBody rest := by
      simp [menu, firstOf, Test.scan, found]
    exact ⟨by omega, fun v runs => .read chosen runs⟩
  · intro s stop _ absent v ending
    by_cases ended : s.skipLayout = []
    · exact ending.1 ended ▸ .ending ended
    · exact ending.2 ended ▸ .trailing ⟨stop, absent⟩ ended
  · intro s stop e _ broken
    exact absurd broken (quiet_keyword _ s stop e)

theorem ending_commits :
    Commits n n ((do layout; ending).expecting .scopeOrEnd) Ending fun _ v => v = .accepted := by
  apply Leads.expecting
  constructor
  · intro s u rest small found
    simp only [bind_found_iff, layout_found_iff, ending_found_iff] at found
    obtain ⟨_, _, rfl, ended, rfl⟩ := found
    exact ⟨Nat.zero_le n, fun v accepted => ⟨fun _ => accepted, fun filled => absurd ended filled⟩⟩
  · intro s stop _ absent v stuck
    simp only [bind_apply, layout] at absent
    cases same : s.skipLayout with
    | nil => simp [same, ending] at absent
    | cons c rest =>
      obtain rfl : c :: rest = stop := by simpa [same, ending] using absent
      exact ⟨fun ended => by simp [same] at ended, fun _ => same ▸ stuck⟩
  · intro s stop e _ broken
    exact absurd broken (quiet_ending s stop e)

theorem specification_commits (n : Nat) :
    Commits n n (specification n) (Runs [.outermost]) fun _ v => v = .accepted := by
  have first : Leads n n (keyword "scope") (Runs [.outermost]) (Runs (Goal.scopeBody ++ []))
      (Stuck .scope) := by
    rw [← serves_menu .outermost _ []]
    exact keyword_leads _ _ (Nat.le_succ n)
  have scopes : Commits n n ((many1 (scope n)).expecting .scope) (Runs [.outermost]) Ending := by
    apply Leads.expecting
    apply (scope_leads n first).bind
    intro scope
    exact scopes_commit.bind fun _ => Leads.pure _
  apply scopes.bind
  intro scopes
  exact ending_commits.bind fun _ => Leads.pure _

/-- What the recognizer answers is the verdict of the run. It is never at a loss. -/
theorem recognize_runs (s : Text) :
    (∃ tree rest, recognize s = .found tree rest ∧ Runs [.outermost] s .accepted) ∨
      ∃ stop e, recognize s = .broken stop e ∧ Runs [.outermost] s (.broken stop e) := by
  have commits := specification_commits s.length
  cases same : recognize s with
  | found tree rest => exact .inl ⟨tree, rest, rfl, (commits.found (Nat.le_refl _) same).2 _ rfl⟩
  | absent stop =>
    have every := commits.absent (Nat.le_refl _) same
    cases (every .accepted trivial).unique (every (.broken [] .scope) trivial)
  | broken stop e => exact .inr ⟨stop, e, rfl, commits.broken (Nat.le_refl _) same⟩

theorem recognize_broken_iff :
    recognize s = .broken stop e ↔ Runs [.outermost] s (.broken stop e) := by
  rcases recognize_runs s with ⟨tree, rest, same, runs⟩ | ⟨stop', e', same, runs⟩
  · rw [same]
    refine ⟨nofun, fun broken => ?_⟩
    cases runs.unique broken
  · rw [same]
    constructor
    · intro broken
      obtain ⟨rfl, rfl⟩ := Outcome.broken.inj broken
      exact runs
    · intro broken
      obtain ⟨rfl, rfl⟩ := Verdict.broken.inj (runs.unique broken)
      rfl

variable {source : String}

/-- A text parses if the run accepts it. -/
theorem parse_of_runs (runs : Runs [.outermost] source.toList .accepted) :
    ∃ tree, parse source = .ok tree := by
  rcases recognize_runs source.toList with ⟨tree, rest, same, -⟩ | ⟨stop, e, -, broken⟩
  · exact ⟨_, parse_ok_iff.mpr ⟨tree, rest, same, rfl⟩⟩
  · cases runs.unique broken

/-- A text is refused where the run breaks, with the label of the goal in front. -/
theorem parse_error_iff : parse source = .error err ↔
    ∃ stop e, Runs [.outermost] source.toList (.broken stop e) ∧
      SyntaxError.ofStop source.toList stop e = err := by
  simp only [← recognize_broken_iff, parse]
  rcases recognize_runs source.toList with ⟨tree, rest, same, -⟩ | ⟨stop, e, same, -⟩
  · simp [same]
  · simp [same]

end SchemaLang.Grammar
