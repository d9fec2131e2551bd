import SchemaLang.Proofs.Grammar.Completeness

/-! A reader of schemas that never turns back. It keeps an agenda of what is still to be read, and
the next token alone decides how the agenda goes on. Where no token fits, the goal in front says
what was expected. -/
namespace SchemaLang.Grammar

open Scan

/-- What the next token is asked for. -/
inductive Test where
  | keyword (word : String) (reserved : word ∈ reservedWords)
  | mark (m : Mark)
  | name | literal | reference | word | primitive

namespace Test

def scan : Test → Scan Unit
  | keyword w _ => Scan.keyword w
  | mark m => Scan.mark m
  | name => (fun _ => ()) <$> Grammar.name
  | literal => (fun _ => ()) <$> Grammar.literal
  | reference => (fun _ => ()) <$> Grammar.reference
  | word => (fun _ => ()) <$> token Scan.word
  | primitive => (fun _ => ()) <$> primitiveType

theorem quiet (t : Test) : Quiet t.scan := by
  cases t with
  | keyword => exact quiet_keyword _
  | mark => exact quiet_symbol _
  | name => exact (quiet_token quiet_identifier).map _
  | literal => exact (quiet_token quiet_intLiteral).map _
  | reference => exact (quiet_token quiet_scopedName).map _
  | word => exact (quiet_token quiet_word).map _
  | primitive => exact quiet_primitiveType.map _

end Test

/-- The tokens that a label names. For a part of a schema these are the tokens it begins with. -/
def alternatives : Expected → List Test
  | .scope | .scopeOrEnd => [.keyword "scope" (by decide)]
  | .scopeName | .enumName | .structName | .unionName | .memberName | .enumValue => [.name]
  | .supertypeName => [.reference]
  | .integerLiteral | .typeId | .caseDiscriminant => [.literal]
  | .discriminantType => [.word]
  | .octetsSize => [.literal, .name]
  | .mark m => [.mark m]
  | .declarationOrClose =>
    [.keyword "scope" (by decide), .keyword "enum" (by decide), .keyword "struct" (by decide),
      .keyword "union" (by decide), .mark .closeBrace]
  | .memberOrClose =>
    [.primitive, .keyword "octets" (by decide), .reference, .mark .closeBrace]
  | .caseOrClose => [.keyword "case" (by decide), .mark .closeBrace]
  | .commaOrClose => [.mark .comma, .mark .closeBrace]

/-- A part of a schema that begins at the next token. Parts that may be left out and repetitions
are told from what follows them by that token, and so their goals contain what follows. -/
inductive Goal where
  | outermost
  | name (e : Expected) | literal (e : Expected) | word (e : Expected)
  | mark (m : Mark) | close (e : Expected)
  | items | afterDeclaration
  | afterName | afterValue | afterComma
  | structHeader | extension | supertype | members
  | unionHeader | cases | caseMembers
  | octetsSize

namespace Goal

/-- What a goal is reported as where no token fits. -/
def label : Goal → Expected
  | outermost => .scope
  | name e | literal e | word e | close e => e
  | mark m => .mark m
  | items | afterDeclaration => .declarationOrClose
  | afterName | afterValue | afterComma => .commaOrClose
  | structHeader | extension | unionHeader => .mark .openBrace
  | supertype => .supertypeName
  | members => .memberOrClose
  | cases | caseMembers => .caseOrClose
  | octetsSize => .octetsSize

def scopeBody : List Goal := [name .scopeName, mark .openBrace, items]

def enumBody : List Goal := [name .enumName, mark .openBrace, name .enumValue, afterName]

def structBody : List Goal := [name .structName, structHeader, members]

def unionBody : List Goal := [name .unionName, unionHeader, cases]

def memberEnd : List Goal := [name .memberName, mark .semicolon]

def octetsEnd : List Goal := [mark .openBracket, octetsSize, mark .closeBracket]

def switchEnd : List Goal :=
  [mark .openParen, word .discriminantType, mark .closeParen, mark .openBrace]

abbrev Choice := Test × List Goal

/-- A member begins with its type. Octets are followed by their size. -/
def memberChoices (after : Goal) : List Choice :=
  [(.primitive, memberEnd ++ [after]),
    (.keyword "octets" (by decide), octetsEnd ++ memberEnd ++ [after]),
    (.reference, memberEnd ++ [after])]

def declarationChoices : List Choice :=
  [(.keyword "enum" (by decide), enumBody ++ [afterDeclaration]),
    (.keyword "struct" (by decide), structBody ++ [afterDeclaration]),
    (.keyword "union" (by decide), unionBody ++ [afterDeclaration])]

def itemChoices : List Choice :=
  (.keyword "scope" (by decide), scopeBody ++ [items]) ::
    (declarationChoices ++ [(.mark .closeBrace, [])])

def valueChoices : List Choice := [(.mark .comma, [afterComma]), (.mark .closeBrace, [])]

def extendChoices : List Choice :=
  [(.keyword "extends" (by decide), [supertype]), (.mark .openBrace, [])]

def caseChoices : List Choice :=
  [(.keyword "case" (by decide), [literal .caseDiscriminant, mark .colon, caseMembers]),
    (.mark .closeBrace, [])]

/-- The tokens with which a goal can go on, in the order in which they are tried, each with the
goals that take its place. -/
def choices : Goal → List Choice
  | outermost => [(.keyword "scope" (by decide), scopeBody)]
  | name _ => [(.name, [])]
  | literal _ => [(.literal, [])]
  | word _ => [(.word, [])]
  | mark m => [(.mark m, [])]
  | close _ => [(.mark .closeBrace, [])]
  | items => itemChoices
  | afterDeclaration => (.mark .semicolon, [items]) :: itemChoices
  | afterName => (.mark .equals, [literal .integerLiteral, afterValue]) :: valueChoices
  | afterValue => valueChoices
  | afterComma => [(.name, [afterName]), (.mark .closeBrace, [])]
  | structHeader =>
    (.mark .openBracket, [literal .typeId, mark .closeBracket, extension]) :: extendChoices
  | extension => extendChoices
  | supertype => [(.reference, [mark .openBrace])]
  | members => memberChoices members ++ [(.mark .closeBrace, [])]
  | unionHeader => [(.keyword "switch" (by decide), switchEnd), (.mark .openBrace, [])]
  | cases => caseChoices
  | caseMembers => memberChoices caseMembers ++ caseChoices
  | octetsSize => [(.literal, []), (.name, [])]

/-- The last test of a goal, which tells where it breaks. -/
def last : Goal → Test
  | outermost => .keyword "scope" (by decide)
  | name _ | octetsSize => .name
  | literal _ => .literal
  | word _ => .word
  | supertype => .reference
  | mark m => .mark m
  | structHeader | extension | unionHeader => .mark .openBrace
  | _ => .mark .closeBrace

end Goal

open Goal

/-- The choices of an agenda. Where nothing is left to be read another scope may begin. -/
def menu : List Goal → List Choice
  | [] => [(.keyword "scope" (by decide), scopeBody)]
  | g :: agenda => g.choices.map fun c => (c.1, c.2 ++ agenda)

theorem menu_last (g : Goal) (agenda : List Goal) :
    ∃ init next, menu (g :: agenda) = init ++ [(g.last, next)] := by
  have filled : menu (g :: agenda) ≠ [] := by cases g <;> exact List.cons_ne_nil _ _
  have last : ((menu (g :: agenda)).getLast filled).1 = g.last := by cases g <;> rfl
  refine ⟨(menu (g :: agenda)).dropLast, ((menu (g :: agenda)).getLast filled).2, ?_⟩
  rw [← last]
  exact (List.dropLast_append_getLast filled).symm

/-- The first choice that the text allows. Where it allows none, the last one says where. -/
def firstOf : List Choice → Text → Scan (List Goal)
  | [], stop => fun _ => .absent stop
  | (t, next) :: choices, _ => fun s =>
    match t.scan s with
    | .found _ rest => .found next rest
    | .absent stop => firstOf choices stop s
    | .broken stop e => .broken stop e

inductive Verdict where
  | accepted
  | broken (stop : Text) (expected : Expected)

/-- From its agenda the reader takes one token after the other up to a verdict. -/
inductive Runs : List Goal → Text → Verdict → Prop where
  | read : firstOf (menu agenda) s s = .found next rest → Runs next rest v → Runs agenda s v
  | stuck : firstOf (menu (g :: agenda)) s s = .absent stop →
      Runs (g :: agenda) s (.broken stop g.label)
  | trailing : Absent (keyword "scope") s → s.skipLayout ≠ [] →
      Runs [] s (.broken s.skipLayout .scopeOrEnd)
  | ending : s.skipLayout = [] → Runs [] s .accepted

variable {choices before : List Choice} {next : List Goal} {s stop place rest : Text}

theorem firstOf_found (found : firstOf choices stop s = .found next rest) :
    ∃ before t after, choices = before ++ (t, next) :: after ∧
      (∀ c ∈ before, Absent c.1.scan s) ∧ t.scan s = .found () rest := by
  induction choices generalizing stop with
  | nil => cases found
  | cons c choices ih =>
    obtain ⟨t, goals⟩ := c
    rw [firstOf] at found
    cases same : t.scan s with
    | found u middle =>
      simp only [same, Outcome.found.injEq] at found
      obtain ⟨rfl, rfl⟩ := found
      exact ⟨[], t, choices, rfl, by simp, same⟩
    | absent later =>
      simp only [same] at found
      obtain ⟨before, t', after, rfl, absent, found⟩ := ih found
      exact ⟨(t, goals) :: before, t', after, rfl,
        List.forall_mem_cons.mpr ⟨⟨later, same⟩, absent⟩, found⟩
    | broken stop e => exact absurd same (t.quiet s stop e)

theorem firstOf_of_found (absent : ∀ c ∈ before, Absent c.1.scan s)
    (found : t.scan s = .found () rest) (stop : Text) (after : List Choice) :
    firstOf (before ++ (t, next) :: after) stop s = .found next rest := by
  induction before generalizing stop with
  | nil => simp [firstOf, found]
  | cons c before ih =>
    obtain ⟨⟨later, same⟩, absent⟩ := List.forall_mem_cons.mp absent
    rw [List.cons_append, firstOf]
    simp only [same]
    exact ih absent later

theorem firstOf_absent (stuck : firstOf choices stop s = .absent place) :
    (∀ c ∈ choices, Absent c.1.scan s) ∧
      ∀ init t next, choices = init ++ [(t, next)] → t.scan s = .absent place := by
  induction choices generalizing stop with
  | nil => simp
  | cons c choices ih =>
    obtain ⟨t, goals⟩ := c
    rw [firstOf] at stuck
    cases same : t.scan s with
    | found u middle => simp [same] at stuck
    | absent later =>
      simp only [same] at stuck
      obtain ⟨absent, final⟩ := ih stuck
      refine ⟨List.forall_mem_cons.mpr ⟨⟨later, same⟩, absent⟩, ?_⟩
      intro init t' next split
      cases init with
      | nil =>
        obtain ⟨⟨rfl, rfl⟩, rfl⟩ : (t = t' ∧ goals = next) ∧ choices = [] := by simpa using split
        rw [same, Outcome.absent.injEq]
        exact Outcome.absent.inj stuck
      | cons c init => exact final init t' next (List.cons.inj split).2
    | broken stop e => exact absurd same (t.quiet s stop e)

theorem firstOf_of_absent (absent : ∀ c ∈ before, Absent c.1.scan s)
    (missing : t.scan s = .absent place) (stop : Text) :
    firstOf (before ++ [(t, next)]) stop s = .absent place := by
  induction before generalizing stop with
  | nil => simp [firstOf, missing]
  | cons c before ih =>
    obtain ⟨⟨earlier, same⟩, absent⟩ := List.forall_mem_cons.mp absent
    rw [List.cons_append, firstOf]
    simp only [same]
    exact ih absent earlier

theorem Runs.scope_stands (found : firstOf (menu []) s s = .found next rest) :
    ¬ Absent (keyword "scope") s := by
  rintro ⟨stop, absent⟩
  simp [menu, firstOf, Test.scan, absent] at found

theorem quiet_firstOf (choices : List Choice) (stop : Text) : Quiet (firstOf choices stop) := by
  intro s stop' e
  induction choices generalizing stop with
  | nil => simp [firstOf]
  | cons c choices ih =>
    rw [firstOf]
    cases same : c.1.scan s with
    | found => simp [same]
    | absent later => simpa [same] using ih later
    | broken stop e => exact absurd same (c.1.quiet s stop e)

/-- The text alone decides. -/
theorem Runs.unique (runs : Runs agenda s v) (runs' : Runs agenda s v') : v = v' := by
  induction runs with
  | read found _ ih =>
    cases runs' with
    | read found' runs' =>
      obtain ⟨rfl, rfl⟩ := Outcome.found.inj (found.symm.trans found')
      exact ih runs'
    | stuck absent => simp [absent] at found
    | trailing absent => exact absurd absent (scope_stands found)
    | ending ended => exact absurd (keyword_absent_at_end ended (by decide)) (scope_stands found)
  | stuck absent =>
    cases runs' with
    | read found' => simp [absent] at found'
    | stuck absent' =>
      obtain rfl := Outcome.absent.inj (absent.symm.trans absent')
      rfl
  | trailing absent filled =>
    cases runs' with
    | read found' => exact absurd absent (scope_stands found')
    | trailing => rfl
    | ending ended => exact absurd ended filled
  | ending ended =>
    cases runs' with
    | read found' => exact absurd (keyword_absent_at_end ended (by decide)) (scope_stands found')
    | trailing _ filled => exact absurd ended filled
    | ending => rfl

end SchemaLang.Grammar
