import SchemaLang.Proofs.Assembly.Telling
import SchemaLang.Proofs.Assembly.Trace
import SchemaLang.Proofs.ParseTree.Mending

/-! An assembly that fails stops in the middle of its trace. What was finished before has all its
events, the scopes around the fault were entered and not left, and the assembly of the mended tree
repeats the trace and goes on. -/
namespace SchemaLang

variable {π : Type} {fault : Fault π}

namespace Story

/-- Of several parts the first one with a fault stops the story. -/
theorem told_flatMap_of_faulty {story : α → Story π} {before after : List α}
    (earlier : faults (before.flatMap story) = [])
    (faulty : faults (story a) ≠ []) :
    told ((before ++ a :: after).flatMap story) =
      told (before.flatMap story) ++ told (story a) := by
  rw [List.flatMap_append, List.flatMap_cons, told_append_of_faultless earlier,
    told_append_of_faulty faulty]

theorem told_flatMap_of_faultless {story : α → Story π} {events : α → List Event} {as : List α}
    (each : ∀ a, faults (story a) = [] → told (story a) = events a)
    (faultless : faults (as.flatMap story) = []) :
    told (as.flatMap story) = as.flatMap events := by
  induction as with
  | nil => rfl
  | cons a as ih =>
    rw [List.flatMap_cons, faults_append, List.append_eq_nil_iff] at faultless
    rw [List.flatMap_cons, List.flatMap_cons, told_append_of_faultless faultless.1,
      each a faultless.1, ih faultless.2]

end Story

theorem first_faulty {faults : α → List (Fault π)} {as : List α}
    (found : as.flatMap faults = fault :: others) :
    ∃ before a after more, as = before ++ a :: after ∧ before.flatMap faults = [] ∧
      faults a = fault :: more := by
  induction as with
  | nil => cases found
  | cons a as ih =>
    rw [List.flatMap_cons] at found
    cases first : faults a with
    | nil =>
      rw [first, List.nil_append] at found
      obtain ⟨before, b, after, more, rfl, faultless, faulty⟩ := ih found
      exact ⟨a :: before, b, after, more, rfl, by simp [first, faultless], faulty⟩
    | cons f more =>
      rw [first] at found
      obtain rfl : f = fault := List.head_eq_of_cons_eq found
      exact ⟨[], a, as, more, rfl, rfl, first⟩

namespace ParseTree

/-- Members up to one that is at fault, and their events. -/
inductive Member.Halt (fault : Fault π) : List (Member π) → List Event → Prop where
  | member {before after : List (Member π)} :
      before.flatMap (·.type.faults) = [] → m.type.faults = fault :: others →
      Halt fault (before ++ m :: after) (before.map (·.meaning.event))

/-- A case is stopped at its discriminant or inside. -/
inductive Case.Halts (fault : Fault π) (c : Case π) : List Event → Prop where
  | value : c.value.faults Literal.readInt = fault :: others → Halts fault c []
  | members : c.value.faults Literal.readInt = [] → Member.Halt fault c.members events →
      Halts fault c events

inductive Declaration.Halts (fault : Fault π) : Declaration π → List Event → Prop where
  | typeId : s.typeId = some t → t.faults Literal.readInt = fault :: others →
      Halts fault (.struct s) []
  | members : s.typeId.toList.flatMap (Token.faults Literal.readInt) = [] →
      Member.Halt fault s.members events → Halts fault (.struct s) events
  | cases {before after : List (Case π)} : u.cases = before ++ c :: after → before.flatMap Case.faults = [] →
      c.Halts fault events →
      Halts fault (.union u) (before.flatMap (·.meaning.events) ++ events)

/-- A scope that is entered and not left: it has grown by the items before the one that is at fault.
With it stand the scopes that are open, innermost first, each as far as it has grown. -/
inductive Scope.Halts (fault : Fault π) :
    Nat → Scope π → List SchemaLang.Scope → List Event → Prop where
  | declaration {name : Token π} {before after : List (Item π)} : Item.allFaults before = [] →
      Grows { name := name.text, depth } finished (Scope.meaning depth ⟨name, before⟩) →
      d.Halts fault events →
      Halts fault depth ⟨name, before ++ .declaration d :: after⟩
        [Scope.meaning depth ⟨name, before⟩] (.entering name.text depth :: (finished ++ events))
  | scope {name inner : Token π} {before items after : List (Item π)} : Item.allFaults before = [] →
      Grows { name := name.text, depth } finished (Scope.meaning depth ⟨name, before⟩) →
      Halts fault (depth + 1) ⟨inner, items⟩ opened events →
      Halts fault depth ⟨name, before ++ .scope inner items :: after⟩
        (opened ++ [Scope.meaning depth ⟨name, before⟩])
        (.entering name.text depth :: (finished ++ events))

inductive Specification.Halts (fault : Fault π) :
    Specification π → List SchemaLang.Scope → List Event → Prop where
  | scope : (before.flatMap fun s => Item.allFaults s.items) = [] →
      Traces (before.map (·.meaning 0)) finished → s.Halts fault 0 opened events →
      Halts fault ⟨before ++ s :: after⟩ opened (finished ++ events)

/-! The story of a tree with a fault stops where the fault is. -/

theorem Member.told_story {m : Member π} (faultless : m.story.faults = []) :
    m.story.told = [m.meaning.event] := by
  rw [faults_story] at faultless
  simp [story, faultless, Story.wrong]

theorem told_members {ms : List (Member π)} (faultless : ms.flatMap (·.type.faults) = []) :
    Story.told (ms.flatMap Member.story) = ms.map (·.meaning.event) := by
  rw [List.map_eq_flatMap]
  exact Story.told_flatMap_of_faultless (fun _ => Member.told_story)
    (by simpa [Story.faults_flatMap] using faultless)

theorem Member.halt_of_faulty {ms : List (Member π)}
    (faulty : ms.flatMap (·.type.faults) = fault :: others) :
    Member.Halt fault ms (Story.told (ms.flatMap Member.story)) := by
  obtain ⟨before, m, after, more, rfl, earlier, found⟩ := first_faulty faulty
  have stopped : m.story.told = [] := by
    rw [Member.story, Story.told_append_of_faulty (by simp [found]), Story.told_wrong]
  rw [Story.told_flatMap_of_faulty (by simpa [Story.faults_flatMap] using earlier)
    (by simp [found]), stopped, told_members earlier, List.append_nil]
  exact .member earlier found

theorem Case.told_story {c : Case π} (faultless : c.story.faults = []) :
    c.story.told = c.meaning.events := by
  rw [faults_story] at faultless
  obtain ⟨value, parts⟩ := List.append_eq_nil_iff.mp faultless
  have told := told_members parts
  rw [story, value, Story.told_append_of_faultless (by simp),
    Story.told_append_of_faultless (by simpa [Story.faults_flatMap] using parts), told]
  simp [meaning, SchemaLang.Case.events, Story.wrong]

/-- A story whose start has a fault stops in it. -/
theorem told_of_faulty_start {s : Story π} (found : s.faults = fault :: others) (t : Story π) :
    Story.told (s ++ t) = s.told :=
  Story.told_append_of_faulty (by simp [found]) t

theorem Case.halts_of_faulty {c : Case π} (faulty : c.faults = fault :: others) :
    c.Halts fault c.story.told := by
  cases value : c.value.faults Literal.readInt with
  | cons f more =>
    obtain rfl : f = fault := by
      rw [Case.faults, value] at faulty
      exact List.head_eq_of_cons_eq faulty
    rw [Case.story, value, told_of_faulty_start (Story.faults_wrong _), Story.told_wrong]
    exact .value value
  | nil =>
    rw [Case.faults, value, List.nil_append] at faulty
    rw [Case.story, value]
    have found : Story.faults (c.members.flatMap Member.story) = fault :: others := by
      simpa [Story.faults_flatMap] using faulty
    have told := told_of_faulty_start found
      [.event (.builtCase c.value.number c.members.length)]
    exact .members value (told ▸ Member.halt_of_faulty faulty)

theorem Declaration.halts_of_faulty {d : Declaration π} (faulty : d.faults = fault :: others) :
    d.Halts fault d.story.told := by
  cases d with
  | enum e => cases faulty
  | struct s =>
    cases ids : s.typeId.toList.flatMap (Token.faults Literal.readInt) with
    | cons f more =>
      obtain rfl : f = fault := by
        rw [Declaration.faults, Struct.faults, ids] at faulty
        exact List.head_eq_of_cons_eq faulty
      obtain ⟨t, written, found⟩ : ∃ t, s.typeId = some t ∧
          t.faults Literal.readInt = f :: more := by
        cases written : s.typeId with
        | none => simp [written] at ids
        | some t => exact ⟨t, rfl, by simpa [written] using ids⟩
      rw [Declaration.story, Struct.story, ids, told_of_faulty_start (Story.faults_wrong _),
        Story.told_wrong]
      exact .typeId written found
    | nil =>
      rw [Declaration.faults, Struct.faults, ids, List.nil_append] at faulty
      have found : Story.faults (s.members.flatMap Member.story) = fault :: others := by
        simpa [Story.faults_flatMap] using faulty
      rw [Declaration.story, Struct.story, ids]
      have told := told_of_faulty_start found [.event
        (.builtStruct s.name.text s.meaning.typeId s.meaning.supertype s.members.length)]
      exact .members ids (told ▸ Member.halt_of_faulty faulty)
  | union u =>
    obtain ⟨before, c, after, more, cases, earlier, found⟩ := first_faulty faulty
    have sound : Story.faults (before.flatMap Case.story) = [] := by
      simpa [Story.faults_flatMap] using earlier
    have whole : Story.faults (u.cases.flatMap Case.story) = fault :: others := by
      simpa [Story.faults_flatMap] using show u.cases.flatMap Case.faults = _ from faulty
    have told := told_of_faulty_start whole [.event (.builtUnion u.name.text u.cases.length)]
    rw [cases, Story.told_flatMap_of_faulty sound (by simp [found]),
      Story.told_flatMap_of_faultless (fun _ => Case.told_story) sound, ← cases] at told
    exact told ▸ .cases cases earlier (Case.halts_of_faulty found)

end ParseTree

namespace Assembly

open ParseTree (Item)

variable {fault : Fault Position}

/-- The items before a fault let the open scope grow to what it means with these items alone. -/
theorem grows_of_faultless (name : Token Position) {items : List (Item Position)}
    (faultless : Item.allFaults items = []) (opened : List Scope) :
    Grows { name := name.text, depth := opened.length }
      (Story.told (Item.allStory name.text opened.length items))
      (ParseTree.Scope.meaning opened.length ⟨name, items⟩) := by
  have grows := allItems_grows items faultless { name := name.text, depth := opened.length } opened rfl
  rw [allItems_told items _ opened rfl] at grows
  exact grows

theorem traces_of_faultless {scopes : List (ParseTree.Scope Position)}
    (faultless : (scopes.flatMap fun s => Item.allFaults s.items) = []) :
    Traces (scopes.map (·.meaning 0)) (Story.told (scopes.flatMap (ParseTree.Scope.story 0))) :=
  scopes_told scopes ▸ scopes_trace scopes faultless

theorem scope_halts (name : Token Position) (items : List (Item Position)) (opened : List Scope)
    (faulty : Item.allFaults items = fault :: others) :
    ∃ stack, ParseTree.Scope.Halts fault opened.length ⟨name, items⟩ stack
      (Story.told (ParseTree.Scope.story opened.length ⟨name, items⟩)) := by
  have inside : Story.faults (Item.allStory name.text opened.length items) = fault :: others := by
    rw [Item.faults_allStory, faulty]
  rw [ParseTree.Scope.story, Story.told_event, ParseTree.told_of_faulty_start inside,
    Item.allStory_eq]
  obtain ⟨before, i, after, more, split, earlier, found⟩ :=
    first_faulty ((Item.allFaults_eq items).symm.trans faulty)
  rw [← Item.allFaults_eq] at earlier
  have grows := grows_of_faultless name earlier opened
  have sound := Item.faults_allStory before name.text opened.length
  rw [earlier, Item.allStory_eq] at sound
  rw [Item.allStory_eq] at grows
  have smaller : sizeOf i < sizeOf items := List.sizeOf_lt_of_mem (by simp [split])
  rw [split, Story.told_flatMap_of_faulty sound (by simp [Item.faults_story, found])]
  cases i with
  | declaration d =>
    have stopped := ParseTree.told_of_faulty_start (d.faults_story.trans found)
      [.event (.attaching name.text opened.length d.meaning.name)]
    rw [Item.story, stopped]
    exact ⟨_, .declaration earlier grows (ParseTree.Declaration.halts_of_faulty found)⟩
  | scope inner nested =>
    obtain ⟨stack, halts⟩ := scope_halts inner nested
      (ParseTree.Scope.meaning opened.length ⟨name, before⟩ :: opened) found
    exact ⟨_, .scope earlier grows halts⟩
termination_by sizeOf items
decreasing_by
  rw [Item.scope.sizeOf_spec] at smaller
  omega

theorem specification_halts (s : ParseTree.Specification Position)
    (faulty : s.faults = fault :: others) : ∃ stack, s.Halts fault stack s.story.told := by
  obtain ⟨scopes⟩ := s
  obtain ⟨before, s, after, more, rfl, earlier, found⟩ := first_faulty faulty
  have sound : Story.faults (before.flatMap (ParseTree.Scope.story 0)) = [] := by
    simpa [Story.faults_flatMap, ParseTree.Scope.faults_story] using earlier
  obtain ⟨stack, halts⟩ := scope_halts s.name s.items [] found
  rw [ParseTree.Specification.story,
    Story.told_flatMap_of_faulty sound (by simp [ParseTree.Scope.faults_story, found])]
  exact ⟨stack, .scope earlier (traces_of_faultless earlier) halts⟩

end Assembly

/-! What an observer of an interrupted trace has seen. -/

namespace Observer

open ParseTree

variable {opened outer : List Bracket} {outermost : Nat}

theorem observeAll_halt {ms : List (ParseTree.Member π)} (halt : Member.Halt fault ms events)
    (cases : Nat) :
    ∃ members, observeAll { opened, outermost, cases } events =
      some { opened, outermost, members, cases } := by
  cases halt with
  | @member _ _ before =>
    have seen : observeAll { opened, outermost, cases } _ = _ :=
      observeAll_members 0 cases (before.map ParseTree.Member.meaning)
    rw [List.map_map] at seen
    exact ⟨_, seen⟩

theorem observeAll_case_halts {c : ParseTree.Case π} (halts : c.Halts fault events) (cases : Nat) :
    ∃ members, observeAll { opened, outermost, cases } events =
      some { opened, outermost, members, cases } := by
  cases halts with
  | value => exact ⟨0, rfl⟩
  | members _ halt => exact observeAll_halt halt _

theorem observeAll_declaration_halts {d : ParseTree.Declaration π} (halts : d.Halts fault events) :
    ∃ members cases, observeAll { opened, outermost } events =
      some { opened, outermost, members, cases } := by
  cases halts with
  | typeId => exact ⟨0, 0, rfl⟩
  | members _ halt =>
    obtain ⟨members, seen⟩ := observeAll_halt halt 0
    exact ⟨members, 0, seen⟩
  | @cases _ _ _ before _ _ _ halts =>
    have earlier : observeAll { opened, outermost } _ = _ :=
      observeAll_cases 0 (before.map ParseTree.Case.meaning)
    rw [List.flatMap_map] at earlier
    obtain ⟨members, seen⟩ := observeAll_case_halts halts
      (0 + (before.map ParseTree.Case.meaning).length)
    rw [observeAll_append, earlier]
    exact ⟨members, _, seen⟩

/-- Inside a scope that is entered and grows, the scope is one bracket more. -/
theorem observeAll_inside {full : Scope}
    (grows : Grows { name, depth := outer.length } finished full) (events : List Event) :
    observeAll { opened := outer, outermost } (.entering name outer.length :: (finished ++ events)) =
      observeAll { opened := full.bracket :: outer, outermost } events := by
  have seen : observeAll { opened := Scope.bracket { name, depth := _ } :: outer, outermost } _ = _ :=
    observeAll_grows grows rfl
  rw [observeAll_cons, observe, if_pos ⟨⟨rfl, rfl, rfl⟩, rfl⟩, Option.bind_some, observeAll_append]
  exact congrArg (Option.bind · _) seen

/-- The brackets that are left open are those of the scopes that were entered and not left. -/
theorem observeAll_scope_halts {s : ParseTree.Scope π} (halts : s.Halts fault depth stack events)
    (level : depth = outer.length) :
    ∃ members cases, observeAll { opened := outer, outermost } events =
      some { opened := stack.map Scope.bracket ++ outer, outermost, members, cases } := by
  induction halts generalizing outer with
  | declaration _ grows halts =>
    subst level
    rw [observeAll_inside grows]
    exact observeAll_declaration_halts halts
  | @scope _ _ _ _ name _ before _ _ _ grows _ ih =>
    subst level
    let top := ParseTree.Scope.meaning outer.length ⟨name, before⟩
    have level : outer.length + 1 = (top.bracket :: outer).length := rfl
    obtain ⟨members, cases, seen⟩ := ih level
    rw [observeAll_inside grows, seen]
    exact ⟨members, cases, by simp [top]⟩

theorem observeAll_halts {s : ParseTree.Specification π} (halts : s.Halts fault stack events) :
    ∃ o, observeAll {} events = some o ∧ o.opened = stack.map Scope.bracket := by
  obtain ⟨-, traces, halts⟩ := halts
  have level : 0 = ([] : List Bracket).length := rfl
  obtain ⟨members, cases, seen⟩ := observeAll_scope_halts halts level
  rw [observeAll_append, observeAll_traces traces, Option.bind_some, seen]
  exact ⟨_, rfl, List.append_nil _⟩

end Observer

namespace Assembler

/-- An assembly that fails reports a proper start of what is reported of the mended tree, which is
assembled. It stops at the fault whose error it gives: the scopes that are open there were entered and
not left, and all that is finished there has all its events. -/
theorem interrupted_trace (a b : Assembler) {tree mended : ParseTree.Specification Position}
    (mends : tree.Mends mended) (failed : (a.build tree).1.result = .error e) :
    (∃ schema, (b.build mended).1.result = .ok schema) ∧
      (a.build tree).1.events <+: (b.build mended).1.events ∧
      (a.build tree).1.events ≠ (b.build mended).1.events ∧
      ∃ fault opened, e = fault.error ∧ tree.Halts fault opened (a.build tree).1.events ∧
        ∃ o, Observer.observeAll {} (a.build tree).1.events = some o ∧
          o.opened = opened.map Scope.bracket := by
  have outlasts := mends.outlasts
  have sound : mended.faults = [] := mended.faults_story.symm.trans outlasts.faultless
  have result (c : Assembler) (t : ParseTree.Specification Position) :
      (c.build t).1.result = settle t.faults t.meaning := (Assembly.specification_runs t).settles
  rw [result] at failed
  rw [result, sound, build_events, build_events]
  cases faults : tree.faults with
  | nil => simp [faults, settle] at failed
  | cons fault others =>
    have longer := outlasts.longer (by simp [tree.faults_story, faults])
    obtain rfl : fault.error = e := by simpa [faults, settle] using failed
    obtain ⟨opened, halts⟩ := Assembly.specification_halts tree faults
    exact ⟨⟨_, rfl⟩, outlasts.further, fun same => absurd (congrArg List.length same) longer.ne,
      fault, opened, rfl, halts, Observer.observeAll_halts halts⟩

/-- An octets size of zero two scopes deep, and after it a discriminant that is no number and octets
without a size. -/
theorem interrupted_trace_octets :
    let word (text : String) : Token Position := ⟨text, ⟨1, 1⟩⟩
    let octets (size : String) : ParseTree.TypeSpec Position :=
      .octets (word "octets") (some (word size)) none
    let tree (size : String) (value : String) (type : ParseTree.TypeSpec Position) :
        ParseTree.Specification Position :=
      ⟨[⟨word "a", [
        .scope (word "b") [.declaration (.struct ⟨word "s", none, none,
          [⟨.named (word "t"), word "x"⟩, ⟨octets size, word "y"⟩]⟩)],
        .declaration (.union ⟨word "u", none, [⟨word value, [⟨type, word "z"⟩]⟩]⟩)]⟩]⟩
    let wrong := tree "0" "1z" (.primitive .octets (word "octets"))
    let mended := tree "4" "1" (.octets (word "octets") none (some (word "n")))
    let error : BuildError := .malformedLiteral "0" .zeroSize (some ⟨1, 1⟩)
    wrong.Mends mended ∧ (build {} wrong).1.result = .error error ∧
      (build {} wrong).1.events = [.entering "a" 0, .entering "b" 1, .builtMember "x" "t"] ∧
      (build {} wrong).1.events <+: (build {} mended).1.events ∧
      (build {} wrong).1.events ≠ (build {} mended).1.events := by
  intro word octets tree wrong mended error
  have zero : (word "0").faults Literal.readSize = [.literal "0" .zeroSize ⟨1, 1⟩] := by cbv
  have letter : (word "1z").faults Literal.readInt = [.literal "1z" .invalidDigit ⟨1, 1⟩] := by cbv
  have size : (octets "0").Mends (octets "4") := .size (.replaced (by simp [zero]) (by cbv))
  have value : (word "1z").Mends Literal.readInt (word "1") :=
    .replaced (by simp [letter]) (by cbv)
  have form : (ParseTree.TypeSpec.primitive .octets (word "octets")).Mends
    (.octets (word "octets") none (some (word "n"))) := .sized .bare
  have struct : (ParseTree.Struct.mk (word "s") none none
      [⟨.named (word "t"), word "x"⟩, ⟨octets "0", word "y"⟩]).Mends
        ⟨word "s", none, none, [⟨.named (word "t"), word "x"⟩, ⟨octets "4", word "y"⟩]⟩ :=
    ⟨rfl, .none, rfl, .cons ⟨.named, rfl⟩ (.cons ⟨size, rfl⟩ .nil)⟩
  have mends : wrong.Mends mended :=
    ⟨.cons ⟨rfl, .cons (.scope (.cons (.declaration (.struct struct)) .nil))
      (.cons (.declaration (.union ⟨rfl, rfl, .cons ⟨value, .cons ⟨form, rfl⟩ .nil⟩ .nil⟩)) .nil)⟩
      .nil⟩
  have failed : (build {} wrong).1.result = .error error := by cbv
  have events : (build {} wrong).1.events =
    [.entering "a" 0, .entering "b" 1, .builtMember "x" "t"] := by cbv
  obtain ⟨-, start, proper, -⟩ := interrupted_trace {} {} mends failed
  exact ⟨mends, failed, events, start, proper⟩

end Assembler
end SchemaLang
