import Mathlib.Data.List.Induction
import SchemaLang.Schema.Basic
import SchemaLang.Trace.Event

/-! The events of an assembly without faults tell how the schema grows: a scope between its two
brackets, a declaration right before it is attached. An observer who sees the events alone finds the
brackets balanced and every number that is reported equal to what came before it. -/
namespace SchemaLang

def Member.event (m : Member) : Event := .builtMember m.name m.type.text

def Case.events (c : Case) : List Event :=
  c.members.map Member.event ++ [.builtCase c.value c.members.length]

/-- Parts are built before the whole. -/
def Declaration.events : Declaration → List Event
  | .enum e => [.builtEnum e.name e.values.length]
  | .struct s =>
    s.members.map Member.event ++ [.builtStruct s.name s.typeId s.supertype s.members.length]
  | .union u => u.cases.flatMap Case.events ++ [.builtUnion u.name u.cases.length]

namespace Scope

def entering (s : Scope) : Event := .entering s.name s.depth

def attaching (s : Scope) (d : Declaration) : Event := .attaching s.name s.depth d.name

def leaving (s : Scope) : Event :=
  .leaving s.name s.depth s.scopes.length s.enums.length s.structs.length s.unions.length

end Scope

/-- The events with which an open scope grows to another state of it. -/
inductive Grows : Scope → List Event → Scope → Prop where
  | still : Grows top [] top
  | declaration {d : Declaration} : Grows (top.declare d) later full →
      Grows top (d.events ++ top.attaching d :: later) full
  | scope {child top : Scope} : child.depth = top.depth + 1 →
      Grows { name := child.name, depth := child.depth } inside child →
      Grows (top.addScope child) later full →
      Grows top (child.entering :: inside ++ child.leaving :: later) full

/-- The events of scopes that no other one encloses. -/
inductive Traces : List Scope → List Event → Prop where
  | nil : Traces [] []
  | cons {s : Scope} : s.depth = 0 → Grows { name := s.name, depth := s.depth } inside s →
      Traces scopes later → Traces (s :: scopes) (s.entering :: inside ++ s.leaving :: later)

theorem Grows.trans (first : Grows top events middle) (then' : Grows middle others full) :
    Grows top (events ++ others) full := by
  induction first with
  | still => exact then'
  | declaration _ ih =>
    rw [List.append_assoc, List.cons_append]
    exact .declaration (ih then')
  | scope depth inside _ _ ih =>
    rw [List.append_assoc, List.cons_append]
    exact .scope depth inside (ih then')

/-- A scope that was entered and not left, with the number of what was built directly inside. -/
structure Bracket where
  scope : String
  depth : Nat
  scopes : Nat := 0
  enums : Nat := 0
  structs : Nat := 0
  unions : Nat := 0
  deriving DecidableEq, Repr

/-- What an observer of events remembers: the brackets that are open, innermost first, how many
outermost ones are closed, the length of the run of members that ends here, the cases that no union
has closed, and a declaration that was built and has to be attached next. -/
structure Observer where
  opened : List Bracket := []
  outermost : Nat := 0
  members : Nat := 0
  cases : Nat := 0
  unattached : Option String := none
  deriving DecidableEq, Repr

namespace Observer

/-- Nothing was built that waits for its owner. -/
def Settled (o : Observer) : Prop := o.members = 0 ∧ o.cases = 0 ∧ o.unattached = none

instance (o : Observer) : Decidable o.Settled :=
  inferInstanceAs (Decidable (o.members = 0 ∧ o.cases = 0 ∧ o.unattached = none))

def enter (o : Observer) (scope : String) (depth : Nat) : Observer :=
  { o with opened := { scope, depth } :: o.opened }

/-- One bracket more for the one around it. -/
def leave (o : Observer) : List Bracket → Observer
  | [] => { o with opened := [], outermost := o.outermost + 1 }
  | outer :: opened => { o with opened := { outer with scopes := outer.scopes + 1 } :: opened }

/-- A declaration takes the members and cases before it and counts where it stands. -/
def declare (o : Observer) (name : String) (count : Bracket → Bracket) : Option Observer :=
  match o.opened with
  | [] => none
  | b :: opened =>
    some { o with opened := count b :: opened, members := 0, cases := 0, unattached := some name }

/-- The observer after an event, unless the event does not fit what was seen before. -/
def observe (o : Observer) : Event → Option Observer
  | .entering scope depth =>
    if o.Settled ∧ depth = o.opened.length then some (o.enter scope depth) else none
  | .leaving scope depth scopes enums structs unions =>
    match o.opened with
    | [] => none
    | b :: opened =>
      if o.Settled ∧ b = ⟨scope, depth, scopes, enums, structs, unions⟩ then some (o.leave opened)
      else none
  | .attaching scope depth declaration =>
    match o.opened with
    | [] => none
    | b :: _ =>
      if o.unattached = some declaration ∧ b.scope = scope ∧ b.depth = depth then
        some { o with unattached := none }
      else none
  | .builtMember .. =>
    if o.unattached = none then some { o with members := o.members + 1 } else none
  | .builtCase _ members =>
    if o.unattached = none ∧ members = o.members then
      some { o with members := 0, cases := o.cases + 1 }
    else none
  | .builtEnum name _ =>
    if o.Settled then o.declare name fun b => { b with enums := b.enums + 1 } else none
  | .builtStruct name _ _ members =>
    if o.unattached = none ∧ o.cases = 0 ∧ members = o.members then
      o.declare name fun b => { b with structs := b.structs + 1 }
    else none
  | .builtUnion name cases =>
    if o.unattached = none ∧ o.members = 0 ∧ cases = o.cases then
      o.declare name fun b => { b with unions := b.unions + 1 }
    else none
  | .compiling .. | .compiled .. => none

def observeAll (o : Observer) (events : List Event) : Option Observer := events.foldlM observe o

@[simp] theorem observeAll_nil (o : Observer) : o.observeAll [] = some o := rfl

@[simp] theorem observeAll_cons (o : Observer) (e : Event) (events : List Event) :
    o.observeAll (e :: events) = (o.observe e).bind (·.observeAll events) := rfl

theorem observeAll_append (o : Observer) (events others : List Event) :
    o.observeAll (events ++ others) = (o.observeAll events).bind (·.observeAll others) :=
  List.foldlM_append

variable {opened : List Bracket} {outermost : Nat}

theorem observeAll_members (count cases : Nat) (members : List Member) :
    observeAll { opened, outermost, members := count, cases } (members.map Member.event) =
      some { opened, outermost, members := count + members.length, cases } := by
  induction members generalizing count with
  | nil => rfl
  | cons m members ih =>
    have next := ih (count + 1)
    rw [Nat.add_right_comm, Nat.add_assoc] at next
    simpa [Member.event, observe] using next

theorem observeAll_cases (count : Nat) (cases : List Case) :
    observeAll { opened, outermost, cases := count } (cases.flatMap Case.events) =
      some { opened, outermost, cases := count + cases.length } := by
  induction cases generalizing count with
  | nil => rfl
  | cons c cases ih =>
    have next := ih (count + 1)
    rw [Nat.add_right_comm, Nat.add_assoc] at next
    rw [List.flatMap_cons, observeAll_append, Case.events, observeAll_append, observeAll_members]
    simpa [observe] using next

end Observer

/-- How many of the members right before it an event takes for its own. -/
def Event.members? : Event → Option Nat
  | .builtCase _ members => some members
  | .builtStruct _ _ _ members => some members
  | _ => none

def Event.isMember : Event → Bool
  | .builtMember .. => true
  | _ => false

/-- The length of the run of members with which the events end. -/
def endingMembers (events : List Event) : Nat := (events.reverse.takeWhile Event.isMember).length

theorem endingMembers_concat (events : List Event) (e : Event) :
    endingMembers (events ++ [e]) = if e.isMember then endingMembers events + 1 else 0 := by
  cases same : e.isMember <;> simp [endingMembers, same]

namespace Observer

variable {o next : Observer} {e : Event}

theorem declare_members {count : Bracket → Bracket} (seen : o.declare name count = some next) :
    next.members = 0 := by
  unfold declare at seen
  split at seen
  · cases seen
  · obtain rfl := Option.some.inj seen
    rfl

theorem leave_members (o : Observer) (opened : List Bracket) :
    (o.leave opened).members = o.members := by
  cases opened <;> rfl

/-- Only a member makes the run longer. Every other event comes where there is none, or ends it. -/
theorem observe_members (waits : o.unattached ≠ none → o.members = 0)
    (seen : o.observe e = some next) :
    (next.unattached ≠ none → next.members = 0) ∧
      next.members = (if e.isMember then o.members + 1 else 0) ∧
      ∀ count, e.members? = some count → count = o.members := by
  cases e with
  | builtMember =>
    obtain ⟨free, rfl⟩ : o.unattached = none ∧ { o with members := o.members + 1 } = next := by
      simpa [observe] using seen
    exact ⟨absurd free, rfl, nofun⟩
  | builtCase value members =>
    obtain ⟨⟨free, rfl⟩, rfl⟩ : (o.unattached = none ∧ members = o.members) ∧
        { o with members := 0, cases := o.cases + 1 } = next := by
      simpa [observe] using seen
    exact ⟨fun _ => rfl, rfl, fun _ same => (Option.some.inj same).symm⟩
  | builtEnum =>
    obtain ⟨-, declared⟩ := by simpa only [observe, Option.ite_none_right_eq_some] using seen
    have ended := declare_members declared
    exact ⟨fun _ => ended, ended, nofun⟩
  | builtStruct =>
    obtain ⟨⟨-, -, rfl⟩, declared⟩ := by
      simpa only [observe, Option.ite_none_right_eq_some] using seen
    have ended := declare_members declared
    exact ⟨fun _ => ended, ended, fun _ same => (Option.some.inj same).symm⟩
  | builtUnion =>
    obtain ⟨-, declared⟩ := by simpa only [observe, Option.ite_none_right_eq_some] using seen
    have ended := declare_members declared
    exact ⟨fun _ => ended, ended, nofun⟩
  | entering =>
    obtain ⟨⟨settled, -⟩, same⟩ := by
      simpa only [observe, Option.ite_none_right_eq_some] using seen
    obtain rfl := Option.some.inj same
    exact ⟨fun _ => settled.1, settled.1, nofun⟩
  | leaving =>
    simp only [observe] at seen
    split at seen
    · cases seen
    · rename_i opened _
      obtain ⟨⟨settled, -⟩, same⟩ := by simpa only [Option.ite_none_right_eq_some] using seen
      obtain rfl := Option.some.inj same
      have ended := (leave_members o opened).trans settled.1
      exact ⟨fun _ => ended, ended, nofun⟩
  | attaching =>
    simp only [observe] at seen
    split at seen
    · cases seen
    · obtain ⟨⟨waiting, -⟩, same⟩ := by simpa only [Option.ite_none_right_eq_some] using seen
      obtain rfl := Option.some.inj same
      have ended := waits (by simp [waiting])
      exact ⟨fun _ => ended, ended, nofun⟩
  | compiling | compiled => cases seen

/-- The members that an observer counts are those with which the events end. -/
theorem observeAll_endingMembers (seen : observeAll {} events = some o) :
    (o.unattached ≠ none → o.members = 0) ∧ o.members = endingMembers events := by
  induction events using List.reverseRecOn generalizing o with
  | nil =>
    obtain rfl := Option.some.inj seen
    exact ⟨fun _ => rfl, rfl⟩
  | append_singleton events e ih =>
    rw [observeAll_append] at seen
    obtain ⟨before, earlier, last⟩ := Option.bind_eq_some_iff.mp seen
    obtain ⟨waits, counted⟩ := ih earlier
    have last : before.observe e = some o := by simpa using last
    obtain ⟨waits', counted', -⟩ := observe_members waits last
    refine ⟨waits', ?_⟩
    rw [counted', counted, endingMembers_concat]

/-- An event that is accepted takes all the members with which the events before it end. -/
theorem endingMembers_before (seen : observeAll {} (before ++ e :: later) = some o)
    (takes : e.members? = some count) : endingMembers before = count := by
  rw [observeAll_append] at seen
  obtain ⟨middle, earlier, rest⟩ := Option.bind_eq_some_iff.mp seen
  obtain ⟨next, last, -⟩ := Option.bind_eq_some_iff.mp rest
  obtain ⟨waits, counted⟩ := observeAll_endingMembers earlier
  rw [(observe_members waits last).2.2 count takes, counted]

end Observer

def Scope.bracket (s : Scope) : Bracket :=
  ⟨s.name, s.depth, s.scopes.length, s.enums.length, s.structs.length, s.unions.length⟩

namespace Observer

variable {top full : Scope} {outer : List Bracket} {outermost : Nat}

/-- A declaration waits for being attached, and its scope has counted it. -/
theorem observeAll_declaration (d : Declaration) :
    observeAll { opened := top.bracket :: outer, outermost } d.events =
      some
        { opened := (top.declare d).bracket :: outer, outermost, unattached := some d.name } := by
  cases d with
  | enum e =>
    simp [Declaration.events, observe, Settled, declare, Scope.bracket, Scope.declare,
      Scope.addEnum, Declaration.name]
  | struct s =>
    rw [Declaration.events, observeAll_append, observeAll_members]
    simp [observe, declare, Scope.bracket, Scope.declare, Scope.addStruct, Declaration.name]
  | union u =>
    rw [Declaration.events, observeAll_append, observeAll_cases]
    simp [observe, declare, Scope.bracket, Scope.declare, Scope.addUnion, Declaration.name]

theorem declare_place (top : Scope) (d : Declaration) :
    (top.declare d).name = top.name ∧ (top.declare d).depth = top.depth := by
  cases d <;> exact ⟨rfl, rfl⟩

theorem observe_attaching (top : Scope) (d : Declaration) :
    observe { opened := (top.declare d).bracket :: outer, outermost, unattached := some d.name }
      (top.attaching d) = some { opened := (top.declare d).bracket :: outer, outermost } := by
  obtain ⟨name, depth⟩ := declare_place top d
  simp [observe, Scope.attaching, Scope.bracket, name, depth]

/-- From its entering to its leaving a scope is one bracket. -/
theorem observeAll_bracket (outer : List Bracket) (outermost : Nat)
    (depth : full.depth = outer.length)
    (inside : observeAll
      { opened := { scope := full.name, depth := full.depth } :: outer, outermost } events =
        some { opened := full.bracket :: outer, outermost }) :
    observeAll { opened := outer, outermost } (full.entering :: events ++ [full.leaving]) =
      some (leave { opened := [], outermost } outer) := by
  rw [List.cons_append, observeAll_cons, Scope.entering, observe,
    if_pos ⟨⟨rfl, rfl, rfl⟩, depth⟩, Option.bind_some, observeAll_append, enter, inside]
  simp [observe, Scope.leaving, Scope.bracket, Settled]
  cases outer <;> rfl

/-- What happens in an open scope is seen as the growth of its bracket. -/
theorem observeAll_grows (grows : Grows top events full) (depth : top.depth = outer.length) :
    observeAll { opened := top.bracket :: outer, outermost } events =
      some { opened := full.bracket :: outer, outermost } := by
  induction grows generalizing outer with
  | still => rfl
  | declaration _ ih =>
    rw [observeAll_append, observeAll_declaration, Option.bind_some, observeAll_cons,
      observe_attaching, Option.bind_some]
    exact ih ((declare_place _ _).2.trans depth)
  | @scope inside later full child top level _ _ inner rest =>
    have level : child.depth = (top.bracket :: outer).length := by simpa [depth] using level
    have closed := observeAll_bracket _ outermost level (inner level)
    have counted : leave { opened := [], outermost } (top.bracket :: outer) =
        { opened := (top.addScope child).bracket :: outer, outermost } := by
      simp [leave, Scope.bracket, Scope.addScope]
    rw [List.append_cons, observeAll_append, closed, counted]
    exact rest depth

/-- A whole schema is seen as its outermost brackets, and nothing is left open. -/
theorem observeAll_traces (traces : Traces scopes events) (outermost : Nat) :
    observeAll { outermost } events = some { outermost := outermost + scopes.length } := by
  induction traces generalizing outermost with
  | nil => rfl
  | cons depth grows _ ih =>
    have closed := observeAll_bracket [] outermost depth (observeAll_grows grows depth)
    have next := ih (outermost + 1)
    rw [Nat.add_right_comm, Nat.add_assoc] at next
    rw [List.append_cons, observeAll_append, closed]
    exact next

end Observer
end SchemaLang
