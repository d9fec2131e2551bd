import SchemaLang.Proofs.Assembly.Refinement
import SchemaLang.Proofs.Trace.Bracketing

/-! Which events an assembly without faults reports. A declaration tells of its parts and then of
itself, and work on an open scope tells how the scope grows. -/
namespace SchemaLang

/-- The events behind a value, which is all that decides them. -/
def Report.Tells (r : Report ε α) (story : α → List Event) : Prop :=
  ∀ a, r.result = .ok a → r.events = story a

namespace Report

theorem tells_ofExcept (answer : Except ε α) : (ofExcept answer).Tells fun _ => [] :=
  fun _ _ => rfl

/-- What is silent adds nothing to what follows. -/
theorem tells_silent {f : α → Report ε β} (answer : Except ε α)
    (later : ∀ a, (f a).Tells story) : (ofExcept answer >>= f).Tells story := by
  intro b same
  cases answer with
  | error e => cases same
  | ok a => exact later a b same

theorem Tells.after {r : Report ε α} (tells : r.Tells story) {e : α → Event} {f : α → β}
    (more : ∀ a, story' (f a) = story a ++ [e a]) :
    (r >>= fun a => emit (e a) >>= fun _ => pure (f a)).Tells story' := by
  obtain ⟨events, result⟩ := r
  intro b same
  cases result with
  | error e => cases same
  | ok a =>
    obtain rfl : f a = b := Except.ok.inj same
    have first : events = story a := tells a rfl
    rw [more, ← first]
    rfl

theorem Tells.map {r : Report ε α} {f : α → β} (tells : r.Tells fun a => story (f a)) :
    (f <$> r).Tells story := by
  obtain ⟨events, result⟩ := r
  intro b same
  cases result with
  | error e => cases same
  | ok a =>
    obtain rfl : f a = b := Except.ok.inj same
    exact (List.append_nil events).trans (tells a rfl)

theorem tells_mapM {f : α → Report ε β} (each : ∀ a, (f a).Tells story) (as : List α) :
    (as.mapM f).Tells (·.flatMap story) := by
  induction as with
  | nil =>
    intro bs same
    obtain rfl : [] = bs := Except.ok.inj same
    rfl
  | cons a as ih =>
    rw [List.mapM_cons]
    have first := each a
    generalize f a = r at first
    generalize as.mapM f = rs at ih
    obtain ⟨events, result⟩ := r
    obtain ⟨others, results⟩ := rs
    intro bs same
    cases result with
    | error e => cases same
    | ok b =>
      cases results with
      | error e => cases same
      | ok later =>
        obtain rfl : b :: later = bs := Except.ok.inj same
        have head : events = story b := first b rfl
        have tail : others = later.flatMap story := ih later rfl
        dsimp only
        rw [List.flatMap_cons, ← head, ← tail]
        exact congrArg (events ++ ·) (List.append_nil others)

end Report

namespace Assembly

open Report ParseTree

theorem enum_tells (e : ParseTree.Enum Position) :
    (enum e).Tells fun built => (SchemaLang.Declaration.enum built).events := by
  have values := tells_mapM (fun p : ParseTree.EnumValue Position × Nat =>
    tells_ofExcept (value p.1 p.2)) e.values.zipIdx
  exact values.after fun values => by simp [SchemaLang.Declaration.events]

theorem member_tells (m : ParseTree.Member Position) :
    (member m).Tells fun built => [built.event] :=
  tells_silent _ fun _ => (tells_ofExcept _).after (f := id) fun _ => rfl

theorem struct_tells (s : ParseTree.Struct Position) :
    (struct s).Tells fun built => (SchemaLang.Declaration.struct built).events := by
  apply tells_silent
  intro typeId
  apply (tells_mapM member_tells s.members).after
  intro members
  simp [SchemaLang.Declaration.events, List.map_eq_flatMap]

theorem unionCase_tells (c : ParseTree.Case Position) :
    (unionCase c).Tells SchemaLang.Case.events := by
  apply tells_silent
  intro value
  apply (tells_mapM member_tells c.members).after
  intro members
  simp [SchemaLang.Case.events, List.map_eq_flatMap]

theorem union_tells (u : ParseTree.Union Position) :
    (union u).Tells fun built => (SchemaLang.Declaration.union built).events :=
  (tells_mapM unionCase_tells u.cases).after fun _ => rfl

theorem declaration_tells (d : ParseTree.Declaration Position) :
    (declaration d).Tells SchemaLang.Declaration.events := by
  cases d with
  | enum e => exact (enum_tells e).map
  | struct s => exact (struct_tells s).map
  | union u => exact (union_tells u).map

namespace Walk

/-- The events of work that is done, and of what follows it. -/
theorem bind_events {w : Walk α} {f : α → Walk β} (done : (w opened).1.result = .ok a) :
    ((w >>= f) opened).1.events = (w opened).1.events ++ (f a (w opened).2).1.events := by
  rw [bind_apply, done]

/-- Work inside a scope is reported between its two brackets. -/
theorem within_events {work : Walk Unit} {name : String} {built : Scope} (opened : List Scope)
    (inside : work.Runs ({ name, depth := opened.length } :: opened) [] () (built :: opened))
    (same : built.name = name) (depth : built.depth = opened.length) :
    (within name work opened).1.events =
      built.entering :: (work ({ name, depth := opened.length } :: opened)).1.events ++
        [built.leaving] := by
  obtain ⟨settles, stack⟩ := inside
  have result : (work ({ name, depth := opened.length } :: opened)).1.result = .ok () := settles
  rw [within, Scope.entering, Scope.leaving, same, depth]
  generalize work ({ name, depth := opened.length } :: opened) = run at result stack
  obtain ⟨⟨events, result⟩, left⟩ := run
  dsimp only at result stack
  subst result stack
  rfl

end Walk

mutual
/-- The events of an item without faults tell how the scope on top grows by it. -/
theorem item_grows (i : Item Position) (faultless : i.faults = []) (top : Scope)
    (opened : List Scope) (depth : top.depth = opened.length) :
    Grows top (item i (top :: opened)).1.events (grown (opened.length + 1) [i] top) := by
  cases i with
  | scope name items =>
    have work := allItems_runs items { name := name.text, depth := opened.length + 1 }
      (top :: opened)
    rw [sound_eq_self faultless, show Item.allFaults items = [] from faultless] at work
    have inside := allItems_grows items faultless
      { name := name.text, depth := opened.length + 1 } (top :: opened) rfl
    have closed : (Walk.within name.text (allItems items)).Runs (top :: opened) [] _ _ :=
      Walk.runs_within work
    have events := Walk.within_events (top :: opened) work rfl rfl
    rw [item, Walk.bind_events closed.settles, closed.stack, events, grown_scope,
      List.append_assoc]
    exact .scope (congrArg (· + 1) depth.symm) inside .still
  | declaration d =>
    have settles : (declaration d).result = .ok d.meaning := by
      rw [declaration_settles d, show d.faults = [] from faultless]
      rfl
    have events := declaration_tells d _ settles
    rw [item, Walk.bind_events settles, grown_declaration]
    exact events ▸ .declaration .still
theorem allItems_grows (items : List (Item Position)) (faultless : Item.allFaults items = [])
    (top : Scope) (opened : List Scope) (depth : top.depth = opened.length) :
    Grows top (allItems items (top :: opened)).1.events (grown (opened.length + 1) items top) := by
  cases items with
  | nil => exact (grown_nil ..).symm ▸ .still
  | cons i is =>
    obtain ⟨first, later⟩ := List.append_eq_nil_iff.mp faultless
    have alone : sound [i] = [i] := sound_cons_of_faultless first []
    have runs := item_runs i top opened
    rw [alone, first] at runs
    rw [allItems, Walk.bind_events runs.settles, runs.stack, grown_cons _ i is]
    exact (item_grows i first top opened depth).trans (allItems_grows is later _ opened depth)
end

theorem scope_trace (s : ParseTree.Scope Position) (faultless : Item.allFaults s.items = []) :
    ∃ inside, (scope s []).1.events =
        (s.meaning 0).entering :: inside ++ [(s.meaning 0).leaving] ∧
      Grows { name := (s.meaning 0).name, depth := 0 } inside (s.meaning 0) := by
  have work := allItems_runs s.items { name := s.name.text, depth := 0 } []
  rw [sound_eq_self faultless, faultless] at work
  exact ⟨_, Walk.within_events [] work rfl rfl,
    allItems_grows s.items faultless { name := s.name.text, depth := 0 } [] rfl⟩

theorem scopes_trace (scopes : List (ParseTree.Scope Position))
    (faultless : (scopes.flatMap fun s => Item.allFaults s.items) = []) :
    Traces (scopes.map (·.meaning 0)) (scopes.mapM scope []).1.events := by
  induction scopes with
  | nil => exact .nil
  | cons s scopes ih =>
    rw [List.flatMap_cons, List.append_eq_nil_iff] at faultless
    obtain ⟨first, later⟩ := faultless
    obtain ⟨inside, events, grows⟩ := scope_trace s first
    have one := scope_runs s []
    have others := scopes_runs scopes
    rw [first] at one
    rw [later] at others
    rw [List.mapM_cons, Walk.bind_events one.settles, one.stack, events,
      Walk.bind_events others.settles, List.append_assoc]
    simpa [Walk.pure_apply, Report.pure_def] using Traces.cons rfl grows (ih later)

theorem specification_trace (s : ParseTree.Specification Position) (faultless : s.faults = []) :
    Traces s.meaning.scopes (specification s []).1.events := by
  have runs := scopes_runs s.scopes
  rw [show s.scopes.flatMap (fun scope => Item.allFaults scope.items) = [] from faultless] at runs
  rw [specification, Walk.bind_events runs.settles, Walk.pure_apply, Report.pure_def,
    List.append_nil]
  exact scopes_trace s.scopes faultless

end Assembly
end SchemaLang
