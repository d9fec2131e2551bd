import SchemaLang.Proofs.Assembly.Refinement
import SchemaLang.Proofs.ParseTree.Story

/-! Assembly reports the story of the tree up to the first fault, whether or not there is one. -/
namespace SchemaLang

open Story (wrong)

variable {s t : Story Position}

/-- The report of a story: what it tells, and the value unless something is wrong. -/
structure Report.Follows (r : Report BuildError α) (s : Story Position) (value : α) : Prop where
  settles : r.Settles s.faults value
  told : r.events = s.told

namespace Report

theorem follows_pure (value : α) : (pure value : Report BuildError α).Follows [] value :=
  ⟨rfl, rfl⟩

theorem follows_emit (e : Event) : (emit e : Report BuildError Unit).Follows [.event e] () :=
  ⟨rfl, rfl⟩

theorem follows_ok (value : α) : (ofExcept (.ok value) : Report BuildError α).Follows [] value :=
  ⟨rfl, rfl⟩

theorem follows_ofExcept {answer : Except BuildError α} (same : answer = settle faults value) :
    (ofExcept answer).Follows (wrong faults) value :=
  ⟨by rw [Story.faults_wrong]; exact same, (Story.told_wrong faults).symm⟩

theorem Follows.bind {r : Report BuildError α} {f : α → Report BuildError β}
    (first : r.Follows s value) (later : s.faults = [] → (f value).Follows t final) :
    (r >>= f).Follows (s ++ t) final := by
  have settles := first.settles.bind (f := f) fun faultless => (later faultless).settles
  rw [← Story.faults_append] at settles
  refine ⟨settles, ?_⟩
  obtain ⟨result, told⟩ := first
  obtain ⟨events, answer⟩ := r
  obtain rfl : events = s.told := told
  obtain rfl : answer = settle s.faults value := result
  cases faults : s.faults with
  | nil =>
    rw [Story.told_append_of_faultless faults, ← (later faults).told]
    rfl
  | cons fault others =>
    rw [Story.told_append_of_faulty (by simp [faults])]
    rfl

theorem Follows.map {r : Report BuildError α} (follows : r.Follows s value) (f : α → β) :
    (f <$> r).Follows s (f value) := by
  rw [← bind_pure_comp, ← List.append_nil s]
  exact follows.bind fun _ => follows_pure _

theorem Follows.after {r : Report BuildError α} (follows : r.Follows s value) (e : α → Event)
    (f : α → β) :
    (r >>= fun a => emit (e a) >>= fun _ => pure (f a)).Follows (s ++ [.event (e value)])
      (f value) :=
  follows.bind fun _ => (follows_emit _).bind fun _ => follows_pure _

theorem follows_mapM {f : α → Report BuildError β} {story : α → Story Position}
    (each : ∀ a, (f a).Follows (story a) (value a)) (as : List α) :
    (as.mapM f).Follows (as.flatMap story) (as.map value) := by
  induction as with
  | nil => exact follows_pure []
  | cons a as ih =>
    rw [List.mapM_cons, List.flatMap_cons, List.map_cons, ← List.append_nil (as.flatMap story)]
    exact (each a).bind fun _ => ih.bind fun _ => follows_pure _

end Report

namespace Assembly

open Report ParseTree

theorem enum_follows (e : ParseTree.Enum Position) : (enum e).Follows e.story e.meaning := by
  have each (p : ParseTree.EnumValue Position × Nat) :
      (ofExcept (value p.1 p.2)).Follows [] ⟨p.1.name.text, p.2⟩ := follows_ok _
  have values := follows_mapM each e.values.zipIdx
  rw [List.flatMap_eq_nil_iff.mpr fun _ _ => rfl] at values
  have built := values.after (fun values => .builtEnum e.name.text values.length)
    fun values => ({ name := e.name.text, values } : SchemaLang.Enum)
  rw [List.length_map, List.length_zipIdx] at built
  exact built

theorem member_follows (m : ParseTree.Member Position) : (member m).Follows m.story m.meaning := by
  have typed := follows_ofExcept (typed_eq m.type)
  exact typed.bind fun _ => (follows_ok m.meaning).after _ id

theorem struct_follows (s : ParseTree.Struct Position) : (struct s).Follows s.story s.meaning := by
  obtain ⟨name, typeId, supertype, members⟩ := s
  have built := follows_mapM member_follows members
  rw [Struct.story, ← List.length_map Member.meaning]
  cases typeId with
  | none => exact (follows_ok 0).bind fun _ => built.after _ _
  | some t =>
    rw [Option.toList_some, List.flatMap_singleton]
    exact (follows_ofExcept (number_eq t)).bind fun _ => built.after _ _

theorem unionCase_follows (c : ParseTree.Case Position) :
    (unionCase c).Follows c.story c.meaning := by
  have members := follows_mapM member_follows c.members
  rw [Case.story, ← List.length_map Member.meaning]
  exact (follows_ofExcept (number_eq c.value)).bind fun _ => members.after _ _

theorem union_follows (u : ParseTree.Union Position) : (union u).Follows u.story u.meaning := by
  rw [Union.story, ← List.length_map Case.meaning]
  exact (follows_mapM unionCase_follows u.cases).after _ _

theorem declaration_follows (d : ParseTree.Declaration Position) :
    (declaration d).Follows d.story d.meaning := by
  cases d with
  | enum e => exact (enum_follows e).map _
  | struct s => exact (struct_follows s).map _
  | union u => exact (union_follows u).map _

namespace Walk

variable {w : Walk α}

theorem told_bind {f : α → Walk β} (runs : w.Runs opened s.faults a middle)
    (told : (w opened).1.events = s.told)
    (later : s.faults = [] → (f a middle).1.events = t.told) :
    ((w >>= f) opened).1.events = Story.told (s ++ t) := by
  have stack := runs.stack
  have result : (w opened).1.result = settle s.faults a := runs.settles
  cases faults : s.faults with
  | nil =>
    rw [faults] at result
    simp only [bind_apply, result, settle, stack, told, later faults,
      Story.told_append_of_faultless faults]
  | cons fault others =>
    rw [faults] at result
    simp only [bind_apply, result, settle, told,
      Story.told_append_of_faulty (s := s) (by simp [faults])]

/-- Where work inside a scope stops, the scope is not left. -/
theorem told_within {work : Walk Unit} {name : String} {built closed : Scope}
    (inside : work.Runs ({ name, depth := opened.length } :: opened) s.faults () (built :: opened))
    (told : (work ({ name, depth := opened.length } :: opened)).1.events = s.told)
    (same : s.faults = [] → built = closed) (place : closed.name = name)
    (depth : closed.depth = opened.length) :
    (within name work opened).1.events =
      Story.told (.event (.entering name opened.length) :: (s ++ [.event closed.leaving])) := by
  obtain ⟨settles, stack⟩ := inside
  have result : (work ({ name, depth := opened.length } :: opened)).1.result =
    settle s.faults () := settles
  simp only [within]
  generalize work ({ name, depth := opened.length } :: opened) = run at result stack told
  obtain ⟨⟨events, result⟩, left⟩ := run
  dsimp only at result stack told
  subst result stack told
  cases faults : s.faults with
  | nil =>
    obtain rfl := same faults
    rw [Story.told_event, Story.told_append_of_faultless faults, Scope.leaving, place, depth]
    rfl
  | cons fault others =>
    rw [Story.told_event, Story.told_append_of_faulty (by simp [faults])]
    rfl

end Walk

theorem scope_told_of (s : ParseTree.Scope Position) (opened : List Scope)
    (inside : (allItems s.items
      ({ name := s.name.text, depth := opened.length } :: opened)).1.events =
        Story.told (Item.allStory s.name.text opened.length s.items)) :
    (scope s opened).1.events = Story.told (s.story opened.length) := by
  have work := allItems_runs s.items { name := s.name.text, depth := opened.length } opened
  rw [← Item.faults_allStory s.items s.name.text opened.length] at work
  refine Walk.told_within work inside (fun faultless => ?_) rfl rfl
  rw [Item.faults_allStory] at faultless
  rw [sound_eq_self faultless]
  rfl

mutual
theorem item_told (i : Item Position) (top : Scope) (opened : List Scope)
    (depth : top.depth = opened.length) :
    (item i (top :: opened)).1.events = Story.told (i.story top.name top.depth) := by
  cases i with
  | scope name items =>
    have inside := allItems_told items { name := name.text, depth := opened.length + 1 }
      (top :: opened) rfl
    have told := scope_told_of ⟨name, items⟩ (top :: opened) inside
    have runs := scope_runs ⟨name, items⟩ (top :: opened)
    rw [← Scope.faults_story _ (top :: opened).length] at runs
    have attached := Walk.told_bind (f := Walk.attachScope) (t := []) runs told fun _ => rfl
    rw [List.append_nil, List.length_cons, ← depth] at attached
    exact attached
  | declaration d =>
    have follows := declaration_follows d
    rw [item, Item.story]
    exact Walk.told_bind (Walk.runs_lift follows.settles (top :: opened)) follows.told fun _ => rfl
theorem allItems_told (items : List (Item Position)) (top : Scope) (opened : List Scope)
    (depth : top.depth = opened.length) :
    (allItems items (top :: opened)).1.events =
      Story.told (Item.allStory top.name top.depth items) := by
  cases items with
  | nil => rfl
  | cons i is =>
    have runs := item_runs i top opened
    rw [← i.faults_story top.name top.depth] at runs
    rw [allItems, Item.allStory]
    exact Walk.told_bind runs (item_told i top opened depth) fun _ =>
      allItems_told is _ opened depth
end

theorem scope_told (s : ParseTree.Scope Position) (opened : List Scope) :
    (scope s opened).1.events = Story.told (s.story opened.length) :=
  scope_told_of s opened (allItems_told s.items _ opened rfl)

theorem scopes_runs_story (scopes : List (ParseTree.Scope Position)) :
    (scopes.mapM scope).Runs [] (Story.faults (scopes.flatMap (ParseTree.Scope.story 0)))
      (scopes.map (·.meaning 0)) [] := by
  simp only [Story.faults_flatMap, ParseTree.Scope.faults_story]
  exact scopes_runs scopes

theorem scopes_told (scopes : List (ParseTree.Scope Position)) :
    (scopes.mapM scope []).1.events = Story.told (scopes.flatMap (ParseTree.Scope.story 0)) := by
  induction scopes with
  | nil => rfl
  | cons s scopes ih =>
    have one := scope_runs s []
    rw [← s.faults_story 0] at one
    rw [List.mapM_cons, List.flatMap_cons]
    apply Walk.told_bind one (scope_told s [])
    intro _
    rw [← List.append_nil (List.flatMap ..)]
    exact Walk.told_bind (scopes_runs_story scopes) ih fun _ => rfl

end Assembly

namespace Assembler

/-- What a build reports is the story of its tree up to the first fault. -/
theorem build_events (a : Assembler) (tree : ParseTree.Specification Position) :
    (a.build tree).1.events = Story.told tree.story := by
  rw [← List.append_nil tree.story]
  exact Assembly.Walk.told_bind (f := fun scopes => pure (Specification.mk scopes)) (t := [])
    (Assembly.scopes_runs_story tree.scopes) (Assembly.scopes_told tree.scopes) fun _ => rfl

end Assembler
end SchemaLang
