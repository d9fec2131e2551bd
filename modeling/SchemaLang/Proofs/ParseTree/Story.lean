import SchemaLang.Proofs.ParseTree.Placeless
import SchemaLang.Proofs.Trace.Bracketing

/-! The story of a parse tree, read off by recursion on the tree alone: the events of its assembly and
between them its faults, where they are met. All of the events would be reported if nothing was wrong;
those before the first fault are reported as it is. -/
namespace SchemaLang

variable {π ρ : Type}

inductive Step (π : Type) where
  | event (e : Event)
  | fault (f : Fault π)
  deriving DecidableEq, Repr

abbrev Story (π : Type) := List (Step π)

namespace Step

def fault? : Step π → Option (Fault π)
  | event _ => none
  | fault f => some f

def map (f : π → ρ) : Step π → Step ρ
  | event e => .event e
  | fault wrong => .fault (wrong.map f)

end Step

namespace Story

/-- What is reported ends with the first fault. -/
def told : Story π → List Event
  | .event e :: later => e :: told later
  | _ => []

def faults (s : Story π) : List (Fault π) := s.filterMap Step.fault?

/-- Faults with nothing to report between them. -/
def wrong (faults : List (Fault π)) : Story π := faults.map .fault

variable {s t : Story π}

@[simp] theorem told_nil : told ([] : Story π) = [] := rfl

@[simp] theorem told_event (e : Event) (s : Story π) : told (.event e :: s) = e :: told s := rfl

@[simp] theorem told_fault (f : Fault π) (s : Story π) : told (.fault f :: s) = [] := rfl

@[simp] theorem faults_nil : faults ([] : Story π) = [] := rfl

@[simp] theorem faults_event (e : Event) (s : Story π) : faults (.event e :: s) = faults s := rfl

@[simp] theorem faults_fault (f : Fault π) (s : Story π) :
    faults (.fault f :: s) = f :: faults s := rfl

@[simp] theorem faults_append (s t : Story π) : faults (s ++ t) = faults s ++ faults t :=
  List.filterMap_append

@[simp] theorem faults_wrong (fs : List (Fault π)) : faults (wrong fs) = fs := by
  induction fs with
  | nil => rfl
  | cons f fs ih => exact congrArg (f :: ·) ih

@[simp] theorem told_wrong (fs : List (Fault π)) : told (wrong fs) = [] := by
  cases fs <;> rfl

theorem faults_flatMap (story : α → Story π) (as : List α) :
    faults (as.flatMap story) = as.flatMap fun a => faults (story a) := by
  induction as with
  | nil => rfl
  | cons a as ih => rw [List.flatMap_cons, faults_append, ih, List.flatMap_cons]

theorem told_append_of_faultless (faultless : faults s = []) (t : Story π) :
    told (s ++ t) = told s ++ told t := by
  induction s with
  | nil => rfl
  | cons step s ih =>
    cases step with
    | event e => exact congrArg (e :: ·) (ih faultless)
    | fault f => cases faultless

theorem told_append_of_faulty (faulty : faults s ≠ []) (t : Story π) :
    told (s ++ t) = told s := by
  induction s with
  | nil => exact absurd rfl faulty
  | cons step s ih =>
    cases step with
    | event e => exact congrArg (e :: ·) (ih faulty)
    | fault f => rfl

@[simp] theorem told_map (f : π → ρ) (s : Story π) : told (s.map (Step.map f)) = told s := by
  induction s with
  | nil => rfl
  | cons step s ih =>
    cases step with
    | event e => exact congrArg (e :: ·) ih
    | fault wrong => rfl

@[simp] theorem map_wrong (f : π → ρ) (fs : List (Fault π)) :
    (wrong fs).map (Step.map f) = wrong (fs.map (·.map f)) := by
  simp [wrong, Step.map, Function.comp_def]

end Story

namespace ParseTree

open Story (wrong)

def Enum.story (e : Enum π) : Story π := [.event (.builtEnum e.name.text e.values.length)]

def Member.story (m : Member π) : Story π := wrong m.type.faults ++ [.event m.meaning.event]

/-- The type id is read before the members. -/
def Struct.story (s : Struct π) : Story π :=
  wrong (s.typeId.toList.flatMap (Token.faults Literal.readInt)) ++
    (s.members.flatMap Member.story ++
      [.event (.builtStruct s.name.text s.meaning.typeId s.meaning.supertype s.members.length)])

def Case.story (c : Case π) : Story π :=
  wrong (c.value.faults Literal.readInt) ++
    (c.members.flatMap Member.story ++ [.event (.builtCase c.value.number c.members.length)])

def Union.story (u : Union π) : Story π :=
  u.cases.flatMap Case.story ++ [.event (.builtUnion u.name.text u.cases.length)]

def Declaration.story : Declaration π → Story π
  | .enum e => e.story
  | .struct s => s.story
  | .union u => u.story

mutual
/-- The story of an item in a scope of that name and depth. -/
def Item.story (outer : String) (depth : Nat) : Item π → Story π
  | .scope name items =>
    .event (.entering name.text (depth + 1)) ::
      (Item.allStory name.text (depth + 1) items ++
        [.event (Scope.meaning (depth + 1) ⟨name, items⟩).leaving])
  | .declaration d => d.story ++ [.event (.attaching outer depth d.meaning.name)]
def Item.allStory (outer : String) (depth : Nat) : List (Item π) → Story π
  | [] => []
  | i :: is => i.story outer depth ++ Item.allStory outer depth is
end

theorem Item.allStory_eq (outer : String) (depth : Nat) (items : List (Item π)) :
    Item.allStory outer depth items = items.flatMap (Item.story outer depth) := by
  induction items with
  | nil => rfl
  | cons i is ih => rw [Item.allStory, ih, List.flatMap_cons]

def Scope.story (depth : Nat) (s : Scope π) : Story π :=
  .event (.entering s.name.text depth) ::
    (Item.allStory s.name.text depth s.items ++ [.event (s.meaning depth).leaving])

def Specification.story (s : Specification π) : Story π := s.scopes.flatMap (Scope.story 0)

/-! The faults of a story are the faults of the tree. -/

@[simp] theorem Member.faults_story (m : Member π) : m.story.faults = m.type.faults := by
  simp [Member.story]

@[simp] theorem Struct.faults_story (s : Struct π) : s.story.faults = s.faults := by
  simp [Struct.story, Struct.faults, Story.faults_flatMap]

@[simp] theorem Case.faults_story (c : Case π) : c.story.faults = c.faults := by
  simp [Case.story, Case.faults, Story.faults_flatMap]

@[simp] theorem Declaration.faults_story (d : Declaration π) : d.story.faults = d.faults := by
  cases d <;>
    simp [Declaration.story, Declaration.faults, Enum.story, Union.story, Story.faults_flatMap]

mutual
theorem Item.faults_story (i : Item π) (outer : String) (depth : Nat) :
    (i.story outer depth).faults = i.faults := by
  cases i with
  | declaration d => simp [Item.story, Item.faults]
  | scope name items => simp [Item.story, Item.faults, Item.faults_allStory items]
theorem Item.faults_allStory (items : List (Item π)) (outer : String) (depth : Nat) :
    (Item.allStory outer depth items).faults = Item.allFaults items := by
  cases items with
  | nil => rfl
  | cons i is =>
    rw [Item.allStory, Item.allFaults, Story.faults_append, i.faults_story,
      Item.faults_allStory is]
end

theorem Scope.faults_story (s : Scope π) (depth : Nat) :
    (s.story depth).faults = Item.allFaults s.items := by
  simp [Scope.story, Item.faults_allStory]

theorem Specification.faults_story (s : Specification π) : s.story.faults = s.faults := by
  simp [Specification.story, Specification.faults, Story.faults_flatMap, Scope.faults_story]

/-! Places are no part of what is told. -/

section Map

variable (f : π → ρ)

@[simp] theorem Member.story_map (m : Member π) : (m.map f).story = m.story.map (Step.map f) := by
  rw [Member.story, m.meaning_map f]
  simp [Member.story, Member.map, Step.map]

@[simp] theorem Struct.story_map (s : Struct π) : (s.map f).story = s.story.map (Step.map f) := by
  rw [Struct.story, s.meaning_map f]
  obtain ⟨name, typeId, supertype, members⟩ := s
  cases typeId <;>
    simp [Struct.story, Struct.map, Step.map, List.flatMap_map, List.map_flatMap]
  all_goals rfl

@[simp] theorem Case.story_map (c : Case π) : (c.map f).story = c.story.map (Step.map f) := by
  simp [Case.story, Case.map, Step.map, List.flatMap_map, List.map_flatMap]
  rfl

theorem Declaration.story_map (d : Declaration π) :
    (d.map f).story = d.story.map (Step.map f) := by
  cases d <;>
    simp [Declaration.story, Declaration.map, Enum.story, Enum.map, Union.story, Union.map, Step.map,
      Token.map, List.flatMap_map, List.map_flatMap]

theorem Declaration.meaning_map (d : Declaration π) : (d.map f).meaning = d.meaning := by
  cases d <;> simp [Declaration.map, Declaration.meaning]

mutual
theorem Item.story_map (i : Item π) (outer : String) (depth : Nat) :
    (i.map f).story outer depth = (i.story outer depth).map (Step.map f) := by
  cases i with
  | declaration d =>
    simp [Item.map, Item.story, d.story_map, d.meaning_map, Step.map]
  | scope name items =>
    have closed := Scope.meaning_map f ⟨name, items⟩ (depth + 1)
    rw [Scope.map] at closed
    rw [Item.map, Item.story, closed, Item.allStory_map items]
    simp [Item.story, Step.map, Token.map]
theorem Item.allStory_map (items : List (Item π)) (outer : String) (depth : Nat) :
    Item.allStory outer depth (Item.mapAll f items) =
      (Item.allStory outer depth items).map (Step.map f) := by
  cases items with
  | nil => rfl
  | cons i is =>
    rw [Item.mapAll, Item.allStory, Item.allStory, i.story_map, Item.allStory_map is,
      List.map_append]
end

theorem Scope.story_map (s : Scope π) (depth : Nat) :
    (s.map f).story depth = (s.story depth).map (Step.map f) := by
  rw [Scope.story, s.meaning_map f]
  simp [Scope.story, Scope.map, Item.allStory_map, Step.map, Token.map]

theorem Specification.story_map (s : Specification π) :
    (s.map f).story = s.story.map (Step.map f) := by
  simp [Specification.story, Specification.map, Scope.story_map, List.flatMap_map,
    List.map_flatMap]

end Map
end ParseTree
end SchemaLang
