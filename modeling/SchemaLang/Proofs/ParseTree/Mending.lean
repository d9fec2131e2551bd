import Mathlib.Data.List.Forall2
import Mathlib.Data.Option.Basic
import SchemaLang.Proofs.ParseTree.Story

/-! Trees in which everything that is wrong is put right and nothing else is changed. The story of such
a tree starts with what was told of the other one. -/
namespace SchemaLang

variable {π : Type}

namespace Story

/-- A story without faults that goes on where another one may have stopped. -/
structure Resumes (s t : Story π) : Prop where
  faultless : faults t = []
  same : faults s = [] → t = s
  further : told s <+: told t

/-- More is told than before if anything was wrong. -/
structure Outlasts (s t : Story π) : Prop extends Resumes s t where
  longer : faults s ≠ [] → (told s).length < (told t).length

variable {s t s' t' : Story π}

theorem Resumes.refl (faultless : faults s = []) : Resumes s s :=
  ⟨faultless, fun _ => rfl, List.prefix_refl _⟩

theorem resumes_wrong {fs gs : List (Fault π)} (faultless : gs = []) (same : fs = [] → gs = fs) :
    Resumes (wrong fs) (wrong gs) :=
  ⟨by rw [faults_wrong, faultless], fun none => by rw [same (by simpa using none)], by simp⟩

theorem Resumes.append (first : Resumes s t) (later : Resumes s' t') :
    Resumes (s ++ s') (t ++ t') := by
  refine ⟨by simp [first.faultless, later.faultless], fun none => ?_, ?_⟩
  · rw [faults_append, List.append_eq_nil_iff] at none
    rw [first.same none.1, later.same none.2]
  · rw [told_append_of_faultless first.faultless]
    by_cases faults : faults s = []
    · rw [told_append_of_faultless faults, first.same faults]
      exact (List.prefix_append_right_inj _).mpr later.further
    · rw [told_append_of_faulty faults]
      exact first.further.trans (List.prefix_append _ _)

theorem Outlasts.append (first : Outlasts s t) (later : Outlasts s' t') :
    Outlasts (s ++ s') (t ++ t') := by
  refine ⟨first.toResumes.append later.toResumes, fun faulty => ?_⟩
  rw [told_append_of_faultless first.faultless, List.length_append]
  by_cases faults : faults s = []
  · have longer := later.longer (by simpa [faults] using faulty)
    rw [told_append_of_faultless faults, first.same faults, List.length_append]
    omega
  · have longer := first.longer faults
    rw [told_append_of_faulty faults]
    omega

/-- The event at the end is not told if something was wrong before it. -/
theorem Resumes.closed (first : Resumes s t) (same : faults s = [] → e' = e) :
    Outlasts (s ++ [.event e]) (t ++ [.event e']) := by
  by_cases none : faults s = []
  · rw [first.same none, same none]
    exact ⟨.refl (by simp [none]), absurd (by simp [none])⟩
  · have whole := told_append_of_faultless first.faultless [.event e']
    have stopped := told_append_of_faulty none [.event e]
    refine ⟨⟨by simp [first.faultless], fun sound => absurd (by simpa using sound) none, ?_⟩,
      fun _ => ?_⟩
    · rw [whole, stopped]
      exact first.further.trans (List.prefix_append _ _)
    · rw [whole, stopped, List.length_append]
      exact Nat.lt_succ_of_le first.further.length_le

theorem resumes_flatMap {story : α → Story π}
    (each : List.Forall₂ (fun a b => Resumes (story a) (story b)) as bs) :
    Resumes (as.flatMap story) (bs.flatMap story) := by
  induction each with
  | nil => exact .refl rfl
  | cons first _ ih => exact first.append ih

theorem outlasts_flatMap {story : α → Story π}
    (each : List.Forall₂ (fun a b => Outlasts (story a) (story b)) as bs) :
    Outlasts (as.flatMap story) (bs.flatMap story) := by
  induction each with
  | nil => exact ⟨.refl rfl, absurd rfl⟩
  | cons first _ ih => exact first.append ih

end Story

/-- A literal that can be read is kept, and any other one is replaced by one that can be read. -/
inductive Token.Mends (read : Text → Except LiteralFault α) (t : Token π) : Token π → Prop where
  | kept : t.faults read = [] → Mends read t t
  | replaced : t.faults read ≠ [] → t'.faults read = [] → Mends read t t'

namespace Token.Mends

variable {read : Text → Except LiteralFault α} {t t' : Token π}

theorem eq (mends : t.Mends read t') (faultless : t.faults read = []) : t' = t := by
  cases mends with
  | kept => rfl
  | replaced faulty => exact absurd faultless faulty

theorem faultless (mends : t.Mends read t') : t'.faults read = [] := by
  cases mends with
  | kept sound => exact sound
  | replaced _ sound => exact sound

theorem resumes (mends : t.Mends read t') :
    Story.Resumes (.wrong (t.faults read)) (.wrong (t'.faults read)) :=
  Story.resumes_wrong mends.faultless fun sound => by rw [mends.eq sound]

end Token.Mends

namespace ParseTree

/-- Octets that are given in both forms or in neither. -/
inductive TypeSpec.Unclear (keyword : Token π) : TypeSpec π → Prop where
  | bare : Unclear keyword (.primitive .octets keyword)
  | neither : Unclear keyword (.octets keyword none none)
  | both : Unclear keyword (.octets keyword (some size) (some field))

inductive TypeSpec.Mends : TypeSpec π → TypeSpec π → Prop where
  | primitive : kind ≠ .octets → Mends (.primitive kind keyword) (.primitive kind keyword)
  | named : Mends (.named name) (.named name)
  | size : size.Mends Literal.readSize size' →
      Mends (.octets keyword (some size) none) (.octets keyword (some size') none)
  | field : Mends (.octets keyword none (some field)) (.octets keyword none (some field))
  | fixed : Unclear keyword t → size.faults Literal.readSize = [] →
      Mends t (.octets keyword (some size) none)
  | sized : Unclear keyword t → Mends t (.octets keyword none (some field))

structure Member.Mends (m n : Member π) : Prop where
  type : m.type.Mends n.type
  name : n.name = m.name

structure Struct.Mends (s t : Struct π) : Prop where
  name : t.name = s.name
  typeId : Option.Rel (Token.Mends Literal.readInt) s.typeId t.typeId
  supertype : t.supertype = s.supertype
  members : List.Forall₂ Member.Mends s.members t.members

structure Case.Mends (c d : Case π) : Prop where
  value : c.value.Mends Literal.readInt d.value
  members : List.Forall₂ Member.Mends c.members d.members

structure Union.Mends (u v : Union π) : Prop where
  name : v.name = u.name
  discriminantType : v.discriminantType = u.discriminantType
  cases : List.Forall₂ Case.Mends u.cases v.cases

inductive Declaration.Mends : Declaration π → Declaration π → Prop where
  | enum : Mends (.enum e) (.enum e)
  | struct : s.Mends t → Mends (.struct s) (.struct t)
  | union : u.Mends v → Mends (.union u) (.union v)

inductive Item.Mends : Item π → Item π → Prop where
  | scope : List.Forall₂ Item.Mends items others → Mends (.scope name items) (.scope name others)
  | declaration : d.Mends d' → Mends (.declaration d) (.declaration d')

structure Scope.Mends (s t : Scope π) : Prop where
  name : t.name = s.name
  items : List.Forall₂ Item.Mends s.items t.items

/-- Every type id, every discriminant, every octets size that is refused has a number in its place,
and octets that were given in both forms or in neither are given in one. -/
structure Specification.Mends (s t : Specification π) : Prop where
  scopes : List.Forall₂ Scope.Mends s.scopes t.scopes

/-! What has no faults is left as it is. -/

theorem eq_of_mends {mends : α → α → Prop} {faults : α → List (Fault π)} {as bs : List α}
    (each : ∀ a ∈ as, ∀ b, mends a b → faults a = [] → b = a) (mended : List.Forall₂ mends as bs)
    (faultless : as.flatMap faults = []) : bs = as := by
  induction mended with
  | nil => rfl
  | cons first _ ih =>
    rw [List.flatMap_cons, List.append_eq_nil_iff] at faultless
    rw [each _ List.mem_cons_self _ first faultless.1,
      ih (fun a mem => each a (List.mem_cons_of_mem _ mem)) faultless.2]

theorem TypeSpec.Unclear.faulty {t : TypeSpec π} (unclear : t.Unclear keyword) : t.faults ≠ [] := by
  cases unclear <;> simp [TypeSpec.faults]

theorem TypeSpec.Mends.eq {t t' : TypeSpec π} (mends : t.Mends t') (faultless : t.faults = []) :
    t' = t := by
  cases mends with
  | primitive | named | field => rfl
  | size mends => rw [mends.eq faultless]
  | fixed unclear | sized unclear => exact absurd faultless unclear.faulty

theorem TypeSpec.Mends.faultless {t t' : TypeSpec π} (mends : t.Mends t') : t'.faults = [] := by
  cases mends with
  | primitive other => simp [TypeSpec.faults]
  | named | field | sized => rfl
  | size mends => exact mends.faultless
  | fixed _ sound => exact sound

theorem Member.Mends.eq {m n : Member π} (mends : m.Mends n) (faultless : m.type.faults = []) :
    n = m := by
  obtain ⟨type, name⟩ := m
  obtain ⟨type', name'⟩ := n
  obtain rfl : type' = type := mends.type.eq faultless
  obtain rfl : name' = name := mends.name
  rfl

theorem Struct.Mends.eq {s t : Struct π} (mends : s.Mends t) (faultless : s.faults = []) :
    t = s := by
  obtain ⟨name, typeId, supertype, members⟩ := s
  obtain ⟨name', typeId', supertype', members'⟩ := t
  obtain ⟨ids, parts⟩ := List.append_eq_nil_iff.mp faultless
  obtain rfl : name' = name := mends.name
  obtain rfl : supertype' = supertype := mends.supertype
  obtain rfl : members' = members := eq_of_mends (fun _ _ _ mends => mends.eq) mends.members parts
  obtain rfl : typeId' = typeId := by
    cases mends.typeId with
    | none => rfl
    | some number => rw [number.eq (by simpa using ids)]
  rfl

theorem Case.Mends.eq {c d : Case π} (mends : c.Mends d) (faultless : c.faults = []) : d = c := by
  obtain ⟨value, members⟩ := c
  obtain ⟨value', members'⟩ := d
  obtain ⟨sound, parts⟩ := List.append_eq_nil_iff.mp faultless
  obtain rfl : value' = value := mends.value.eq sound
  obtain rfl : members' = members := eq_of_mends (fun _ _ _ mends => mends.eq) mends.members parts
  rfl

theorem Union.Mends.eq {u v : Union π} (mends : u.Mends v)
    (faultless : u.cases.flatMap Case.faults = []) : v = u := by
  obtain ⟨name, discriminantType, cases⟩ := u
  obtain ⟨name', discriminantType', cases'⟩ := v
  obtain rfl : name' = name := mends.name
  obtain rfl : discriminantType' = discriminantType := mends.discriminantType
  obtain rfl : cases' = cases := eq_of_mends (fun _ _ _ mends => mends.eq) mends.cases faultless
  rfl

theorem Declaration.Mends.eq {d d' : Declaration π} (mends : d.Mends d')
    (faultless : d.faults = []) : d' = d := by
  cases mends with
  | enum => rfl
  | struct mends => rw [mends.eq faultless]
  | union mends => rw [mends.eq faultless]

mutual
theorem Item.eq_of_mends (i i' : Item π) (mends : i.Mends i') (faultless : i.faults = []) :
    i' = i := by
  cases i with
  | declaration d =>
    cases mends with
    | declaration mends => rw [mends.eq faultless]
  | scope name items =>
    cases mends with
    | scope inside => rw [Item.all_eq_of_mends items _ inside faultless]
theorem Item.all_eq_of_mends (items others : List (Item π))
    (mends : List.Forall₂ Item.Mends items others) (faultless : Item.allFaults items = []) :
    others = items := by
  cases items with
  | nil =>
    cases mends
    rfl
  | cons i is =>
    cases mends with
    | cons first later =>
      obtain ⟨sound, rest⟩ := List.append_eq_nil_iff.mp faultless
      rw [Item.eq_of_mends i _ first sound, Item.all_eq_of_mends is _ later rest]
end

theorem Scope.Mends.eq {s t : Scope π} (mends : s.Mends t)
    (faultless : Item.allFaults s.items = []) : t = s := by
  obtain ⟨name, items⟩ := s
  obtain ⟨name', items'⟩ := t
  obtain rfl : name' = name := mends.name
  obtain rfl : items' = items := Item.all_eq_of_mends items _ mends.items faultless
  rfl

/-! What is told of a tree is told of the mended tree, which goes on from there. -/

theorem Member.Mends.resumes {m n : Member π} (mends : m.Mends n) : m.story.Resumes n.story := by
  have type : (Story.wrong m.type.faults).Resumes (Story.wrong n.type.faults) :=
    Story.resumes_wrong mends.type.faultless fun faultless => by rw [mends.type.eq faultless, faultless]
  refine (type.closed fun faultless => ?_).toResumes
  rw [mends.eq (by simpa using faultless)]

theorem resumes_members {ms ns : List (Member π)} (mends : List.Forall₂ Member.Mends ms ns) :
    Story.Resumes (ms.flatMap Member.story) (ns.flatMap Member.story) :=
  Story.resumes_flatMap (mends.imp fun _ _ mends => mends.resumes)

theorem Struct.Mends.resumes {s t : Struct π} (mends : s.Mends t) : s.story.Resumes t.story := by
  have ids : Story.Resumes (.wrong (s.typeId.toList.flatMap (Token.faults Literal.readInt)))
      (.wrong (t.typeId.toList.flatMap (Token.faults Literal.readInt))) := by
    obtain ⟨name, typeId, supertype, members⟩ := s
    obtain ⟨name', typeId', supertype', members'⟩ := t
    cases mends.typeId with
    | none => exact .refl rfl
    | some number => simpa using number.resumes
  have parts := ids.append (resumes_members mends.members)
  rw [Struct.story, Struct.story, ← List.append_assoc, ← List.append_assoc]
  refine (parts.closed fun faultless => ?_).toResumes
  rw [mends.eq (by simpa [Struct.faults, Story.faults_flatMap] using faultless)]

theorem Case.Mends.resumes {c d : Case π} (mends : c.Mends d) : c.story.Resumes d.story := by
  have parts := mends.value.resumes.append (resumes_members mends.members)
  rw [Case.story, Case.story, ← List.append_assoc, ← List.append_assoc]
  refine (parts.closed fun faultless => ?_).toResumes
  rw [mends.eq (by simpa [Case.faults, Story.faults_flatMap] using faultless)]

theorem Union.Mends.resumes {u v : Union π} (mends : u.Mends v) : u.story.Resumes v.story := by
  have parts : Story.Resumes (u.cases.flatMap Case.story) (v.cases.flatMap Case.story) :=
    Story.resumes_flatMap (mends.cases.imp fun _ _ mends => mends.resumes)
  refine (parts.closed fun faultless => ?_).toResumes
  rw [mends.eq (by simpa [Story.faults_flatMap] using faultless)]

theorem Declaration.Mends.resumes {d d' : Declaration π} (mends : d.Mends d') :
    d.story.Resumes d'.story := by
  cases mends with
  | enum => exact .refl rfl
  | struct mends => exact mends.resumes
  | union mends => exact mends.resumes

theorem Scope.outlasts_of {s t : Scope π} (mends : s.Mends t) (depth : Nat)
    (inside : Story.Resumes (Item.allStory s.name.text depth s.items)
      (Item.allStory t.name.text depth t.items)) : (s.story depth).Outlasts (t.story depth) := by
  have entered : Story.Resumes (π := π) [.event (.entering s.name.text depth)]
      [.event (.entering t.name.text depth)] := by
    rw [mends.name]
    exact .refl rfl
  refine (entered.append inside).closed fun faultless => ?_
  rw [mends.eq (by simpa [Item.faults_allStory] using faultless)]

mutual
theorem Item.resumes_of_mends (i i' : Item π) (mends : i.Mends i') (outer : String) (depth : Nat) :
    (i.story outer depth).Resumes (i'.story outer depth) := by
  cases i with
  | declaration d =>
    cases mends with
    | declaration mends =>
      refine (mends.resumes.closed fun faultless => ?_).toResumes
      rw [mends.eq (by simpa using faultless)]
  | scope name items =>
    cases mends with
    | @scope _ others _ inside =>
      have mends : Scope.Mends ⟨name, items⟩ ⟨name, others⟩ := ⟨rfl, inside⟩
      exact (Scope.outlasts_of mends (depth + 1)
        (Item.all_resume_of_mends items others inside _ _)).toResumes
theorem Item.all_resume_of_mends (items others : List (Item π))
    (mends : List.Forall₂ Item.Mends items others) (outer : String) (depth : Nat) :
    (Item.allStory outer depth items).Resumes (Item.allStory outer depth others) := by
  cases items with
  | nil =>
    cases mends
    exact .refl rfl
  | cons i is =>
    cases mends with
    | cons first later =>
      exact (Item.resumes_of_mends i _ first outer depth).append
        (Item.all_resume_of_mends is _ later outer depth)
end

theorem Scope.Mends.outlasts {s t : Scope π} (mends : s.Mends t) (depth : Nat) :
    (s.story depth).Outlasts (t.story depth) := by
  refine Scope.outlasts_of mends depth ?_
  rw [mends.name]
  exact Item.all_resume_of_mends s.items t.items mends.items _ _

theorem Specification.Mends.outlasts {s t : Specification π} (mends : s.Mends t) :
    s.story.Outlasts t.story :=
  Story.outlasts_flatMap (mends.scopes.imp fun _ _ mends => mends.outlasts 0)

end ParseTree
end SchemaLang
