import Mathlib
import SchemaLang.Assembly
import SchemaLang.Proofs.ParseTree.Meaning

/-! Reports that settle: the result is a value if there are no faults and else the first fault. One
report after the other settles with the faults of both, so that what a declaration reports follows
its parts. -/
namespace SchemaLang

/-- The result depends on the faults as `settle` says. The events are left open. -/
def Report.Settles (r : Report BuildError α) (faults : List (Fault Position)) (value : α) : Prop :=
  r.result = settle faults value

namespace Report

theorem settles_pure (value : α) : (pure value : Report BuildError α).Settles [] value := rfl

theorem settles_emit (e : Event) : (emit e : Report BuildError Unit).Settles [] () := rfl

theorem settles_ok (value : α) : (ofExcept (.ok value) : Report BuildError α).Settles [] value := rfl

theorem settles_ofExcept {answer : Except BuildError α} (same : answer = settle faults value) :
    (ofExcept answer).Settles faults value := same

theorem Settles.bind {r : Report BuildError α} (first : r.Settles faults value)
    (later : faults = [] → (f value).Settles others final) :
    (r >>= f).Settles (faults ++ others) final := by
  obtain ⟨events, result⟩ := r
  cases faults with
  | nil =>
    obtain rfl : result = .ok value := first
    exact later rfl
  | cons fault faults =>
    obtain rfl : result = .error fault.error := first
    rfl

theorem Settles.map {r : Report BuildError α} (settles : r.Settles faults value) (f : α → β) :
    (f <$> r).Settles faults (f value) := by
  rw [← bind_pure_comp, ← List.append_nil faults]
  exact settles.bind fun _ => settles_pure _

theorem Settles.after {r : Report BuildError α} (settles : r.Settles faults value) (e : α → Event)
    (f : α → β) :
    (r >>= fun a => emit (e a) >>= fun _ => pure (f a)).Settles faults (f value) := by
  rw [← List.append_nil faults]
  exact settles.bind fun _ => rfl

theorem settles_mapM {f : α → Report BuildError β} (each : ∀ a, (f a).Settles (faults a) (value a))
    (as : List α) : (as.mapM f).Settles (as.flatMap faults) (as.map value) := by
  induction as with
  | nil => exact settles_pure []
  | cons a as ih =>
    rw [List.mapM_cons, List.flatMap_cons, List.map_cons, ← List.append_nil (as.flatMap faults)]
    exact (each a).bind fun _ => ih.bind fun _ => settles_pure _

end Report

namespace Assembly

open Report ParseTree

theorem located_eq_settle {read : Text → Except LiteralFault α} {t : Token Position} :
    located t ((read t.text.toList).mapError (.malformedLiteral t.text · none)) =
      settle (t.faults read) ((read t.text.toList).toOption.getD fallback) := by
  unfold located Token.faults
  cases read t.text.toList <;> rfl

theorem number_eq (t : Token Position) : number t = settle (t.faults Literal.readInt) t.number :=
  located_eq_settle

theorem size_eq (t : Token Position) : size t = settle (t.faults Literal.readSize) t.size :=
  located_eq_settle

theorem enum_settles (e : ParseTree.Enum Position) : (enum e).Settles [] e.meaning := by
  have each (p : ParseTree.EnumValue Position × Nat) :
      (ofExcept (value p.1 p.2)).Settles [] ⟨p.1.name.text, p.2⟩ := settles_ok _
  have values := settles_mapM each e.values.zipIdx
  rw [List.flatMap_eq_nil_iff.mpr fun _ _ => rfl] at values
  exact values.after _ _

theorem typed_eq (t : ParseTree.TypeSpec Position) :
    typed t = settle t.faults { type := some t.type, octets := t.shape } := by
  cases t with
  | primitive kind keyword => cases kind <;> rfl
  | named name => rfl
  | octets keyword sizeToken field =>
    cases sizeToken with
    | none => cases field <;> rfl
    | some size =>
      have read := size_eq size
      cases field with
      | none =>
        simp only [typed, Option.mapM_some, read, TypeSpec.faults]
        cases size.faults Literal.readSize <;> rfl
      | some field =>
        simp only [typed, Option.mapM_some, read, TypeSpec.faults]
        cases size.faults Literal.readSize <;> rfl

theorem member_settles (m : ParseTree.Member Position) :
    (member m).Settles m.type.faults m.meaning := by
  have typed := settles_ofExcept (typed_eq m.type)
  rw [← List.append_nil m.type.faults]
  exact typed.bind fun _ => (settles_ok m.meaning).after _ id

theorem struct_settles (s : ParseTree.Struct Position) : (struct s).Settles s.faults s.meaning := by
  obtain ⟨name, typeId, supertype, members⟩ := s
  have built := settles_mapM member_settles members
  cases typeId with
  | none => exact (settles_ok 0).bind fun _ => built.after _ _
  | some t =>
    rw [ParseTree.Struct.faults, Option.toList_some, List.flatMap_singleton]
    exact (settles_ofExcept (number_eq t)).bind fun _ => built.after _ _

theorem unionCase_settles (c : ParseTree.Case Position) :
    (unionCase c).Settles c.faults c.meaning := by
  have members := settles_mapM member_settles c.members
  exact (settles_ofExcept (number_eq c.value)).bind fun _ => members.after _ _

theorem union_settles (u : ParseTree.Union Position) :
    (union u).Settles (u.cases.flatMap Case.faults) u.meaning :=
  (settles_mapM unionCase_settles u.cases).after _ _

theorem declaration_settles (d : ParseTree.Declaration Position) :
    (declaration d).Settles d.faults d.meaning := by
  cases d with
  | enum e => exact (enum_settles e).map _
  | struct s => exact (struct_settles s).map _
  | union u => exact (union_settles u).map _

end Assembly
end SchemaLang
