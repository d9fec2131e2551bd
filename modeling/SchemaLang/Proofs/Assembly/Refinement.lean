import SchemaLang.Proofs.Assembly.Settling

/-! Assembly on a stack of open scopes refines the meaning of the tree. Work inside a scope touches
only the scope on top, which grows by the items before the first fault; a scope that is closed
leaves the stack as it was. -/
namespace SchemaLang

namespace Assembly

open ParseTree (Item)

namespace Walk

theorem pure_apply (a : α) (opened : List Scope) :
    (pure a : Walk α) opened = (pure a, opened) := rfl

theorem bind_apply (w : Walk α) (f : α → Walk β) (opened : List Scope) :
    (w >>= f) opened = match (w opened).1.result with
      | .ok a => (⟨(w opened).1.events ++ (f a (w opened).2).1.events,
          (f a (w opened).2).1.result⟩, (f a (w opened).2).2)
      | .error e => (⟨(w opened).1.events, .error e⟩, (w opened).2) := rfl

instance : LawfulMonad Walk := LawfulMonad.mk' Walk
  (by
    intro α w
    funext opened
    change (w >>= pure) opened = w opened
    simp only [bind_apply, pure_apply, Report.pure_def]
    obtain ⟨⟨events, _ | a⟩, left⟩ := w opened <;> simp)
  (by
    intro α β a f
    funext opened
    simp [bind_apply, pure_apply, Report.pure_def])
  (by
    intro α β γ w f g
    funext opened
    simp only [bind_apply]
    obtain ⟨⟨events, _ | a⟩, left⟩ := w opened
    · rfl
    · dsimp only
      obtain ⟨⟨later, _ | b⟩, left⟩ := f a left <;> simp)

/-- What work on a stack of open scopes reports and the stack that it leaves. -/
structure Runs (w : Walk α) (opened : List Scope) (faults : List (Fault Position)) (a : α)
    (left : List Scope) : Prop where
  settles : (w opened).1.Settles faults a
  stack : (w opened).2 = left

variable {w : Walk α} {f : α → Walk β}

theorem runs_pure (a : α) (opened : List Scope) : (pure a : Walk α).Runs opened [] a opened :=
  ⟨rfl, rfl⟩

theorem runs_lift (settles : report.Settles faults a) (opened : List Scope) :
    (lift report).Runs opened faults a opened :=
  ⟨settles, rfl⟩

/-- The value counts only if there is no fault. -/
theorem Runs.of_value (runs : w.Runs opened faults a left) (same : faults = [] → a = b) :
    w.Runs opened faults b left := by
  cases faults with
  | nil => exact same rfl ▸ runs
  | cons fault faults => exact ⟨runs.settles, runs.stack⟩

/-- What is to come is done only if there is no fault so far. -/
theorem Runs.bind (first : w.Runs opened faults a middle)
    (later : faults = [] → (f a).Runs middle others b left)
    (stopped : faults ≠ [] → middle = left) : (w >>= f).Runs opened (faults ++ others) b left := by
  have stack := first.stack
  cases faults with
  | nil =>
    have result : (w opened).1.result = .ok a := first.settles
    constructor
    · simpa [bind_apply, Report.Settles, result, stack] using (later rfl).settles
    · simpa [bind_apply, result, stack] using (later rfl).stack
  | cons fault faults =>
    have result : (w opened).1.result = .error fault.error := first.settles
    constructor
    · simp [bind_apply, Report.Settles, settle, result]
    · simpa [bind_apply, result, stack] using stopped

theorem runs_within {work : Walk Unit}
    (inside : work.Runs ({ name, depth := opened.length } :: opened) faults () (built :: opened)) :
    (within name work).Runs opened faults built opened := by
  obtain ⟨settles, stack⟩ := inside
  constructor
  · have report := settles.after (fun _ => .leaving name opened.length built.scopes.length
      built.enums.length built.structs.length built.unions.length) fun _ => built
    simpa only [within, stack, List.nil_append] using
      (Report.settles_emit (.entering name opened.length)).bind fun _ => report
  · simp only [within, stack]

theorem runs_attachScope (child top : Scope) (opened : List Scope) :
    (attachScope child).Runs (top :: opened) [] () (top.addScope child :: opened) :=
  ⟨rfl, rfl⟩

theorem runs_attachDeclaration (d : Declaration) (top : Scope) (opened : List Scope) :
    (attachDeclaration d).Runs (top :: opened) [] () (top.declare d :: opened) :=
  ⟨rfl, rfl⟩

end Walk

/-- The scope after the items that follow it, each with the kind it belongs to. -/
def grown (depth : Nat) (items : List (Item Position)) (top : Scope) : Scope :=
  { top with
    scopes := top.scopes ++ Item.scopes depth items
    enums := top.enums ++ Item.enums items
    structs := top.structs ++ Item.structs items
    unions := top.unions ++ Item.unions items }

theorem grown_nil (depth : Nat) (top : Scope) : grown depth [] top = top := by
  cases top
  simp [grown, Item.scopes, Item.enums, Item.structs, Item.unions]

theorem grown_append (depth : Nat) (items others : List (Item Position)) (top : Scope) :
    grown depth (items ++ others) top = grown depth others (grown depth items top) := by
  simp [grown, Item.scopes_eq, Item.enums, Item.structs, Item.unions]

theorem grown_cons (depth : Nat) (i : Item Position) (is : List (Item Position)) (top : Scope) :
    grown depth (i :: is) top = grown depth is (grown depth [i] top) :=
  grown_append depth [i] is top

theorem grown_declaration (depth : Nat) (d : ParseTree.Declaration Position) (top : Scope) :
    grown depth [.declaration d] top = top.declare d.meaning := by
  cases d <;>
    simp [grown, Scope.declare, Scope.addEnum, Scope.addStruct, Scope.addUnion, Item.scopes,
      Item.scope?, Item.enums, Item.structs, Item.unions, Item.enum?, Item.struct?, Item.union?,
      ParseTree.Declaration.meaning]

theorem grown_scope (depth : Nat) (name : Token Position) (items : List (Item Position))
    (top : Scope) :
    grown depth [.scope name items] top =
      top.addScope (grown (depth + 1) items { name := name.text, depth }) := by
  simp [grown, Scope.addScope, Item.scopes, Item.scope?, Item.enums, Item.structs, Item.unions,
    Item.enum?, Item.struct?, Item.union?]

/-- The items before the first one with a fault. -/
def sound (items : List (Item Position)) : List (Item Position) :=
  items.takeWhile (·.faults.isEmpty)

theorem sound_cons_of_faultless (faultless : i.faults = []) (is : List (Item Position)) :
    sound (i :: is) = i :: sound is := by
  simp [sound, faultless]

theorem sound_cons_of_faulty (faulty : i.faults ≠ []) (is : List (Item Position)) :
    sound (i :: is) = [] := by
  simp [sound, faulty]

theorem sound_eq_self (faultless : Item.allFaults items = []) : sound items = items := by
  induction items with
  | nil => rfl
  | cons i is ih =>
    obtain ⟨first, later⟩ := List.append_eq_nil_iff.mp faultless
    rw [sound_cons_of_faultless first, ih later]

mutual
theorem item_runs (i : Item Position) (top : Scope) (opened : List Scope) :
    (item i).Runs (top :: opened) i.faults ()
      (grown (opened.length + 1) (sound [i]) top :: opened) := by
  cases i with
  | scope name items =>
    have inside := allItems_runs items ⟨name.text, (top :: opened).length, [], [], [], []⟩
      (top :: opened)
    rw [item, ← List.append_nil (Item.faults _)]
    apply (Walk.runs_within inside).bind
    · intro faultless
      rw [sound_cons_of_faultless (i := .scope name items) faultless, sound_eq_self faultless]
      exact grown_scope .. ▸ Walk.runs_attachScope ..
    · intro faulty
      rw [sound_cons_of_faulty (i := .scope name items) faulty, grown_nil]
  | declaration d =>
    rw [item, ← List.append_nil (Item.faults _)]
    apply (Walk.runs_lift (declaration_settles d) (top :: opened)).bind
    · intro faultless
      rw [sound_cons_of_faultless (i := .declaration d) faultless]
      exact grown_declaration .. ▸ Walk.runs_attachDeclaration ..
    · intro faulty
      rw [sound_cons_of_faulty (i := .declaration d) faulty, grown_nil]
theorem allItems_runs (items : List (Item Position)) (top : Scope) (opened : List Scope) :
    (allItems items).Runs (top :: opened) (Item.allFaults items) ()
      (grown (opened.length + 1) (sound items) top :: opened) := by
  cases items with
  | nil => exact (grown_nil ..).symm ▸ Walk.runs_pure ..
  | cons i is =>
    rw [allItems, Item.allFaults]
    apply (item_runs i top opened).bind
    · intro faultless
      have alone : sound [i] = [i] := sound_cons_of_faultless faultless []
      rw [alone, sound_cons_of_faultless faultless is, grown_cons _ i (sound is)]
      exact allItems_runs is ..
    · intro faulty
      rw [sound_cons_of_faulty faulty, sound_cons_of_faulty faulty]
end

theorem scope_runs (s : ParseTree.Scope Position) (opened : List Scope) :
    (scope s).Runs opened (Item.allFaults s.items) (s.meaning opened.length) opened := by
  have inside := allItems_runs s.items ⟨s.name.text, opened.length, [], [], [], []⟩ opened
  apply (Walk.runs_within inside).of_value
  intro faultless
  rw [sound_eq_self faultless]
  rfl

theorem scopes_runs (scopes : List (ParseTree.Scope Position)) :
    (scopes.mapM scope).Runs [] (scopes.flatMap fun s => Item.allFaults s.items)
      (scopes.map (·.meaning 0)) [] := by
  induction scopes with
  | nil => exact Walk.runs_pure ..
  | cons s scopes ih =>
    rw [List.mapM_cons, List.flatMap_cons, List.map_cons, ← List.append_nil (List.flatMap ..)]
    apply (scope_runs s []).bind _ fun _ => rfl
    intro _
    apply ih.bind _ fun _ => rfl
    intro _
    exact Walk.runs_pure ..

theorem specification_runs (s : ParseTree.Specification Position) :
    (specification s).Runs [] s.faults s.meaning [] := by
  rw [specification, ← List.append_nil s.faults]
  apply (scopes_runs s.scopes).bind _ fun _ => rfl
  intro _
  exact Walk.runs_pure ..

end Assembly

namespace Assembler

/-- Whatever is left over from earlier work, a tree is assembled to its meaning if it has no
faults, and otherwise the first fault in the order of the text is the result. -/
theorem build_result (a : Assembler) (tree : ParseTree.Specification Position) :
    (a.build tree).1.result = settle tree.faults tree.meaning :=
  (Assembly.specification_runs tree).settles

end Assembler
end SchemaLang
