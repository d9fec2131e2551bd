import SchemaLang.Proofs.Grammar.Numbering

/-! Texts that differ in the literals beside their enum values. A value may get another literal, one
that it did not have, or lose the one that it had; everything around it stays as it is. -/
namespace SchemaLang

open Text

/-- Each of the values has its new literal written behind its name in place of the old one. A value that
stays as it is gets the literal that it had. The texts are the same between the values. -/
inductive Renumbered (number : ParseTree.EnumValue Text → Option String) :
    List (ParseTree.EnumValue Text) → Text → Text → Prop where
  | nil : Renumbered number [] s s
  | value {v : ParseTree.EnumValue Text} {before init after init' after' : Text} :
      v.name.place = v.name.text.toList ++ (init ++ after) →
      Initializer (v.literal.map Token.text) init → Initializer (number v) init' →
      Renumbered number vs after after' →
      Renumbered number (v :: vs) (before ++ v.name.place)
        (before ++ (v.name.text.toList ++ (init' ++ after')))

variable {number : ParseTree.EnumValue Text → Option String}

namespace Renumbered

theorem head (renumbered : Renumbered number vs s s') (written : Written vs r) :
    s'.head? = s.head? := by
  cases renumbered with
  | nil => rfl
  | @value vs v before init after init' after' place =>
    have filled : before ++ v.name.text.toList ≠ [] := by
      cases written with | value filled => simpa using fun _ => filled
    rw [place, ← List.append_assoc, ← List.append_assoc before, List.head?_append_of_ne_nil _ filled,
      List.head?_append_of_ne_nil _ filled]

/-- What is read in front of all values is read in the other text. -/
theorem skip (renumbered : Renumbered number vs s s') (reads : Reads ts s r)
    (written : Written vs r) : ∃ r', Reads ts s' r' ∧ Renumbered number vs r r' := by
  have suffix := reads.suffix
  cases renumbered with
  | nil => exact ⟨r, reads, .nil⟩
  | @value vs v before init after init' after' place old new others =>
    obtain ⟨between, rfl⟩ : v.name.place <:+ r := by
      cases written with | value => exact List.suffix_append ..
    obtain ⟨u, same⟩ := suffix
    rw [← List.append_assoc] at same
    obtain rfl := List.append_cancel_right same
    have later : Renumbered number (v :: vs) (between ++ v.name.place)
      (between ++ (v.name.text.toList ++ (init' ++ after'))) := .value place old new others
    refine ⟨_, ?_, later⟩
    rw [List.append_assoc]
    exact reads.swap (List.append_assoc ..) (.inl (later.head written))

end Renumbered

/-- Written values can be given any literals. -/
theorem Written.renumbered (written : Written vs s)
    (numbers : ∀ v ∈ vs, ∀ t ∈ number v, IsIntLiteral t) : ∃ s', Renumbered number vs s s' := by
  induction written with
  | @nil s => exact ⟨s, .nil⟩
  | @value vs v before init after _ place initializer _ ih =>
    obtain ⟨first, others⟩ := List.forall_mem_cons.mp numbers
    obtain ⟨after', later⟩ := ih others
    obtain ⟨init', new⟩ := exists_initializer first
    exact ⟨_, .value place initializer new later⟩

/-- The texts differ as said once the layout in front of them is passed. -/
def Nearby (number : ParseTree.EnumValue Text → Option String)
    (vs : List (ParseTree.EnumValue Text)) (s s' : Text) : Prop :=
  ∃ t t', Gap s t ∧ Gap s' t' ∧ Renumbered number vs t t'

/-- Layout is what a mark is found behind. -/
theorem Nearby.mark (nearby : Nearby number vs s s') {m : Mark} (reads : Reads [m.text] s r)
    (written : Written vs r) : ∃ r', Reads [m.text] s' r' ∧ Renumbered number vs r r' := by
  obtain ⟨t, t', gap, gap', renumbered⟩ := nearby
  have near : Reads [m.text] t r := by
    rw [reads_mark_iff, ← skipLayout_gap gap]
    exact reads_mark_iff.mp reads
  obtain ⟨r', reads', others⟩ := renumbered.skip near written
  refine ⟨r', ?_, others⟩
  rw [reads_mark_iff, skipLayout_gap gap']
  exact reads_mark_iff.mp reads'

end SchemaLang
