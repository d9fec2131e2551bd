import SchemaLang.Proofs.Grammar.Parallel
import SchemaLang.Proofs.Grammar.Trail
import SchemaLang.Proofs.Text.Place

/-! Lines added below a text. Up to the last brace of the text nothing that is read can tell: layout
ends where it ended, and words and numbers stop before the brace. Behind the last brace only the
lines below remain, and they begin with a scope, so that no declaration takes anything of them. -/
namespace SchemaLang

open Text (isSolid)

/-- A way over layout and solid characters to a brace with the text `last` behind it. -/
abbrev Reaches (last s : Text) : Prop := Trail s [] ('\x7d' :: last)

/-- One character of the way: the brace itself or one before it. -/
theorem Reaches.step (reaches : Reaches last (c :: s)) (solid : isSolid c = true) :
    (c = '\x7d' ∧ s = last) ∨ Reaches last s := by
  rcases Trail.step reaches rfl rfl solid with same | reaches
  · obtain ⟨rfl, rfl⟩ := List.cons.inj same
    exact .inl ⟨rfl, rfl⟩
  · exact .inr reaches

theorem not_reaches_nil : ¬ Reaches last [] := by
  intro reaches
  have := reaches.suffix.length_le
  simp at this

/-- A later part of the source beside the same part with lines below it. -/
structure Continued (source last below : Text) (s s' : Text) : Prop where
  within : s <:+ source
  reaches : Reaches last s
  same : s' = s ++ '\n' :: below

/-- The same at the end of a declaration, where all that is left may stand behind the last brace. -/
def Ended (source last below : Text) (s s' : Text) : Prop :=
  Continued source last below s s' ∨ s = last ∧ s' = last ++ '\n' :: below

variable {source last below : Text}

theorem Ended.same (ended : Ended source last below s s') : s' = s ++ '\n' :: below := by
  rcases ended with continued | ⟨rfl, rfl⟩
  · exact continued.same
  · rfl

theorem Ended.reaches (ended : Ended source last below s s') : Reaches last ('\x7d' :: s) := by
  rcases ended with continued | ⟨rfl, -⟩
  · exact .solid (by decide) continued.reaches
  · exact .here

namespace Continued

theorem layout (continued : Continued source last below s s') :
    Continued source last below s.skipLayout s'.skipLayout := by
  obtain ⟨within, reaches, rfl⟩ := continued
  obtain ⟨c, rest, skipped, solid, trail⟩ := reaches.next rfl rfl (by decide)
  refine ⟨(Text.gap_skipLayout s).suffix.trans within, ?_, ?_⟩
  · rwa [skipped]
  · rw [Text.skipLayout_line solid skipped, skipped]

theorem step (continued : Continued source last below (c :: s) s') (solid : isSolid c = true) :
    ∃ t, s' = c :: t ∧ Ended source last below s t ∧
      (c ≠ '\x7d' → Continued source last below s t) := by
  obtain ⟨within, reaches, rfl⟩ := continued
  have inside : s <:+ source := (List.suffix_cons c s).trans within
  refine ⟨s ++ '\n' :: below, rfl, ?_, fun other => ?_⟩
  · rcases Reaches.step reaches solid with ⟨-, rfl⟩ | reaches
    · exact .inr ⟨rfl, rfl⟩
    · exact .inl ⟨inside, reaches, rfl⟩
  · rcases Reaches.step reaches solid with ⟨brace, -⟩ | reaches
    · exact absurd brace other
    · exact ⟨inside, reaches, rfl⟩

theorem follows : Follows (Continued source last below) (Ended source last below) where
  layout := layout
  ending continued := absurd continued.reaches not_reaches_nil
  step solid other continued := by
    obtain ⟨t, same, -, next⟩ := continued.step solid
    exact ⟨t, same, next other⟩
  close continued := by
    obtain ⟨t, same, ended, -⟩ := continued.step (by decide)
    exact ⟨t, same, ended⟩

/-- What stands first in the longer text stands first in the shorter one. -/
theorem first (continued : Continued source last below s (c :: t)) : ∃ s', s = c :: s' := by
  cases s with
  | nil => exact absurd continued.reaches not_reaches_nil
  | cons d s' =>
    obtain ⟨rfl, -⟩ := List.cons.inj continued.same
    exact ⟨s', rfl⟩

theorem followed :
    Follows (flip (Continued source last below)) (flip (Ended source last below)) where
  layout := layout
  ending continued := (List.append_eq_nil_iff.mp continued.same.symm).1
  step solid other continued := by
    obtain ⟨s, rfl⟩ := continued.first
    obtain ⟨t, same, -, next⟩ := continued.step solid
    obtain ⟨-, rfl⟩ := List.cons.inj same
    exact ⟨s, rfl, next other⟩
  close continued := by
    obtain ⟨s, rfl⟩ := continued.first
    obtain ⟨t, same, ended, -⟩ := continued.step (by decide)
    obtain ⟨-, rfl⟩ := List.cons.inj same
    exact ⟨s, rfl, ended⟩

/-- What is read before is the same, and so are lines and columns. -/
theorem place (continued : Continued source last below s s') :
    placeIn source s = placeIn (source ++ '\n' :: below) s' := by
  obtain ⟨⟨before, rfl⟩, -, rfl⟩ := continued
  rw [placeIn_suffix, List.append_assoc, placeIn_suffix]

theorem parallel (source last below : Text) :
    Parallel (Continued source last below) (Ended source last below) (placeIn source)
      (placeIn (source ++ '\n' :: below)) :=
  ⟨follows, followed, place⟩

end Continued
end SchemaLang
