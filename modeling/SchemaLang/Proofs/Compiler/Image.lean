import SchemaLang.Compiler
import SchemaLang.Proofs.Assembly.Refinement
import SchemaLang.Proofs.Grammar.Language
import SchemaLang.Proofs.ParseTree.Placeless
import SchemaLang.Proofs.Schema.Source

/-! The schemas that compilation can give. Each is well-formed, and for each well-formed schema
there is a text that compiles to it: its tree, one token after the other. -/
namespace SchemaLang

/-- Each token with a space before it. -/
def spaced (tokens : List String) : Text := tokens.flatMap fun t => ' ' :: t.toList

theorem wordEnds_spaced (tokens : List String) : WordEnds (spaced tokens) := by
  cases tokens with
  | nil => exact wordEnds_nil
  | cons t tokens => exact wordEnds_cons.mpr (by decide)

theorem reads_spaced (tokens : List String) : Reads tokens (spaced tokens) [] := by
  induction tokens with
  | nil => exact .nil
  | cons t tokens ih =>
    have blank : Text.LayoutUnit (spaced (t :: tokens)) (t.toList ++ spaced tokens) :=
      .blank (by decide)
    exact .cons (.unit blank .none) (.inr (wordEnds_spaced tokens)) ih

theorem spells_spaced (tokens : List String) : Spells tokens (spaced tokens) :=
  ⟨[], reads_spaced tokens, .none⟩

theorem settle_eq_ok_iff : settle faults a = .ok b ↔ faults = [] ∧ a = b := by
  cases faults <;> simp [settle]

namespace Compiler

theorem compile_result (c : Compiler) (text : String) : (c.compile text).1.result =
    match Grammar.parse text with
    | .error e => .error (.unparsed c.source e)
    | .ok tree => (settle tree.faults tree.meaning).mapError (.unbuilt c.source) := by
  unfold compile
  cases Grammar.parse text with
  | error e => rfl
  | ok tree =>
    have built : (c.assembler.build tree).1.result = settle tree.faults tree.meaning :=
      (Assembly.specification_runs tree).settles
    dsimp only
    generalize c.assembler.build tree = after at built
    obtain ⟨⟨events, result⟩, assembler⟩ := after
    obtain rfl : result = settle tree.faults tree.meaning := built
    cases settle tree.faults tree.meaning <;> rfl

/-- A text that is refused has been refused by the grammar or by the assembly. The error of that
stage is handed on under the name of the source. -/
theorem compile_error_cases {c : Compiler} (refused : (c.compile text).1.result = .error e) :
    (∃ s, Grammar.parse text = .error s ∧ e = .unparsed c.source s) ∨
      ∃ tree b, Grammar.parse text = .ok tree ∧ (c.assembler.build tree).1.result = .error b ∧
        e = .unbuilt c.source b := by
  unfold compile at refused
  split at refused
  · rename_i s unparsed
    exact .inl ⟨s, unparsed, (Except.error.inj refused).symm⟩
  · rename_i tree parsed
    refine .inr ⟨tree, ?_⟩
    generalize c.assembler.build tree = built at refused
    obtain ⟨⟨events, b | schema⟩, assembler⟩ := built
    · exact ⟨b, parsed, rfl, (Except.error.inj refused).symm⟩
    · cases refused

theorem compile_ok_iff_parse {c : Compiler} : (c.compile text).1.result = .ok s ↔
    ∃ tree, Grammar.parse text = .ok tree ∧ tree.faults = [] ∧ tree.meaning = s := by
  rw [compile_result]
  cases Grammar.parse text with
  | error e => simp
  | ok tree =>
    simp only [Except.ok.injEq, exists_eq_left']
    rw [← settle_eq_ok_iff]
    cases settle tree.faults tree.meaning <;> simp [Except.mapError]

/-- Compilation succeeds with the meaning of a tree that the grammar derives from the text. -/
theorem compile_ok_iff {c : Compiler} : (c.compile text).1.result = .ok s ↔
    ∃ tokens tree, Spells tokens text.toList ∧ Phrase.Specification tokens tree ∧
      tree.faults = [] ∧ tree.meaning = s := by
  rw [compile_ok_iff_parse]
  constructor
  · intro ⟨tree, parsed, faultless, means⟩
    obtain ⟨tokens, spells, derived⟩ := Grammar.parse_spells parsed
    refine ⟨tokens, tree.map bare, spells, derived, ?_, ?_⟩
    · rw [tree.faults_map, faultless, List.map_nil]
    · rw [tree.meaning_map, means]
  · intro ⟨tokens, tree, spells, derived, faultless, means⟩
    obtain ⟨placed, parsed, rfl⟩ := Grammar.parse_of_spells spells derived
    refine ⟨placed, parsed, ?_, ?_⟩
    · rw [placed.faults_map] at faultless
      exact List.map_eq_nil_iff.mp faultless
    · rwa [placed.meaning_map] at means

/-- A compiled schema is well-formed. -/
theorem wellFormed_of_compile {c : Compiler} (compiled : (c.compile text).1.result = .ok s) :
    s.WellFormed := by
  obtain ⟨tokens, tree, _, derived, faultless, rfl⟩ := compile_ok_iff.mp compiled
  exact specification_wellFormed derived faultless

/-- The schemas that some text compiles to are the well-formed ones. No reference in them is
spelled like a built-in type. -/
theorem compiles_iff_wellFormed (c : Compiler) (s : Specification) :
    ((∃ text, (c.compile text).1.result = .ok s) ↔ s.WellFormed) ∧
      ∀ name, IsScopedName name → ∀ kind : Primitive, name ≠ kind.keyword := by
  refine ⟨⟨fun ⟨_, compiled⟩ => wellFormed_of_compile compiled, fun wellFormed => ?_⟩,
    fun _ reference => reference.ne_keyword⟩
  obtain ⟨⟨tokens, derived⟩, faultless, means⟩ := specification_expresses wellFormed
  have spells : Spells tokens (String.ofList (spaced tokens)).toList := by
    simpa using spells_spaced tokens
  exact ⟨_, compile_ok_iff.mpr ⟨tokens, s.tree, spells, derived, faultless, means⟩⟩

end Compiler
end SchemaLang
