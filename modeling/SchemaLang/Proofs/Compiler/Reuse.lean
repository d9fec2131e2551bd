import SchemaLang.Proofs.Compiler.Image

/-! One assembler or compiler for any number of units. Whether a unit failed or not, nothing of it
is left for the next one. -/
namespace SchemaLang

namespace Assembler

/-- What an assembler can be asked for. -/
inductive Call where
  | unit (tree : ParseTree.Specification Position)
  | scope (tree : ParseTree.Scope Position)
  | declaration (tree : ParseTree.Declaration Position)

inductive Answer where
  | unit (report : Report BuildError Specification)
  | scope (report : Report BuildError Scope)
  | declaration (report : Report BuildError Declaration)

def perform (a : Assembler) : Call → Answer × Assembler
  | .unit tree => (a.build tree).map .unit id
  | .scope tree => (a.buildScope tree).map .scope id
  | .declaration tree => (a.buildDeclaration tree).map .declaration id

/-- The answers to calls one after the other, each with the assembler as it is left. -/
def performAll (a : Assembler) : List Call → List (Answer × Assembler)
  | [] => []
  | call :: calls => a.perform call :: (a.perform call).2.performAll calls

/-- A declaration closes no scope because it opens none. The others close theirs. -/
theorem perform_depth (a : Assembler) (call : Call) : (a.perform call).2.depth = 0 := by
  cases call <;> rfl

theorem perform_answer (a : Assembler) (call : Call) :
    (a.perform call).1 = (perform {} call).1 := by
  cases call <;> rfl

theorem performAll_eq (a : Assembler) (calls : List Call) :
    (a.performAll calls).map (Prod.map id depth) =
      calls.map fun call => ((perform {} call).1, 0) := by
  induction calls generalizing a with
  | nil => rfl
  | cons call calls ih =>
    rw [performAll, List.map_cons, List.map_cons, ih, Prod.map, perform_depth, perform_answer]
    rfl

end Assembler

namespace Compiler

variable (c : Compiler)

theorem compile_source (text : String) : (c.compile text).2.source = c.source := by
  unfold compile
  cases Grammar.parse text <;> rfl

theorem compile_report (text : String) :
    (c.compile text).1 = (compile { source := c.source } text).1 := by
  unfold compile
  cases Grammar.parse text <;> rfl

theorem compileAll_reports (texts : List String) :
    (c.compileAll texts).1 = texts.map fun text => (compile { source := c.source } text).1 := by
  induction texts generalizing c with
  | nil => rfl
  | cons text texts ih =>
    have later := ih (c.compile text).2
    rw [compile_source] at later
    rw [List.map_cons, ← compile_report, ← later]
    rfl

theorem source_of_error {text : String} (refused : (c.compile text).1.result = .error e) :
    e.source = c.source := by
  rcases compile_error_cases refused with ⟨_, -, rfl⟩ | ⟨_, _, -, -, rfl⟩ <;> rfl

end Compiler

/-- Calls are answered as if each were made to a new assembler, and no scope is open after any of
them. Texts are compiled as if each had a compiler of its own under the name of this one. -/
theorem reuse_leaves_nothing (a : Assembler) (calls : List Assembler.Call) (c : Compiler)
    (texts : List String) :
    (a.performAll calls).map (Prod.map id Assembler.depth) =
        calls.map (fun call => ((Assembler.perform {} call).1, 0)) ∧
      (c.compileAll texts).1 =
        texts.map (fun text => (Compiler.compile { source := c.source } text).1) ∧
      ∀ report ∈ (c.compileAll texts).1, ∀ e, report.result = .error e → e.source = c.source := by
  refine ⟨a.performAll_eq calls, c.compileAll_reports texts, fun report mem e refused => ?_⟩
  rw [c.compileAll_reports texts] at mem
  obtain ⟨text, -, rfl⟩ := List.mem_map.mp mem
  exact Compiler.source_of_error { source := c.source } refused

/-- A unit that is refused comes before one that is not. -/
theorem reuse_leaves_nothing_refused :
    let texts := ["scope a", "scope a \x7b \x7d"]
    ∃ report ∈ (Compiler.compileAll { source := "unit" } texts).1, ∃ e,
      report.result = .error e ∧ e.source = "unit" := by
  intro texts
  have refused : (Compiler.compile { source := "unit" } "scope a").1.result =
      .error (.unparsed "unit" ⟨⟨1, 8⟩, .mark .openBrace, .endOfInput⟩) := by cbv
  exact ⟨_, .head _, _, refused,
    (reuse_leaves_nothing {} [] { source := "unit" } texts).2.2 _ (.head _) _ refused⟩

end SchemaLang
