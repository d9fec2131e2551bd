import SchemaLang.Command
import SchemaLang.Proofs.Compiler.Message
import SchemaLang.Proofs.Compiler.Reuse

/-! A check of many files is put together from checks of one file. Each file that fails adds its
own line and counts once, whatever was checked before it. -/
namespace SchemaLang

/-- Why a file is refused, if it is. -/
def Directory.failure? (files : Directory) (input : String) : Option FileError :=
  refusal? (files.compile input)

theorem Clear.count (clear : Clear t) : t.toList.count '\n' = 0 :=
  List.count_eq_zero.mpr fun mem => clear '\n' mem rfl

variable {files : Directory} {input : String}

theorem Directory.failure?_eq_some_iff :
    files.failure? input = some e ↔ files.compile input = .error e := by
  unfold failure?
  cases files.compile input <;> simp [refusal?]

/-- What cannot be read is not compiled. -/
theorem Directory.compile_unread (unread : files.read input = .error fault) :
    files.compile input = .error (.unreadable input fault) := by
  rw [compile, unread]
  rfl

theorem Directory.compile_read (read : files.read input = .ok text) :
    files.compile input = (compileText input text).mapError .uncompiled := by
  rw [compile, read]
  rfl

theorem Directory.compile_error_cases (refused : files.compile input = .error e) :
    (∃ fault, files.read input = .error fault ∧ e = .unreadable input fault) ∨
      ∃ text error, files.read input = .ok text ∧ compileText input text = .error error ∧
        e = .uncompiled error := by
  cases read : files.read input with
  | error fault =>
    rw [compile_unread read] at refused
    exact .inl ⟨fault, rfl, (Except.error.inj refused).symm⟩
  | ok text =>
    rw [compile_read read] at refused
    cases compiled : compileText input text with
    | error error =>
      rw [compiled] at refused
      exact .inr ⟨text, error, rfl, compiled, (Except.error.inj refused).symm⟩
    | ok schema =>
      rw [compiled] at refused
      cases refused

namespace Tally

/-- One file more: its failure is reported and counted, and a file without one changes nothing. -/
theorem check_eq (files : Directory) (t : Tally) (input : String) : t.check files input =
    match files.failure? input with
    | some e => t.report e
    | none => t := by
  unfold check Directory.failure?
  cases read : files.read input with
  | error fault =>
    rw [Directory.compile_unread read]
    rfl
  | ok text =>
    rw [Directory.compile_read read]
    dsimp only
    cases compileText input text <;> rfl

/-- All failures are reported in the order of the files, behind what was reported before. -/
theorem foldl_check (files : Directory) (t : Tally) (inputs : List String) :
    inputs.foldl (check files) t =
      { stderr := t.stderr ++ String.join ((inputs.filterMap files.failure?).map (·.line ++ "\n"))
        failed := t.failed + (inputs.filterMap files.failure?).length } := by
  induction inputs generalizing t with
  | nil => simp
  | cons input inputs ih =>
    rw [List.foldl_cons, ih, check_eq]
    cases failed : files.failure? input with
    | none => simp [failed]
    | some e => simp [failed, report, String.append_assoc, Nat.add_assoc, Nat.add_comm 1]

end Tally

namespace Command

theorem run_check (files : Directory) (inputs : List String) : run files (.check inputs) =
    let failures := inputs.filterMap files.failure?
    if failures = [] then {}
    else
      { code := 1
        stderr := String.join (failures.map (·.line ++ "\n")) ++
          verdict failures.length inputs.length } := by
  simp only [run, runCheck, Tally.foldl_check]
  by_cases none : inputs.filterMap files.failure? = []
  · simp [none]
  · simp [none, List.length_pos_iff]

theorem run_check_alone (files : Directory) (input : String) : run files (.check [input]) =
    match files.failure? input with
    | some e => { code := 1, stderr := e.line ++ "\n" ++ verdict 1 1 }
    | none => {} := by
  rw [run_check]
  cases failed : files.failure? input <;> simp [failed]

end Command
end SchemaLang
