import SchemaLang.Proofs.Command.Check

/-! The outline of a file is shown or saved exactly if the file passes a check. A refused file is
reported in the words of the check, with the error inside as the cause. Nothing is printed or written
unless the whole outline is there, and then only the output file changes. -/
namespace SchemaLang

namespace Directory

variable {files : Directory} {name other text : String}

/-- A name without a slash has no leading steps. -/
theorem plainName_of_plain (plain : '/' ∉ name.toList) : plainName name = name := by
  have same : withoutDots false name.toList = name.toList := by
    unfold withoutDots
    split <;> simp_all
  rw [plainName, same, String.ofList_toList]

theorem read_stored (plain : '/' ∉ name.toList) (stored : files name = some text.toUTF8) :
    files.read name = .ok text := by
  have decoded : String.fromUTF8? text.toUTF8 = some text := dif_pos text.isValidUTF8
  simp only [read, plainName_of_plain plain, stored, decoded]

theorem compile_refused (read : files.read name = .ok text)
    (refused : compileText name text = .error e) : files.compile name = .error (.uncompiled e) := by
  rw [compile_read read, refused]
  rfl

theorem compile_accepted (read : files.read name = .ok text)
    (accepted : compileText name text = .ok schema) : files.compile name = .ok schema := by
  rw [compile_read read, accepted]
  rfl

theorem write_self (plain : '/' ∉ name.toList) : files.write name text name = some text.toUTF8 := by
  rw [write, if_pos (plainName_of_plain plain).symm]

theorem write_other (plain : '/' ∉ name.toList) (different : other ≠ name) :
    files.write name text other = files other := by
  rw [write, plainName_of_plain plain, if_neg different]

end Directory

/-- What stands before the first line feed. -/
def firstLine (s : String) : Text := s.toList.takeWhile (· ≠ '\n')

theorem firstLine_append (clear : Clear t) (u : String) :
    firstLine (t ++ u) = t.toList ++ firstLine u := by
  rw [firstLine, String.toList_append, List.takeWhile_append_of_pos, firstLine]
  exact fun c mem => decide_eq_true (clear c mem)

/-- What follows a line feed is not looked at. -/
theorem firstLine_feed (t u : String) : firstLine (t ++ "\n" ++ u) = firstLine t := by
  have cut (s : Text) : (s ++ '\n' :: u.toList).takeWhile (· ≠ '\n') = s.takeWhile (· ≠ '\n') := by
    induction s with
    | nil => rfl
    | cons c s ih => simp only [List.cons_append, List.takeWhile_cons, ih]
  have feed : (t ++ "\n" ++ u).toList = t.toList ++ '\n' :: u.toList := by simp
  rw [firstLine, feed, cut, firstLine]

theorem FileError.firstLine_account (e : CompileError) (more : String) :
    firstLine (uncompiled e).account =
      "Error: ".toList ++ firstLine ((uncompiled e).line ++ "\n" ++ more) := by
  have split : (uncompiled e).account =
      "Error: " ++ (e.message ++ "\n" ++ ("\nCaused by:\n    " ++ e.cause ++ "\n")) := by
    have feeds : "\n\nCaused by:\n    " = "\n" ++ "\nCaused by:\n    " := rfl
    simp only [account, summary, cause, feeds, String.append_assoc]
  rw [split, firstLine_append (by decide), firstLine_feed, line, firstLine_feed]

namespace Command

variable {files : Directory} {input : String}

theorem run_ast_refused (refused : files.compile input = .error e) (output : Option String) :
    run files (.ast input output) = { code := 1, stderr := e.account } := by
  simp only [run, runAst, refused]

theorem run_ast_shown (compiled : files.compile input = .ok schema) :
    run files (.ast input none) = { stdout := schema.render } := by
  simp only [run, runAst, compiled]

theorem run_ast_saved (compiled : files.compile input = .ok schema) (output : String) :
    run files (.ast input (some output)) = { written := some (output, schema.render) } := by
  simp only [run, runAst, compiled]

/-- Showing an outline, saving it and checking the file end alike. If the text is refused, the error
line is the line of the check, and its cause is the error of the grammar or of the assembly. After a
failure nothing is printed and every file is as before. Where an outline is saved, the output file
holds what would have been shown and every other file is as before; the output may be the input. -/
theorem ast_agrees (files : Directory) (input output : String) (plain : '/' ∉ output.toList) :
    let shown := run files (.ast input none)
    let saved := run files (.ast input (some output))
    let checked := run files (.check [input])
    (shown.code = 0 ∧ saved.code = 0 ∧ checked.code = 0 ∨
        shown.code = 1 ∧ saved.code = 1 ∧ checked.code = 1) ∧
      (∀ text e, files.read input = .ok text → compileText input text = .error e →
        firstLine shown.stderr = "Error: ".toList ++ firstLine checked.stderr ∧
        shown.stderr = "Error: " ++ e.message ++ "\n\nCaused by:\n    " ++ e.cause ++ "\n" ∧
        saved.stderr = shown.stderr ∧ checked.stderr = e.message ++ "\n" ++ verdict 1 1 ∧
        ((∃ s, Grammar.parse text = .error s ∧ e.cause = s.message) ∨
          ∃ tree b, Grammar.parse text = .ok tree ∧
            (Assembler.build {} tree).1.result = .error b ∧ e.cause = b.message)) ∧
      (shown.code = 1 → shown.stdout = "" ∧ saved.stdout = "" ∧ saved.files files = files) ∧
      shown.files files = files ∧
      (saved.code = 0 → saved.stdout = "" ∧
        saved.files files output = some shown.stdout.toUTF8 ∧
        ∀ name, name ≠ output → saved.files files name = files name) := by
  intro shown saved checked
  cases compiled : files.compile input with
  | error e =>
    have failed := Directory.failure?_eq_some_iff.mpr compiled
    have shownRun : shown = { code := 1, stderr := e.account } := run_ast_refused compiled _
    have savedRun : saved = { code := 1, stderr := e.account } := run_ast_refused compiled _
    have checkedRun : checked = { code := 1, stderr := e.line ++ "\n" ++ verdict 1 1 } := by
      simp only [checked, run_check_alone, failed]
    rw [shownRun, savedRun, checkedRun]
    refine ⟨.inr ⟨rfl, rfl, rfl⟩, fun text error read refused => ?_, fun _ => ⟨rfl, rfl, rfl⟩, rfl,
      by simp⟩
    obtain rfl : e = .uncompiled error :=
      Except.error.inj (compiled.symm.trans (Directory.compile_refused read refused))
    refine ⟨FileError.firstLine_account error _, rfl, rfl, rfl, ?_⟩
    rcases Compiler.compile_error_cases refused with ⟨s, parsed, rfl⟩ | ⟨tree, b, parsed, built, rfl⟩
    · exact .inl ⟨s, parsed, rfl⟩
    · exact .inr ⟨tree, b, parsed, built, rfl⟩
  | ok schema =>
    have passed : files.failure? input = none := by rw [Directory.failure?, compiled]; rfl
    have shownRun : shown = { stdout := schema.render } := run_ast_shown compiled
    have savedRun : saved = { written := some (output, schema.render) } := run_ast_saved compiled _
    have checkedRun : checked = {} := by simp only [checked, run_check_alone, passed]
    rw [shownRun, savedRun, checkedRun]
    refine ⟨.inl ⟨rfl, rfl, rfl⟩, fun text error read refused => ?_, by simp, rfl, fun _ => ⟨rfl, ?_⟩⟩
    · cases compiled.symm.trans (Directory.compile_refused read refused)
    · exact ⟨Directory.write_self plain, fun name different => Directory.write_other plain different⟩

/-- A file with a wrong discriminant, and a file that is replaced by its own outline. -/
theorem ast_agrees_same_file :
    let wrong := "scope a \x7b union u \x7b case 5x: \x7d \x7d"
    let right := "scope a \x7b \x7d"
    let holding (text : String) : Directory := fun name =>
      if name = "a.idl" then some text.toUTF8 else none
    let error := CompileError.unbuilt "a.idl"
      (.malformedLiteral "5x" .invalidDigit (some ⟨1, 26⟩))
    '/' ∉ "a.idl".toList ∧ (holding wrong).read "a.idl" = .ok wrong ∧
      compileText "a.idl" wrong = .error error ∧
      (run (holding wrong) (.check ["a.idl"])).stderr = error.message ++ "\n" ++ verdict 1 1 ∧
      (run (holding wrong) (.ast "a.idl" (some "a.idl"))).files (holding wrong) = holding wrong ∧
      (run (holding right) (.ast "a.idl" (some "a.idl"))).files (holding right) "a.idl" =
        some (run (holding right) (.ast "a.idl" none)).stdout.toUTF8 := by
  intro wrong right holding error
  have plain : '/' ∉ "a.idl".toList := by decide
  have read (text : String) : (holding text).read "a.idl" = .ok text :=
    Directory.read_stored plain (if_pos rfl)
  have refused : compileText "a.idl" wrong = .error error := by cbv
  have accepted : compileText "a.idl" right = .ok ⟨[{ name := "a", depth := 0 }]⟩ := by cbv
  have failed := run_ast_refused (Directory.compile_refused (read wrong) refused) none
  have saved := run_ast_saved (Directory.compile_accepted (read right) accepted) "a.idl"
  obtain ⟨-, messages, unwritten, -, -⟩ := ast_agrees (holding wrong) "a.idl" "a.idl" plain
  obtain ⟨-, -, -, -, written⟩ := ast_agrees (holding right) "a.idl" "a.idl" plain
  exact ⟨plain, read wrong, refused, (messages wrong error (read wrong) refused).2.2.2.1,
    (unwritten (by rw [failed])).2.2, (written (by rw [saved])).2.1⟩

end Command
end SchemaLang
