import SchemaLang.Compiler
import SchemaLang.Schema.Outline

/-! The command line as a function of the files that it can see. `ast` shows the outline of one
schema file, `check` reports on any number of them and carries on after a failure. -/
namespace SchemaLang

/-- Contents of the files of one directory by their plain names. -/
abbrev Directory := String → Option ByteArray

inductive ReadFault where
  | notFound | notText
  deriving DecidableEq, Repr

def ReadFault.message : ReadFault → String
  | notFound => "No such file or directory (os error 2)"
  | notText => "stream did not contain valid UTF-8"

namespace Directory

/-- Drops leading steps `./`, in which a slash may be repeated. -/
def withoutDots (afterSlash : Bool) : Text → Text
  | '.' :: '/' :: rest => withoutDots true rest
  | '/' :: rest => if afterSlash then withoutDots true rest else '/' :: rest
  | name => name

/-- The plain name of the file at a path from the directory. -/
def plainName (path : String) : String := String.ofList (withoutDots false path.toList)

def read (files : Directory) (path : String) : Except ReadFault String :=
  match files (plainName path) with
  | none => .error .notFound
  | some bytes =>
    match String.fromUTF8? bytes with
    | some text => .ok text
    | none => .error .notText

def write (files : Directory) (path text : String) : Directory := fun name =>
  if name = plainName path then some text.toUTF8 else files name

end Directory

inductive FileError where
  | unreadable (file : String) (fault : ReadFault)
  | uncompiled (error : CompileError)
  deriving DecidableEq, Repr

namespace FileError

/-- One line that names the file. -/
def line : FileError → String
  | unreadable file fault => file ++ ": " ++ fault.message
  | uncompiled error => error.message

def summary : FileError → String
  | unreadable file _ => "failed to read " ++ file
  | uncompiled error => error.message

def cause : FileError → String
  | unreadable _ fault => fault.message
  | uncompiled error => error.cause

/-- The full account when this is the only file. -/
def account (e : FileError) : String :=
  "Error: " ++ e.summary ++ "\n\nCaused by:\n    " ++ e.cause ++ "\n"

end FileError

/-- The schema of a file, with the file's name as its source. -/
def Directory.compile (files : Directory) (name : String) : Except FileError Specification := do
  let text ← (files.read name).mapError (.unreadable name)
  (compileText name text).mapError .uncompiled

/-- What a command leaves behind. -/
structure Run where
  code : UInt8 := 0
  stdout : String := ""
  stderr : String := ""
  written : Option (String × String) := none
  deriving DecidableEq, Repr

/-- The files after the command. -/
def Run.files (r : Run) (before : Directory) : Directory :=
  match r.written with
  | some (name, text) => before.write name text
  | none => before

/-- What a check has reported so far. -/
structure Tally where
  stderr : String := ""
  failed : Nat := 0
  deriving DecidableEq, Repr

namespace Tally

def report (t : Tally) (e : FileError) : Tally :=
  { stderr := t.stderr ++ e.line ++ "\n", failed := t.failed + 1 }

/-- Reads one more file and compiles it with a compiler of its own. What cannot be read is reported
and not compiled. -/
def check (files : Directory) (t : Tally) (input : String) : Tally :=
  match files.read input with
  | .error fault => t.report (.unreadable input fault)
  | .ok text =>
    match compileText input text with
    | .error e => t.report (.uncompiled e)
    | .ok _ => t

end Tally

/-- The last line of a check in which files have failed. -/
def verdict (failed total : Nat) : String :=
  "Error: " ++ Radix.decimal.write failed ++ " of " ++ Radix.decimal.write total ++
    " schema(s) failed\n"

inductive Command where
  | ast (input : String) (output : Option String)
  | check (inputs : List String)
  deriving DecidableEq, Repr

namespace Command

def ofArgs? : List String → Option Command
  | ["ast", "-o", output, input] | ["ast", "--output", output, input]
  | ["ast", input, "-o", output] | ["ast", input, "--output", output] =>
    some (ast input (some output))
  | ["ast", input] => some (ast input none)
  | "check" :: input :: inputs => some (check (input :: inputs))
  | _ => none

/-- The files that a command reads. -/
def inputs : Command → List String
  | ast input _ => [input]
  | check inputs => inputs

def runAst (files : Directory) (input : String) (output : Option String) : Run :=
  match files.compile input with
  | .error e => { code := 1, stderr := e.account }
  | .ok schema =>
    match output with
    | some name => { written := some (name, schema.render) }
    | none => { stdout := schema.render }

/-- One file after the other. Only the tally goes over from one to the next. -/
def runCheck (files : Directory) (inputs : List String) : Run :=
  let tally := inputs.foldl (Tally.check files) {}
  if 0 < tally.failed then
    { code := 1, stderr := tally.stderr ++ verdict tally.failed inputs.length }
  else { stderr := tally.stderr }

def run (files : Directory) : Command → Run
  | ast input output => runAst files input output
  | check inputs => runCheck files inputs

end Command
end SchemaLang
