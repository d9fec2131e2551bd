import SchemaLang.Assembly
import SchemaLang.Grammar.Parse

/-! Compilation of schema texts under a source name. A unit that fails leaves the compiler
ready for the next one. -/
namespace SchemaLang

inductive CompileError where
  | unparsed (source : String) (error : SyntaxError)
  | unbuilt (source : String) (error : BuildError)
  deriving DecidableEq, Repr

namespace CompileError

def source : CompileError → String
  | unparsed source _ | unbuilt source _ => source

def position? : CompileError → Option Position
  | unparsed _ error => some error.position
  | unbuilt _ error => error.position?

/-- The message of the error inside. -/
def cause : CompileError → String
  | unparsed _ error => error.message
  | unbuilt _ error => error.message

def message (e : CompileError) : String :=
  let verb := match e with
    | unparsed .. => "parse"
    | unbuilt .. => "build"
  "failed to " ++ verb ++ " schema '" ++ e.source ++ "': " ++ e.cause

end CompileError

structure Compiler where
  source : String := "<input>"
  assembler : Assembler := {}
  deriving Repr

namespace Compiler

def compile (c : Compiler) (text : String) : Report CompileError Specification × Compiler :=
  match Grammar.parse text with
  | .error e =>
    (do .emit (.compiling c.source text.utf8ByteSize)
        .ofExcept (.error (.unparsed c.source e)), c)
  | .ok tree =>
    let (report, assembler) := c.assembler.build tree
    (do .emit (.compiling c.source text.utf8ByteSize)
        let schema ← report.mapError (.unbuilt c.source)
        .emit (.compiled c.source schema.scopes.length)
        pure schema, { c with assembler })

/-- Compiles the texts one after the other with one compiler. -/
def compileAll (c : Compiler) : List String → List (Report CompileError Specification) × Compiler
  | [] => ([], c)
  | text :: texts =>
    let (report, c) := c.compile text
    let (reports, c) := c.compileAll texts
    (report :: reports, c)

end Compiler

/-- The schema of one text, by a compiler of its own. -/
def compileText (source text : String) : Except CompileError Specification :=
  (Compiler.compile { source } text).1.result

end SchemaLang
