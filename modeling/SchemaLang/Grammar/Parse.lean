import SchemaLang.Grammar.Production
import SchemaLang.Text.Blank
import SchemaLang.Text.LineTable

/-! Parsing of a whole schema text. The tree has its tokens placed by line and column; a text
that is no schema is answered by the place where it breaks, what was expected there and what
stands there instead. -/
namespace SchemaLang

/-- What stands where a text breaks. Long words are cut. -/
inductive Found where
  | word (text : String)
  | endOfInput
  deriving DecidableEq, Repr

namespace Found

def maxLength : Nat := 16

def ofText (s : Text) : Found :=
  match s.firstWord? with
  | some w => word (String.ofList (w.take maxLength))
  | none => endOfInput

def text : Found → String
  | word text => "`" ++ text ++ "`"
  | endOfInput => "end of input"

end Found

structure SyntaxError where
  position : Position
  expected : Expected
  found : Found
  deriving DecidableEq, Repr

namespace SyntaxError

/-- The report on a source that breaks at a suffix. Layout there is passed over first. -/
def ofStop (source stop : Text) (expected : Expected) : SyntaxError :=
  let place := stop.skipLayout
  ⟨(LineTable.ofText source).positionOf place, expected, Found.ofText place⟩

def message (e : SyntaxError) : String :=
  "syntax error at " ++ e.position.text ++ ": expected " ++ e.expected.text ++
    ", found " ++ e.found.text

end SyntaxError

namespace Grammar

/-- The recognizer commits to its first scope, so that absence never reaches the caller. -/
def parse (source : String) : Except SyntaxError (ParseTree.Specification Position) :=
  let text := source.toList
  match recognize text with
  | .found tree _ => .ok (tree.map (LineTable.ofText text).positionOf)
  | .absent stop => .error (.ofStop text stop .scope)
  | .broken stop expected => .error (.ofStop text stop expected)

end Grammar
end SchemaLang
