import SchemaLang.OctetsSize
import SchemaLang.Text.Position

/-! What can go wrong when a schema is assembled. Faults of the schema text can carry a place;
a part that the assembly itself left out has none. -/
namespace SchemaLang

/-- Parts without which a node cannot be finished. -/
inductive Part where
  | memberName | memberType | valueName | valueOrdinal | openScope | enclosingScope
  deriving DecidableEq, Repr

namespace Part

def node : Part → String
  | memberName | memberType => "member"
  | valueName | valueOrdinal => "value"
  | openScope => "scope"
  | enclosingScope => "scope member"

def field : Part → String
  | memberName | valueName => "name"
  | memberType => "type"
  | valueOrdinal => "ordinal"
  | openScope => "builder"
  | enclosingScope => "enclosing scope"

end Part

inductive BuildError where
  | malformedLiteral (literal : String) (fault : LiteralFault) (position : Option Position)
  | ambiguousOctets (fault : OctetsFault) (position : Option Position)
  | missing (part : Part)
  deriving DecidableEq, Repr

namespace BuildError

/-- Gives a place to an error that can have one and has none yet. -/
def locate (p : Position) : BuildError → BuildError
  | malformedLiteral literal fault none => malformedLiteral literal fault (some p)
  | ambiguousOctets fault none => ambiguousOctets fault (some p)
  | other => other

def position? : BuildError → Option Position
  | malformedLiteral _ _ position | ambiguousOctets _ position => position
  | missing _ => none

def placeText : Option Position → String
  | some p => " at " ++ p.text
  | none => ""

def message : BuildError → String
  | malformedLiteral literal fault position =>
    "malformed integer literal `" ++ literal ++ "`" ++ placeText position ++ ": " ++ fault.reason
  | ambiguousOctets fault position =>
    "ambiguous octets size" ++ placeText position ++ ": " ++ fault.detail
  | missing part =>
    "builder contract violated: " ++ part.node ++ " finalized without `" ++ part.field ++ "`"

end BuildError

namespace Literal

/-- The number of an integer literal. One that is left out stands for zero. -/
def parseInt : Option String → Except BuildError Int32
  | none => .ok 0
  | some text => (readInt text.toList).mapError (.malformedLiteral text · none)

def parseSize (text : String) : Except BuildError UInt32 :=
  (readSize text.toList).mapError (.malformedLiteral text · none)

end Literal

/-- The octets size of the two forms that a schema may give. -/
def OctetsSize.classify (size : Option UInt32) (field : Option String) :
    Except BuildError OctetsSize :=
  (ofForms size field).mapError (.ambiguousOctets · none)

end SchemaLang
