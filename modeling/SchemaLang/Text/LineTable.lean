import SchemaLang.Text.Basic
import SchemaLang.Text.Position

/-! The lines of a source text by the byte offsets at which they start, and the position of a
byte offset. An offset inside a character or past the end of the text has no column; it is
reported at the start of the last line that begins at or before it. -/
namespace SchemaLang

structure LineTable where
  source : Text
  starts : Array Nat
  deriving Repr

namespace LineTable

/-- Offsets right after each line feed of a text that begins at `offset`. -/
def startsFrom (offset : Nat) : Text → List Nat
  | [] => []
  | c :: rest =>
    let next := offset + c.utf8Size
    if c = '\n' then next :: startsFrom next rest else startsFrom next rest

def ofText (source : Text) : LineTable := ⟨source, (0 :: startsFrom 0 source).toArray⟩

/-- The first index from `low` on whose start lies beyond an offset, or `high` if there is none
before. The starts are taken to increase, so that half of the range falls away each time. -/
def firstBeyond (starts : Array Nat) (offset low high : Nat) : Nat :=
  if low < high then
    let middle := (low + high) / 2
    if starts.getD middle 0 ≤ offset then firstBeyond starts offset (middle + 1) high
    else firstBeyond starts offset low middle
  else low
termination_by high - low

/-- Number of lines that start at or before an offset. -/
def line (t : LineTable) (offset : Nat) : Nat := firstBeyond t.starts offset 0 t.starts.size

/-- Offset at which the line of `offset` starts. -/
def lineStart (t : LineTable) (offset : Nat) : Nat := (t.starts[t.line offset - 1]?).getD 0

def column (t : LineTable) (offset : Nat) : Nat :=
  let start := t.lineStart offset
  match (t.source.dropBytes? start).bind (Text.takeBytes? (offset - start)) with
  | some before => before.length + 1
  | none => 1

def position (t : LineTable) (offset : Nat) : Position := ⟨t.line offset, t.column offset⟩

/-- Position at which a suffix of the source starts. -/
def positionOf (t : LineTable) (suffix : Text) : Position :=
  t.position (t.source.byteSize - suffix.byteSize)

end LineTable
end SchemaLang
