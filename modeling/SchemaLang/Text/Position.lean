/-! Places in schema text as people count them. Lines and columns start at one, and a place
on an earlier line comes before every place on a later one. -/
namespace SchemaLang

structure Position where
  line : Nat
  column : Nat
  deriving DecidableEq, Repr, Inhabited

namespace Position

/-- Line first, then column. -/
instance : Ord Position where
  compare a b := (compare a.line b.line).then (compare a.column b.column)

instance : LT Position := ltOfOrd

instance : LE Position := leOfOrd

def text (p : Position) : String := s!"{p.line}:{p.column}"

instance : ToString Position := ⟨text⟩

end Position
end SchemaLang
