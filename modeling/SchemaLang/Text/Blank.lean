import SchemaLang.Text.Basic

/-! The characters with the Unicode property White_Space, and the first word of a text when
words are separated by them. Error reports quote such a word; the grammar itself skips fewer
characters. -/
namespace SchemaLang

/-- Ranges of code points with the property White_Space, ends included. -/
def blankRanges : List (Nat × Nat) :=
  [(0x9, 0xd), (0x20, 0x20), (0x85, 0x85), (0xa0, 0xa0), (0x1680, 0x1680), (0x2000, 0x200a),
    (0x2028, 0x2029), (0x202f, 0x202f), (0x205f, 0x205f), (0x3000, 0x3000)]

def isBlank (c : Char) : Bool :=
  blankRanges.any fun (low, high) => low ≤ c.toNat && c.toNat ≤ high

/-- The first maximal run of characters that are not blank, if there is one. -/
def Text.firstWord? (s : Text) : Option Text :=
  match s.dropWhile isBlank with
  | [] => none
  | c :: rest => some ((c :: rest).takeWhile (!isBlank ·))

end SchemaLang
