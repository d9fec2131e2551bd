import SchemaLang.Grammar.Scan

/-! The lexemes of the schema language. Words and numbers are runs of ASCII letters, digits
and underscores and always take the whole run. -/
namespace SchemaLang

/-- The words that name nothing. -/
def reservedWords : List String :=
  ["scope", "enum", "struct", "union", "case", "switch", "extends", "octets", "list", "string",
    "int8", "int16", "int32", "int64", "uint8", "uint16", "uint32", "uint64"]

def isReserved (word : Text) : Bool := reservedWords.contains (String.ofList word)

def isWordStart (c : Char) : Bool := c.isAlpha || c = '_'

def isWordChar (c : Char) : Bool := c.isAlphanum || c = '_'

namespace Scan

/-- A letter or underscore and the run that follows, reserved or not. -/
def word : Scan Text
  | [] => .absent []
  | c :: rest =>
    if isWordStart c then .found (c :: rest.takeWhile isWordChar) (rest.dropWhile isWordChar)
    else .absent (c :: rest)

/-- A word that is not reserved. -/
def identifier : Scan Text := word.select fun w => if isReserved w then none else some w

/-- One further step into a scope, with its separator. -/
def qualification : Scan Text := do
  let separator ← tag "::" <|> tag "."
  let name ← identifier
  pure (separator ++ name)

/-- Identifiers joined by `::` or `.`, without layout between them. -/
def scopedName : Scan Text := do
  let first ← identifier
  let others ← many qualification
  pure (first ++ others.flatten)

/-- A digit and the run that follows, whether or not it reads as a number. -/
def digits : Scan Text
  | [] => .absent []
  | c :: rest =>
    if c.isDigit then .found (c :: rest.takeWhile isWordChar) (rest.dropWhile isWordChar)
    else .absent (c :: rest)

/-- An integer literal with at most a minus sign. A sign without a digit is absent after the
sign. -/
def intLiteral : Scan Text := do
  let sign ← (tag "-").maybe
  let run ← digits
  pure (sign.getD [] ++ run)

/-- Stands where no word goes on. -/
def boundary : Scan Unit
  | [] => .found () []
  | c :: rest => if isWordChar c then .absent (c :: rest) else .found () (c :: rest)

/-- Layout and a whole word. A longer word is absent at the place where it goes on. -/
def keyword (word : String) : Scan Unit := do
  layout
  let _ ← tag word
  boundary

/-- Layout and a symbol. -/
def symbol (text : String) : Scan Unit := do
  layout
  let _ ← tag text

def mark (m : Mark) : Scan Unit := symbol m.text

end Scan
end SchemaLang
