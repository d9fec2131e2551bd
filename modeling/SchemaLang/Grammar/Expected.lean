/-! What the grammar can be waiting for when a text breaks it, with the words in which this is
reported. -/
namespace SchemaLang

/-- The single characters that structure a schema. -/
inductive Mark where
  | openBrace | closeBrace | openBracket | closeBracket | openParen | closeParen
  | comma | semicolon | colon | equals
  deriving DecidableEq, Repr

namespace Mark

def char : Mark → Char
  | openBrace => '{'
  | closeBrace => '}'
  | openBracket => '['
  | closeBracket => ']'
  | openParen => '('
  | closeParen => ')'
  | comma => ','
  | semicolon => ';'
  | colon => ':'
  | equals => '='

def text (m : Mark) : String := m.char.toString

end Mark

inductive Expected where
  | scope | scopeOrEnd
  | scopeName | enumName | structName | unionName | memberName | supertypeName
  | enumValue | integerLiteral | typeId | caseDiscriminant | discriminantType | octetsSize
  | mark (m : Mark)
  | declarationOrClose | memberOrClose | caseOrClose | commaOrClose
  deriving DecidableEq, Repr

namespace Expected

def text : Expected → String
  | scope => "scope"
  | scopeOrEnd => "scope or end of input"
  | scopeName => "scope name"
  | enumName => "enum name"
  | structName => "struct name"
  | unionName => "union name"
  | memberName => "member name"
  | supertypeName => "supertype name"
  | enumValue => "enum value"
  | integerLiteral => "integer literal"
  | typeId => "type id"
  | caseDiscriminant => "case discriminant"
  | discriminantType => "discriminant type"
  | octetsSize => "octets size or size field"
  | mark m => "`" ++ m.text ++ "`"
  | declarationOrClose => "declaration or `\x7d`"
  | memberOrClose => "member or `\x7d`"
  | caseOrClose => "case or `\x7d`"
  | commaOrClose => "`,` or `\x7d`"

end Expected
end SchemaLang
