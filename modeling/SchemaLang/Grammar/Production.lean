import SchemaLang.Grammar.Lexeme
import SchemaLang.ParseTree

/-! The productions of the schema language. Each commits after its first word, so a broken
declaration is reported where it breaks and not as something missing from its scope. Tokens
are placed by the rest of the source that starts with them. -/
namespace SchemaLang.Grammar

open Scan

/-- Layout, then a construct with the place where it starts. -/
def placed (p : Scan α) : Scan (Text × α) := do
  layout
  let place ← here
  let value ← p
  pure (place, value)

def token (lexeme : Scan Text) : Scan (Token Text) :=
  (fun (place, text) => ⟨String.ofList text, place⟩) <$> placed lexeme

def name : Scan (Token Text) := token identifier

def literal : Scan (Token Text) := token intLiteral

def reference : Scan (Token Text) := token scopedName

/-- The built-in types that stand for themselves. Octets need a size. -/
def plainPrimitive? (word : Text) : Option Primitive :=
  match Primitive.ofKeyword? (String.ofList word) with
  | some .octets => none
  | other => other

def primitiveType : Scan (ParseTree.TypeSpec Text) :=
  (fun (place, kind) => .primitive kind ⟨kind.keyword, place⟩) <$>
    placed (word.select plainPrimitive?)

/-- The size of octets, as the type that it makes of the keyword. -/
def octetsSize : Scan (Token Text → ParseTree.TypeSpec Text) :=
  ((fun size keyword => .octets keyword (some size) none) <$> literal) <|>
    ((fun field keyword => .octets keyword none (some field)) <$> name)

def octetsType : Scan (ParseTree.TypeSpec Text) := do
  let keyword ← token (do let text ← tag "octets"; boundary; pure text)
  (mark .openBracket).expecting (.mark .openBracket)
  let sized ← octetsSize.expecting .octetsSize
  (mark .closeBracket).expecting (.mark .closeBracket)
  pure (sized keyword)

def namedType : Scan (ParseTree.TypeSpec Text) := .named <$> reference

def typeSpec : Scan (ParseTree.TypeSpec Text) := primitiveType <|> octetsType <|> namedType

def member : Scan (ParseTree.Member Text) := do
  let type ← typeSpec
  let name ← name.expecting .memberName
  (mark .semicolon).expecting (.mark .semicolon)
  pure ⟨type, name⟩

def enumValue : Scan (ParseTree.EnumValue Text) := do
  let name ← name
  let value ← (do mark .equals; literal.expecting .integerLiteral).maybe
  pure ⟨name, value⟩

def enum : Scan (ParseTree.Enum Text) := do
  keyword "enum"
  let name ← name.expecting .enumName
  (mark .openBrace).expecting (.mark .openBrace)
  let values ← (enumValue.sepBy1 (mark .comma)).expecting .enumValue
  let _ ← (mark .comma).maybe
  (mark .closeBrace).expecting .commaOrClose
  pure ⟨name, values⟩

def struct : Scan (ParseTree.Struct Text) := do
  keyword "struct"
  let name ← name.expecting .structName
  let typeId ← (do
    mark .openBracket
    let id ← literal.expecting .typeId
    (mark .closeBracket).expecting (.mark .closeBracket)
    pure id).maybe
  let supertype ← (do keyword "extends"; reference.expecting .supertypeName).maybe
  (mark .openBrace).expecting (.mark .openBrace)
  let members ← member.many
  (mark .closeBrace).expecting .memberOrClose
  pure ⟨name, typeId, supertype, members⟩

def unionCase : Scan (ParseTree.Case Text) := do
  keyword "case"
  let value ← literal.expecting .caseDiscriminant
  (mark .colon).expecting (.mark .colon)
  let members ← member.many
  pure ⟨value, members⟩

def union : Scan (ParseTree.Union Text) := do
  keyword "union"
  let name ← name.expecting .unionName
  let discriminantType ← (do
    keyword "switch"
    (mark .openParen).expecting (.mark .openParen)
    let type ← (token word).expecting .discriminantType
    (mark .closeParen).expecting (.mark .closeParen)
    pure type).maybe
  (mark .openBrace).expecting (.mark .openBrace)
  let cases ← unionCase.many
  (mark .closeBrace).expecting .caseOrClose
  pure ⟨name, discriminantType, cases⟩

def declaration : Scan (ParseTree.Declaration Text) := do
  let d ← (.enum <$> enum) <|> (.struct <$> struct) <|> (.union <$> union)
  let _ ← (mark .semicolon).maybe
  pure d

/-- A scope whose inner scopes are read by `inner`. -/
def scopeWith (inner : Scan (ParseTree.Scope Text)) : Scan (ParseTree.Scope Text) := do
  keyword "scope"
  let name ← name.expecting .scopeName
  (mark .openBrace).expecting (.mark .openBrace)
  let item : Scan (ParseTree.Item Text) :=
    ((fun s => .scope s.name s.items) <$> inner) <|> (.declaration <$> declaration)
  let items ← item.many
  (mark .closeBrace).expecting .declarationOrClose
  pure ⟨name, items⟩

/-- A scope whose scopes nest less deeply than the bound. Every level reads its keyword, so the
length of the text is a bound that never bites. -/
def scope : Nat → Scan (ParseTree.Scope Text)
  | 0 => missing
  | n + 1 => scopeWith (scope n)

/-- The end of the text. -/
def ending : Scan Unit
  | [] => .found () []
  | c :: rest => .absent (c :: rest)

/-- One scope or more up to the end of the text, under a bound on nesting. -/
def specification (bound : Nat) : Scan (ParseTree.Specification Text) := do
  let scopes ← (many1 (scope bound)).expecting .scope
  (do layout; ending).expecting .scopeOrEnd
  pure ⟨scopes⟩

def recognize (source : Text) : Outcome (ParseTree.Specification Text) :=
  specification source.length source

end SchemaLang.Grammar
