import SchemaLang.ParseTree
import SchemaLang.Schema.Draft
import SchemaLang.Trace.Report

/-! Assembly of a schema from its parse tree, depth first. Scopes under construction stand on a
stack, innermost first; a finished scope or declaration joins the one on top. The first fault
ends the assembly, and nothing of the schema is returned. -/
namespace SchemaLang.Assembly

/-- An error in a token is an error at its place. -/
def located (t : Token Position) (result : Except BuildError α) : Except BuildError α :=
  result.mapError (·.locate t.place)

def number (t : Token Position) : Except BuildError Int32 :=
  located t (Literal.parseInt (some t.text))

def size (t : Token Position) : Except BuildError UInt32 := located t (Literal.parseSize t.text)

/-- Only the position of a value counts. A literal beside it is not read. -/
def value (v : ParseTree.EnumValue Position) (ordinal : Nat) : Except BuildError Value :=
  ValueDraft.finish { name := some v.name.text, ordinal := some ordinal }

def enum (e : ParseTree.Enum Position) : Report BuildError Enum := do
  let values ← e.values.zipIdx.mapM fun (v, i) => .ofExcept (value v i)
  .emit (.builtEnum e.name.text values.length)
  pure { name := e.name.text, values }

/-- What the type of a member says about it. The keyword `octets` alone gives no size. -/
def typed : ParseTree.TypeSpec Position → Except BuildError MemberDraft
  | .primitive .octets keyword => do
    let octets ← located keyword (OctetsSize.classify none none)
    pure { type := some (.builtin .octets), octets := some octets }
  | .primitive kind _ => pure { type := some (.builtin kind) }
  | .octets keyword sizeToken field => do
    let fixed ← sizeToken.mapM size
    let octets ← located keyword (OctetsSize.classify fixed (field.map (·.text)))
    pure { type := some (.builtin .octets), octets := some octets }
  | .named name => pure { type := some (.named name.text) }

def member (m : ParseTree.Member Position) : Report BuildError Member := do
  let draft ← .ofExcept (typed m.type)
  let built ← .ofExcept ({ draft with name := some m.name.text }).finish
  .emit (.builtMember built.name built.type.text)
  pure built

/-- A type id that is left out is zero. -/
def struct (s : ParseTree.Struct Position) : Report BuildError Struct := do
  let typeId ← .ofExcept (match s.typeId with
    | some t => number t
    | none => Literal.parseInt none)
  let members ← s.members.mapM member
  let supertype := s.supertype.map (·.text)
  .emit (.builtStruct s.name.text typeId supertype members.length)
  pure { name := s.name.text, typeId, supertype, members }

/-- Cases keep the discriminants that are written. -/
def unionCase (c : ParseTree.Case Position) : Report BuildError Case := do
  let value ← .ofExcept (number c.value)
  let members ← c.members.mapM member
  .emit (.builtCase value members.length)
  pure { value, members }

def union (u : ParseTree.Union Position) : Report BuildError Union := do
  let cases ← u.cases.mapM unionCase
  .emit (.builtUnion u.name.text cases.length)
  pure { name := u.name.text, cases }

def declaration : ParseTree.Declaration Position → Report BuildError Declaration
  | .enum e => .enum <$> enum e
  | .struct s => .struct <$> struct s
  | .union u => .union <$> union u

/-- Work on the stack of open scopes. The stack is there also after an error. -/
def Walk (α : Type) := List Scope → Report BuildError α × List Scope

namespace Walk

instance : Monad Walk where
  pure a := fun opened => (pure a, opened)
  bind w f := fun opened =>
    let (report, opened) := w opened
    match report.result with
    | .ok a =>
      let (later, opened) := f a opened
      (⟨report.events ++ later.events, later.result⟩, opened)
    | .error e => (⟨report.events, .error e⟩, opened)

/-- Work that opens no scope. -/
def lift (report : Report BuildError α) : Walk α := fun opened => (report, opened)

/-- Opens a scope, does the work inside it and closes it again. -/
def within (name : String) (work : Walk Unit) : Walk Scope := fun opened =>
  let depth := opened.length
  let (inside, opened) := work ({ name, depth } :: opened)
  match opened with
  | [] => (⟨.entering name depth :: inside.events, .error (.missing .openScope)⟩, [])
  | built :: opened =>
    (do .emit (.entering name depth)
        inside
        .emit (.leaving name depth built.scopes.length built.enums.length built.structs.length
          built.unions.length)
        pure built, opened)

/-- Lets the innermost open scope grow. -/
def attach (events : Scope → List Event) (grow : Scope → Scope) : Walk Unit
  | [] => (.ofExcept (.error (.missing .enclosingScope)), [])
  | top :: opened => (⟨events top, .ok ()⟩, grow top :: opened)

def attachScope (child : Scope) : Walk Unit := attach (fun _ => []) (·.addScope child)

def attachDeclaration (d : Declaration) : Walk Unit :=
  attach (fun top => [.attaching top.name top.depth d.name]) (·.declare d)

end Walk

open Walk

mutual
def item : ParseTree.Item Position → Walk Unit
  | .scope name items => do
    let child ← within name.text (allItems items)
    attachScope child
  | .declaration d => do
    let built ← lift (declaration d)
    attachDeclaration built
def allItems : List (ParseTree.Item Position) → Walk Unit
  | [] => pure ()
  | i :: is => do
    item i
    allItems is
end

def scope (s : ParseTree.Scope Position) : Walk Scope := within s.name.text (allItems s.items)

def specification (s : ParseTree.Specification Position) : Walk Specification := do
  let scopes ← s.scopes.mapM scope
  pure { scopes }

end Assembly

/-- Assembles one unit after the other. Between units no scope is open. -/
structure Assembler where
  openScopes : List Scope := []
  deriving Repr

namespace Assembler

def depth (a : Assembler) : Nat := a.openScopes.length

def clear (a : Assembler) : Assembler := { a with openScopes := [] }

/-- Starts with no scope open, whatever was left over, and leaves none open. -/
def run (a : Assembler) (work : Assembly.Walk α) : Report BuildError α × Assembler :=
  let (report, openScopes) := work a.clear.openScopes
  (report, clear { a with openScopes })

def build (a : Assembler) (tree : ParseTree.Specification Position) :
    Report BuildError Specification × Assembler :=
  a.run (Assembly.specification tree)

/-- One scope by itself, at depth zero. -/
def buildScope (a : Assembler) (tree : ParseTree.Scope Position) :
    Report BuildError Scope × Assembler :=
  a.run (Assembly.scope tree)

/-- One declaration that belongs to no scope. Nothing is opened for it, and so only what was left
over is cleared. -/
def buildDeclaration (a : Assembler) (tree : ParseTree.Declaration Position) :
    Report BuildError Declaration × Assembler :=
  (Assembly.declaration tree, a.clear)

end Assembler
end SchemaLang
