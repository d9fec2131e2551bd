/-! What happens while a schema is compiled, one event at a time. -/
namespace SchemaLang

inductive Event where
  | compiling (source : String) (bytes : Nat)
  | entering (scope : String) (depth : Nat)
  | attaching (scope : String) (depth : Nat) (declaration : String)
  | builtEnum (name : String) (values : Nat)
  | builtStruct (name : String) (typeId : Int32) (supertype : Option String) (members : Nat)
  | builtUnion (name : String) (cases : Nat)
  | builtCase (value : Int32) (members : Nat)
  | builtMember (name : String) (type : String)
  | leaving (scope : String) (depth scopes enums structs unions : Nat)
  | compiled (source : String) (scopes : Nat)
  deriving DecidableEq, Repr

namespace Event

inductive Level where
  | debug | trace
  deriving DecidableEq, Repr

/-- Units and scopes are reported at a coarser level than what is inside them. -/
def level : Event → Level
  | compiling .. | entering .. | leaving .. | compiled .. => .debug
  | _ => .trace

def message : Event → String
  | compiling .. => "compiling schema"
  | entering .. => "entering scope"
  | attaching .. => "attaching declaration"
  | builtEnum .. => "built enum"
  | builtStruct .. => "built struct"
  | builtUnion .. => "built union"
  | builtCase .. => "built case"
  | builtMember .. => "built member"
  | leaving .. => "leaving scope"
  | compiled .. => "compiled schema"

inductive Field where
  | text (value : String)
  | number (value : Int)
  deriving DecidableEq, Repr

/-- The details of an event by name. A struct without a supertype has no such detail. -/
def fields : Event → List (String × Field)
  | compiling source bytes => [("source", .text source), ("bytes", .number bytes)]
  | entering scope depth => [("scope", .text scope), ("depth", .number depth)]
  | attaching scope depth declaration =>
    [("scope", .text scope), ("depth", .number depth), ("declaration", .text declaration)]
  | builtEnum name values => [("name", .text name), ("values", .number values)]
  | builtStruct name typeId supertype members =>
    [("name", .text name), ("type_id", .number typeId.toInt)] ++
      (supertype.map fun s => ("supertype", Field.text s)).toList ++
      [("members", .number members)]
  | builtUnion name cases => [("name", .text name), ("cases", .number cases)]
  | builtCase value members => [("value", .number value.toInt), ("members", .number members)]
  | builtMember name type => [("name", .text name), ("ty", .text type)]
  | leaving scope depth scopes enums structs unions =>
    [("scope", .text scope), ("depth", .number depth), ("scopes", .number scopes),
      ("enums", .number enums), ("structs", .number structs), ("unions", .number unions)]
  | compiled source scopes => [("source", .text source), ("scopes", .number scopes)]

end Event
end SchemaLang
