/-! The built-in types of the schema language and the types a member can have. -/
namespace SchemaLang

inductive Primitive where
  | int8 | int16 | int32 | int64
  | uint8 | uint16 | uint32 | uint64
  | string | octets | list
  deriving DecidableEq, Repr

namespace Primitive

def all : List Primitive :=
  [int8, int16, int32, int64, uint8, uint16, uint32, uint64, string, octets, list]

def keyword : Primitive → String
  | int8 => "int8"
  | int16 => "int16"
  | int32 => "int32"
  | int64 => "int64"
  | uint8 => "uint8"
  | uint16 => "uint16"
  | uint32 => "uint32"
  | uint64 => "uint64"
  | string => "string"
  | octets => "octets"
  | list => "list"

def ofKeyword? (word : String) : Option Primitive := all.find? (·.keyword = word)

theorem mem_all (p : Primitive) : p ∈ all := by cases p <;> simp [all]

theorem ofKeyword?_keyword (p : Primitive) : ofKeyword? p.keyword = some p := by
  cases p <;> decide

theorem keyword_of_ofKeyword? {word : String} {p : Primitive} (h : ofKeyword? word = some p) :
    p.keyword = word := by
  simpa using List.find?_some h

def isUnsigned : Primitive → Bool
  | uint8 | uint16 | uint32 | uint64 => true
  | _ => false

/-- The smallest signed type of at least 32 bits that holds every value of an unsigned type.
No type holds those of `uint64`. -/
def widened : Primitive → Option Primitive
  | uint8 | uint16 => some int32
  | uint32 => some int64
  | _ => none

end Primitive

/-- A named type is a reference, kept as it is written and not resolved. -/
inductive MemberType where
  | builtin (primitive : Primitive)
  | named (name : String)
  deriving DecidableEq, Repr

namespace MemberType

def text : MemberType → String
  | builtin p => p.keyword
  | named name => name

def reference? : MemberType → Option String
  | builtin _ => none
  | named name => some name

def isUnsigned : MemberType → Bool
  | builtin p => p.isUnsigned
  | named _ => false

def widened : MemberType → Option MemberType
  | builtin p => p.widened.map builtin
  | named _ => none

end MemberType
end SchemaLang
