import SchemaLang.Text.Basic

/-! Integer literals and the numbers they stand for. Digits are read from left to right and
the first problem is the one reported, so a number can be too large although a character that
is no digit follows. -/
namespace SchemaLang

inductive LiteralFault where
  | empty | invalidDigit | tooLarge | tooSmall
  | signAfterHexMark | signedSize | zeroSize
  deriving DecidableEq, Repr

def LiteralFault.reason : LiteralFault → String
  | empty => "cannot parse integer from empty string"
  | invalidDigit => "invalid digit found in string"
  | tooLarge => "number too large to fit in target type"
  | tooSmall => "number too small to fit in target type"
  | signAfterHexMark => "sign after hex prefix"
  | signedSize => "sign not allowed in size"
  | zeroSize => "size must be positive"

inductive Radix where
  | decimal | hexadecimal
  deriving DecidableEq, Repr

namespace Radix

def base : Radix → Nat
  | decimal => 10
  | hexadecimal => 16

/-- The value of an ASCII digit. Hexadecimal letters may have either case. -/
def digit? (r : Radix) (c : Char) : Option Nat :=
  if c.isDigit then some (c.toNat - '0'.toNat)
  else match r with
    | decimal => none
    | hexadecimal =>
      if 'a' ≤ c && c ≤ 'f' then some (c.toNat - 'a'.toNat + 10)
      else if 'A' ≤ c && c ≤ 'F' then some (c.toNat - 'A'.toNat + 10)
      else none

/-- Goes on reading digits after `value`, up to a limit. -/
def readDigits (r : Radix) (limit : Nat) (overflow : LiteralFault) (value : Nat) :
    Text → Except LiteralFault Nat
  | [] => .ok value
  | c :: rest =>
    match r.digit? c with
    | none => .error .invalidDigit
    | some d =>
      let next := value * r.base + d
      if next ≤ limit then readDigits r limit overflow next rest else .error overflow

/-- A sign alone is no number. -/
def readAfterSign (r : Radix) (limit : Nat) (overflow : LiteralFault) :
    Text → Except LiteralFault Nat
  | [] => .error .invalidDigit
  | digits => r.readDigits limit overflow 0 digits

/-- Digits in lower case and without a mark. -/
def write (r : Radix) (n : Nat) : String := String.ofList (Nat.toDigits r.base n)

end Radix

namespace Literal

def hexMark : String := "0x"

def maxInt32 : Nat := 0x7fffffff

def maxUInt32 : Nat := 0xffffffff

/-- Signed 32-bit numbers. The lower bound is one further from zero than the upper bound. -/
def readSigned (r : Radix) : Text → Except LiteralFault Int32
  | [] => .error .empty
  | '-' :: rest => do
    let n ← r.readAfterSign (maxInt32 + 1) .tooSmall rest
    pure (Int32.ofInt (-n))
  | '+' :: rest => do
    let n ← r.readAfterSign maxInt32 .tooLarge rest
    pure (Int32.ofInt n)
  | digits => do
    let n ← r.readDigits maxInt32 .tooLarge 0 digits
    pure (Int32.ofInt n)

def isSigned : Text → Bool
  | c :: _ => c = '+' || c = '-'
  | [] => false

/-- Type ids and discriminants: hexadecimal without a sign after the mark, else decimal with an
optional sign. -/
def readInt (s : Text) : Except LiteralFault Int32 :=
  match hexMark.toList.isPrefixOf? s with
  | some digits =>
    if isSigned digits then .error .signAfterHexMark else readSigned .hexadecimal digits
  | none => readSigned .decimal s

/-- Sizes of octets: decimal, without a sign, at least one. -/
def readSize (s : Text) : Except LiteralFault UInt32 :=
  if isSigned s then .error .signedSize
  else if s.isEmpty then .error .empty
  else do
    let n ← Radix.decimal.readDigits maxUInt32 .tooLarge 0 s
    if n = 0 then .error .zeroSize else pure (UInt32.ofNat n)

def writeDecimal (v : Int32) : String :=
  if v < 0 then "-" ++ Radix.decimal.write v.toInt.natAbs else Radix.decimal.write v.toInt.natAbs

/-- Hexadecimal has no sign, so a negative number is written in decimal. -/
def writeHex (v : Int32) : String :=
  if v < 0 then writeDecimal v else hexMark ++ Radix.hexadecimal.write v.toInt.natAbs

end Literal
end SchemaLang
