import SchemaLang.Literal

/-! How the length of an octets member is settled: by a number in the schema or by another
member at run time. A schema gives exactly one of the two. -/
namespace SchemaLang

inductive OctetsSize where
  | fixed (size : UInt32)
  | sized (field : String)
  deriving DecidableEq, Repr

inductive OctetsFault where
  | both (size : UInt32) (field : String)
  | neither
  deriving DecidableEq, Repr

def OctetsFault.detail : OctetsFault → String
  | both size field =>
    "both fixed size " ++ Radix.decimal.write size.toNat ++ " and size field `" ++ field ++
      "` given"
  | neither => "neither fixed size nor size field given"

namespace OctetsSize

def ofForms : Option UInt32 → Option String → Except OctetsFault OctetsSize
  | some size, none => .ok (fixed size)
  | none, some field => .ok (sized field)
  | some size, some field => .error (.both size field)
  | none, none => .error .neither

def size? : OctetsSize → Option UInt32
  | fixed size => some size
  | sized _ => none

def field? : OctetsSize → Option String
  | fixed _ => none
  | sized field => some field

/-- The size as it stands between brackets. -/
def text : OctetsSize → String
  | fixed size => Radix.decimal.write size.toNat
  | sized field => field

end OctetsSize
end SchemaLang
