import SchemaLang.BuildError
import SchemaLang.Schema.Basic

/-! Values and members whose parts arrive one by one. A draft becomes a node once its required
parts are there; of two missing parts the name is the one reported. -/
namespace SchemaLang

def Part.require (part : Part) : Option α → Except BuildError α
  | some a => .ok a
  | none => .error (.missing part)

structure ValueDraft where
  name : Option String := none
  ordinal : Option Nat := none
  deriving DecidableEq, Repr

def ValueDraft.finish (d : ValueDraft) : Except BuildError Value := do
  let name ← Part.valueName.require d.name
  let ordinal ← Part.valueOrdinal.require d.ordinal
  pure ⟨name, ordinal⟩

/-- The two ways to give an octets size share one slot, and the later one stands. -/
structure MemberDraft where
  name : Option String := none
  type : Option MemberType := none
  octets : Option OctetsSize := none
  deriving DecidableEq, Repr

def MemberDraft.finish (d : MemberDraft) : Except BuildError Member := do
  let name ← Part.memberName.require d.name
  let type ← Part.memberType.require d.type
  pure ⟨name, type, d.octets⟩

end SchemaLang
