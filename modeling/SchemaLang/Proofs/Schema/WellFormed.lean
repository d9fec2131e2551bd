import SchemaLang.Proofs.Grammar.TokenClass
import SchemaLang.Schema.Basic

/-! Well-formed schemas. A name is an identifier and a reference a scoped name, values are
counted from zero, the depth of a scope is its nesting, and exactly the octets members have a
size. Numbers are not restricted, and only schemas and enums must not be empty. -/
namespace SchemaLang

inductive OctetsSize.WellFormed : OctetsSize → Prop where
  | fixed : 1 ≤ n.toNat → WellFormed (.fixed n)
  | sized : IsIdentifier field → WellFormed (.sized field)

/-- The type of a member and the size that goes with it. -/
inductive MemberType.WellFormed : MemberType → Option OctetsSize → Prop where
  | octets : size.WellFormed → WellFormed (.builtin .octets) (some size)
  | builtin : kind ≠ .octets → WellFormed (.builtin kind) none
  | named : IsScopedName name → WellFormed (.named name) none

structure Member.WellFormed (m : Member) : Prop where
  name : IsIdentifier m.name
  type : m.type.WellFormed m.octets

structure Enum.WellFormed (e : Enum) : Prop where
  name : IsIdentifier e.name
  nonempty : e.values ≠ []
  values : ∀ v ∈ e.values, IsIdentifier v.name
  ordinals : ∀ (i : Nat) (h : i < e.values.length), e.values[i].ordinal = i

structure Struct.WellFormed (s : Struct) : Prop where
  name : IsIdentifier s.name
  supertype : ∀ t ∈ s.supertype, IsScopedName t
  members : ∀ m ∈ s.members, m.WellFormed

def Case.WellFormed (c : Case) : Prop := ∀ m ∈ c.members, m.WellFormed

structure Union.WellFormed (u : Union) : Prop where
  name : IsIdentifier u.name
  cases : ∀ c ∈ u.cases, c.WellFormed

/-- At a depth, which the scopes inside exceed by one. -/
inductive Scope.WellFormed : Nat → Scope → Prop where
  | scope : IsIdentifier s.name → s.depth = level →
      (∀ child ∈ s.scopes, WellFormed (level + 1) child) → (∀ e ∈ s.enums, e.WellFormed) →
      (∀ t ∈ s.structs, t.WellFormed) → (∀ u ∈ s.unions, u.WellFormed) → WellFormed level s

structure Specification.WellFormed (s : Specification) : Prop where
  nonempty : s.scopes ≠ []
  scopes : ∀ scope ∈ s.scopes, Scope.WellFormed 0 scope

/-- A reference is never mistaken for a built-in type. -/
theorem IsScopedName.ne_keyword (reference : IsScopedName t) (kind : Primitive) :
    t ≠ kind.keyword := by
  rintro rfl
  have reserved := keyword_reserved kind
  generalize same : kind.keyword = t at reference
  cases reference with
  | name named => exact named.2 (same ▸ reserved)
  | qualified _ separated =>
    have wordChars := IsWord.wordChars (isWord_reserved (same ▸ reserved))
    rcases separated with rfl | rfl
    · exact absurd (wordChars ':' (by simp)) (by decide)
    · exact absurd (wordChars '.' (by simp)) (by decide)

end SchemaLang
