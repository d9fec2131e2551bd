import SchemaLang.Proofs.Literal.Numeral
import SchemaLang.Proofs.Outline.Line
import SchemaLang.Proofs.Outline.Schema
import SchemaLang.Proofs.Schema.WellFormed

/-! The texts of an outline are read back. The names, types and numbers of a well-formed schema
hold no blank, bracket or line feed, so that what stands around them shows where they end. -/
namespace SchemaLang

theorem type_compact (wellFormed : MemberType.WellFormed t x) : Compact t.text := by
  cases wellFormed with
  | octets | builtin => exact compact_keyword _
  | named reference => exact reference.compact

/-- A compact text ends where a blank or a bracket stands. -/
theorem compact_cut (compact : Compact t) (compact' : Compact t')
    (ends : ∀ c ∈ r.head?, isTokenChar c = false) (ends' : ∀ c ∈ r'.head?, isTokenChar c = false)
    (same : t.toList ++ r = t'.toList ++ r') : t = t' ∧ r = r' := by
  obtain ⟨first, rest⟩ := cut_unique compact compact' ends ends' same
  exact ⟨String.toList_injective first, rest⟩

theorem name_cut (named : IsIdentifier t) (named' : IsIdentifier t') (ends : WordEnds r)
    (ends' : WordEnds r') (same : t.toList ++ r = t'.toList ++ r') : t = t' ∧ r = r' := by
  obtain ⟨first, rest⟩ :=
    cut_unique (IsWord.wordChars named.1) (IsWord.wordChars named'.1) ends ends' same
  exact ⟨String.toList_injective first, rest⟩

end SchemaLang
