import SchemaLang.Proofs.Grammar.Language
import SchemaLang.Proofs.Grammar.Nested
import SchemaLang.Proofs.Text.Comment

/-! A comment is read as a space. It separates tokens as a space does, nothing inside it is looked
at, and this is so up to the place where a text breaks. -/
namespace SchemaLang

open Text (stripComments)

/-- A text beside what remains of it without comments. -/
def Stripped (s s' : Text) : Prop := s' = stripComments s

theorem follows_stripped : Follows Stripped Stripped where
  layout := by
    rintro s _ rfl
    exact Text.skipLayout_stripComments s
  ending := by
    rintro _ rfl
    exact Text.stripComments_nil
  step := by
    rintro c s _ solid - rfl
    exact ⟨_, Text.stripComments_solid solid, rfl⟩
  close := by
    rintro s _ rfl
    exact ⟨_, Text.stripComments_solid (by decide), rfl⟩

theorem follows_unstripped : Follows (flip Stripped) (flip Stripped) where
  layout := by
    rintro _ s rfl
    exact Text.skipLayout_stripComments s
  ending same := Text.stripComments_eq_nil_iff.mp same.symm
  step solid _ same := Text.solid_of_stripComments solid same.symm
  close same := Text.solid_of_stripComments (by decide) same.symm

theorem parallel_stripped : Parallel Stripped Stripped bare bare :=
  ⟨follows_stripped, follows_unstripped, fun _ => rfl⟩

namespace Grammar

/-- The text without its comments, a space for each. -/
def withoutComments (source : String) : String := .ofList (stripComments source.toList)

/-- A text is accepted with and without its comments, and then the trees differ only in places, or
it is refused both times and the same is expected. -/
theorem parse_withoutComments (source : String) :
    (∃ tree tree', parse source = .ok tree ∧ parse (withoutComments source) = .ok tree' ∧
      tree.map bare = tree'.map bare) ∨
    ∃ e e', parse source = .error e ∧ parse (withoutComments source) = .error e' ∧
      e.expected = e'.expected := by
  have stripped : (withoutComments source).toList = stripComments source.toList :=
    String.toList_ofList
  have same := parallel_stripped.recognize_agree (s := source.toList) rfl
  simp only [parse, stripped]
  generalize recognize source.toList = left, recognize (stripComments source.toList) = right at same
  cases same with
  | found alike _ =>
    refine .inl ⟨_, _, rfl, rfl, ?_⟩
    rw [ParseTree.Specification.map_map, ParseTree.Specification.map_map]
    exact alike
  | absent => exact .inr ⟨_, _, rfl, rfl, rfl⟩
  | broken => exact .inr ⟨_, _, rfl, rfl, rfl⟩

end Grammar
end SchemaLang
