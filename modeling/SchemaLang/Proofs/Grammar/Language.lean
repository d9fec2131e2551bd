import SchemaLang.Grammar.Parse
import SchemaLang.Proofs.Grammar.Completeness
import SchemaLang.Proofs.ParseTree.Map

/-! The language of schemas: the texts that parse are those that the grammar spells, and each
parses as the tree of its derivation. -/
namespace SchemaLang

/-- The whole text is layout, a token, layout and so on up to layout at the end. -/
def Spells (tokens : List String) (s : Text) : Prop := ∃ rest, Reads tokens s rest ∧ Text.Gap rest []

namespace Grammar

variable {source : String} {result : ParseTree.Specification Position}

theorem parse_ok_iff : parse source = .ok result ↔
    ∃ tree rest, recognize source.toList = .found tree rest ∧
      tree.map (LineTable.ofText source.toList).positionOf = result := by
  simp only [parse]
  cases recognize source.toList <;> simp

theorem parse_spells (parsed : parse source = .ok result) :
    ∃ tokens, Spells tokens source.toList ∧ Phrase.Specification tokens (result.map bare) := by
  obtain ⟨tree, rest, found, rfl⟩ := parse_ok_iff.mp parsed
  obtain ⟨tokens, middle, reads, ends, derived⟩ := recognize_sound found
  refine ⟨tokens, ⟨middle, reads, ends⟩, ?_⟩
  rwa [ParseTree.Specification.map_map]

theorem parse_of_spells (spells : Spells tokens source.toList)
    (derived : Phrase.Specification tokens tree) :
    ∃ result, parse source = .ok result ∧ result.map bare = tree := by
  obtain ⟨rest, reads, ends⟩ := spells
  obtain ⟨placed, found, rfl⟩ := recognize_complete derived reads ends
  exact ⟨_, parse_ok_iff.mpr ⟨placed, [], found, rfl⟩, ParseTree.Specification.map_map ..⟩

/-- A text parses as a tree, places aside, exactly if the grammar derives that tree from the
tokens of the text. -/
theorem parse_iff_derives (source : String) (tree : ParseTree.Specification Unit) :
    (∃ result, parse source = .ok result ∧ result.map (fun _ => ()) = tree) ↔
      ∃ tokens, Spells tokens source.toList ∧ Phrase.Specification tokens tree := by
  constructor
  · intro ⟨result, parsed, same⟩
    exact same ▸ parse_spells parsed
  · intro ⟨tokens, spells, derived⟩
    exact parse_of_spells spells derived

end Grammar
end SchemaLang
