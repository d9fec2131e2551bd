import SchemaLang.Proofs.Grammar.Language
import SchemaLang.Proofs.Grammar.Trail
import SchemaLang.Proofs.Text.Place

/-! The tokens of a parsed text stand where the tree says, and each one stands behind those before
it. So the tokens of a tree have offsets in the text at which they are found, one behind the other. -/
namespace SchemaLang

/-- The text of the token is found in the source at its place. -/
def Token.StandsIn (t : Token Position) (source : Text) : Prop :=
  ∃ before after, source = before ++ t.text.toList ++ after ∧ Position.after before = t.place

/-- The text of the token is found in the source at a byte offset, and its place is the one counted
over the characters before. -/
def Token.StandsAt (source : Text) (offset : Nat) (t : Token Position) : Prop :=
  ∃ before after, source = before ++ t.text.toList ++ after ∧ Text.byteSize before = offset ∧
    t.place = Position.after before

variable {source : Text}

theorem Trail.standsAt (trail : Trail source ts rest) (mem : t ∈ ts) :
    (t.map (LineTable.ofText source).positionOf).StandsAt source
      (source.byteSize - t.place.byteSize) := by
  obtain ⟨⟨before, rfl⟩, after, spelled⟩ := trail.mem mem
  refine ⟨before, after, ?_, by simp, LineTable.positionOf_suffix before t.place⟩
  rw [List.append_assoc, Token.map, spelled]

/-- A token ends where the next one stands or before. -/
theorem Trail.separate (trail : Trail source ts rest) : ts.Pairwise fun t u =>
    source.byteSize - t.place.byteSize < source.byteSize - u.place.byteSize ∧
      source.byteSize - t.place.byteSize + t.text.utf8ByteSize ≤
        source.byteSize - u.place.byteSize := by
  refine trail.apart.imp_of_mem fun {t u} mem _ ⟨filled, middle, place, inside⟩ => ?_
  obtain ⟨before, rfl⟩ := (trail.mem mem).1
  obtain ⟨between, rfl⟩ := inside
  have width : Text.byteSize t.text.toList = t.text.utf8ByteSize := by
    rw [Text.byteSize_ofList, String.ofList_toList]
  have positive : t.text.utf8ByteSize ≠ 0 := by simpa using filled
  simp only [place, Text.byteSize_append, width]
  omega

theorem Trail.standsIn (trail : Trail source ts rest) (mem : t ∈ ts) :
    (t.map (LineTable.ofText source).positionOf).StandsIn source := by
  obtain ⟨⟨before, rfl⟩, after, spelled⟩ := trail.mem mem
  refine ⟨before, after, ?_, (LineTable.positionOf_suffix before t.place).symm⟩
  rw [List.append_assoc, Token.map, spelled]

theorem Trail.increasing (trail : Trail source ts rest) :
    ts.Pairwise fun t u => (LineTable.ofText source).positionOf t.place <
      (LineTable.ofText source).positionOf u.place := by
  refine trail.pairwise.imp_of_mem fun {t u} mem _ ⟨behind, different⟩ => ?_
  obtain ⟨before, rfl⟩ := (trail.mem mem).1
  obtain ⟨between, same⟩ := behind
  have apart : between ≠ [] := by
    rintro rfl
    exact different same
  have later := LineTable.positionOf_suffix (before ++ between) u.place
  rw [List.append_assoc, same] at later
  rw [LineTable.positionOf_suffix, later]
  exact Position.after_lt before apart

namespace Grammar

variable {source : String} {tree : ParseTree.Specification Position}

theorem parse_standsIn (parsed : parse source = .ok tree) (mem : t ∈ tree.tokens) :
    t.StandsIn source.toList := by
  obtain ⟨placed, _, found, rfl⟩ := parse_ok_iff.mp parsed
  obtain ⟨_, trail⟩ := recognize_trail found
  rw [placed.tokens_map] at mem
  obtain ⟨u, inside, rfl⟩ := List.mem_map.mp mem
  exact trail.standsIn inside

theorem parse_increasing (parsed : parse source = .ok tree) :
    tree.tokens.Pairwise fun t u => t.place < u.place := by
  obtain ⟨placed, _, found, rfl⟩ := parse_ok_iff.mp parsed
  obtain ⟨_, trail⟩ := recognize_trail found
  rw [placed.tokens_map, List.pairwise_map]
  exact trail.increasing

/-- Every token of a tree, in the order of the text, is found at an offset of its own. The offsets
increase, no token reaches into the next one, and the places are those of the offsets. -/
theorem parse_offsets (parsed : parse source = .ok tree) :
    ∃ offsets : List Nat, List.Forall₂ (Token.StandsAt source.toList) offsets tree.tokens ∧
      offsets.Pairwise (· < ·) ∧ (offsets.zip tree.tokens).Pairwise fun here next =>
        here.1 + here.2.text.utf8ByteSize ≤ next.1 := by
  obtain ⟨placed, _, found, rfl⟩ := parse_ok_iff.mp parsed
  obtain ⟨_, trail⟩ := recognize_trail found
  set text : Text := source.toList
  refine ⟨placed.tokens.map fun t => text.byteSize - t.place.byteSize, ?_, ?_, ?_⟩
  · rw [placed.tokens_map, List.forall₂_map_left_iff, List.forall₂_map_right_iff,
      List.forall₂_same]
    exact fun t mem => trail.standsAt mem
  · rw [List.pairwise_map]
    exact trail.separate.imp And.left
  · rw [placed.tokens_map, List.zip_map', List.pairwise_map]
    exact trail.separate.imp And.right

/-- Bytes are not characters behind the comment, and columns are counted anew on the second line. -/
theorem parse_offsets_comment :
    let source := "scope a \x7b\r\n/* \u00e9 */ struct s [0x1] \x7b octets[n] b; x.y c; \x7d \x7d"
    let tree : ParseTree.Specification Position := ⟨[⟨⟨"a", ⟨1, 7⟩⟩,
      [.declaration (.struct ⟨⟨"s", ⟨2, 16⟩⟩, some ⟨"0x1", ⟨2, 19⟩⟩, none,
        [⟨.octets ⟨"octets", ⟨2, 26⟩⟩ none (some ⟨"n", ⟨2, 33⟩⟩), ⟨"b", ⟨2, 36⟩⟩⟩,
          ⟨.named ⟨"x.y", ⟨2, 39⟩⟩, ⟨"c", ⟨2, 43⟩⟩⟩]⟩)]⟩]⟩
    parse source = .ok tree ∧
      ∃ offsets : List Nat, List.Forall₂ (Token.StandsAt source.toList) offsets tree.tokens ∧
        offsets.Pairwise (· < ·) ∧ (offsets.zip tree.tokens).Pairwise fun here next =>
          here.1 + here.2.text.utf8ByteSize ≤ next.1 := by
  intro source tree
  have parsed : parse source = .ok tree := by cbv
  exact ⟨parsed, parse_offsets parsed⟩

end Grammar
end SchemaLang
