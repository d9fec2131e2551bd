import SchemaLang.Proofs.Grammar.Completeness

/-! What the productions find is never empty, so that repetitions of them end where no further one
stands, and a schema is read as one scope after the other. -/
namespace SchemaLang.Grammar

open Scan

theorem Sound.progress {p : Scan α} (sound : Sound p view phrase)
    (filled : ∀ ⦃ts b⦄, phrase ts b → ∃ t ∈ ts, t ≠ "") : Progress p := by
  intro s a rest found
  obtain ⟨ts, reads, derived⟩ := sound found
  obtain ⟨t, mem, nonempty⟩ := filled derived
  exact reads.length_lt mem nonempty

theorem member_progress : Progress member := by
  apply member_sound.progress
  rintro _ _ ⟨⟩
  exact ⟨";", by simp, by decide⟩

theorem furtherValue_progress : Progress (do let _ ← mark .comma; enumValue) := by
  apply furtherValue_sound.progress
  rintro _ _ ⟨⟩
  exact ⟨",", by simp, by decide⟩

theorem unionCase_progress : Progress unionCase := by
  apply unionCase_sound.progress
  rintro _ _ ⟨⟩
  exact ⟨"case", by simp, by decide⟩

theorem declaration_progress : Progress declaration := by
  apply declaration_sound.progress
  intro ts d derived
  obtain ⟨w, us, rfl, mem, -⟩ := declaration_head derived
  exact ⟨w, by simp, (itemWords_reserved mem).2⟩

theorem scope_progress (bound : Nat) : Progress (scope bound) := by
  apply (scope_sound bound).progress
  rintro _ _ ⟨⟩
  exact ⟨"scope", by simp, by decide⟩

theorem item_progress (inner : Progress p) : Progress (itemWith p) := by
  intro s i rest found
  simp only [itemWith, orElse_found_iff, map_found_iff] at found
  rcases found with ⟨c, found, rfl⟩ | ⟨-, d, found, rfl⟩
  · exact inner found
  · exact declaration_progress found

theorem keyword_progress (reserved : w ∈ reservedWords) (filled : w ≠ "") :
    Progress (keyword w) := by
  intro s u rest found
  exact ((keyword_found_iff reserved).mp found).length_lt (List.mem_singleton_self w) filled

theorem recognize_found_iff : recognize s = .found tree rest ↔
    ∃ last, (tree.scopes ≠ [] ∧ Repeats (scope s.length) s tree.scopes last) ∧
      last.skipLayout = [] ∧ rest = [] := by
  simp only [recognize, specification, bind_found_iff, expecting_found_iff, pure_found_iff,
    many1_found_iff (scope_progress s.length), layout_found_iff, ending_found_iff]
  constructor
  · rintro ⟨scopes, last, reads, _, _, ⟨_, _, rfl, ended, rfl⟩, rfl, rfl⟩
    exact ⟨last, reads, ended, rfl⟩
  · rintro ⟨last, reads, ended, rfl⟩
    exact ⟨tree.scopes, last, reads, (), [], ⟨(), _, rfl, ended, rfl⟩, rfl, rfl⟩

end SchemaLang.Grammar
