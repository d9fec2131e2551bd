import SchemaLang.Proofs.Compiler.Refusal
import SchemaLang.Proofs.Compiler.Trace
import SchemaLang.Proofs.Grammar.Renewal

/-! Literals beside enum values decide nothing. With others or none in their place a text is compiled to
the same schema or refused for the same number, and the same is reported on the way. -/
namespace SchemaLang

namespace ParseTree

variable {left : Specification π} {right : Specification ρ}

/-- Trees that are the same but for their places and the literals of their enum values. -/
def Specification.Alike (left : Specification π) (right : Specification ρ) : Prop :=
  (left.map bare).unnumbered = (right.map bare).unnumbered

theorem Specification.Alike.meaning_eq (alike : left.Alike right) :
    left.meaning = right.meaning := by
  have same := congrArg Specification.meaning alike
  simpa only [Specification.meaning_unnumbered, Specification.meaning_map] using same

theorem Specification.Alike.told_eq (alike : left.Alike right) :
    left.story.told = right.story.told := by
  have same := congrArg (fun tree => tree.story.told) alike
  simpa only [Specification.story_unnumbered, Specification.story_map, Story.told_map] using same

theorem Specification.Alike.faults_eq (alike : left.Alike right) :
    left.faults.map (·.map bare) = right.faults.map (·.map bare) := by
  have same := congrArg (fun tree => tree.story.faults) alike
  simpa only [Specification.story_unnumbered, Specification.faults_story,
    Specification.faults_map] using same

end ParseTree

namespace Compiler

variable {c : Compiler} {text name : String}

/-- The same schema, or the same number that is refused for the same reason. -/
inductive Agree (source : String) :
    Except CompileError Specification → Except CompileError Specification → Prop where
  | built : Agree source (.ok schema) (.ok schema)
  | refused : Agree source
      (.error (.unbuilt source (.malformedLiteral literal fault (some place))))
      (.error (.unbuilt source (.malformedLiteral literal fault (some place'))))

theorem settle_agree {tree tree' : ParseTree.Specification Position}
    (literals : OnlyLiterals tree.faults) (alike : tree.Alike tree') :
    Agree name ((settle tree.faults tree.meaning).mapError (.unbuilt name))
      ((settle tree'.faults tree'.meaning).mapError (.unbuilt name)) := by
  have same := alike.faults_eq
  rw [alike.meaning_eq]
  cases faults : tree.faults with
  | nil =>
    rw [faults, List.map_nil, eq_comm, List.map_eq_nil_iff] at same
    rw [same]
    exact .built
  | cons fault others =>
    rw [faults, List.map_cons, eq_comm, List.map_eq_cons_iff] at same
    obtain ⟨fault', _, faults', named, -⟩ := same
    have literal := literals fault (by simp [faults])
    rw [faults']
    cases fault with
    | octets => cases literal
    | literal =>
      cases fault' with
      | octets => cases named
      | literal =>
        cases named
        exact .refused

/-- A text that parses also parses with any literals beside its enum values, well-formed or not, or
with none. Either way it is compiled to the same schema or refused for the same number, and what is
reported differs only in the size of the text. -/
theorem compile_renumbered (c : Compiler) {tree : ParseTree.Specification Text}
    {number : ParseTree.EnumValue Text → Option String}
    (found : Grammar.recognize text.toList = .found tree rest)
    (numbers : ∀ v ∈ tree.values, ∀ t ∈ number v, IsIntLiteral t) :
    (∃ target : String, Renumbered number tree.values text.toList target.toList) ∧
    ∀ target : String, Renumbered number tree.values text.toList target.toList →
      (∃ result, Grammar.parse target = .ok result) ∧
      Agree c.source (c.compile text).1.result (c.compile target).1.result ∧
      ∃ events, (c.compile text).1.events = .compiling c.source text.utf8ByteSize :: events ∧
        (c.compile target).1.events = .compiling c.source target.utf8ByteSize :: events := by
  constructor
  · obtain ⟨s', renumbered⟩ := (Grammar.recognize_written found).renumbered numbers
    exact ⟨.ofList s', by rwa [String.toList_ofList]⟩
  · intro target renumbered
    obtain ⟨ts, tree', spells, derived, same⟩ := Grammar.recognize_renews found renumbered
    obtain ⟨result', parsed', rfl⟩ := Grammar.parse_of_spells spells derived
    have parsed := Grammar.parse_ok_iff.mpr ⟨tree, rest, found, rfl⟩
    have alike : (tree.map (LineTable.ofText text.toList).positionOf).Alike result' := by
      rw [ParseTree.Specification.Alike, ParseTree.Specification.map_map]
      exact same.symm
    generalize tree.map (LineTable.ofText text.toList).positionOf = result at parsed alike
    refine ⟨⟨result', parsed'⟩, ?_, _, compile_events parsed, ?_⟩
    · rw [compile_result, compile_result, parsed, parsed']
      exact settle_agree (Grammar.parse_onlyLiterals parsed) alike
    · have faultless : result.faults.isEmpty = result'.faults.isEmpty := by
        have same := congrArg List.isEmpty alike.faults_eq
        simpa using same
      rw [compile_events parsed', alike.told_eq, alike.meaning_eq, faultless]

/-- A literal goes, another one comes that is no number, and a third is too large. -/
theorem compile_renumbered_malformed :
    let text := "scope a \x7b enum e \x7b x = 1, y, z = 2 \x7d \x7d"
    let target := "scope a \x7b enum e \x7b x , y = 0xg, z = -99999999999 \x7d \x7d"
    (∃ result, Grammar.parse target = .ok result) ∧
      Agree "<input>" (compile {} text).1.result (compile {} target).1.result ∧
      ∃ events, (compile {} text).1.events = .compiling "<input>" text.utf8ByteSize :: events ∧
        (compile {} target).1.events = .compiling "<input>" target.utf8ByteSize :: events := by
  intro text target
  let y : ParseTree.EnumValue Text := ⟨⟨"y", "y, z = 2 \x7d \x7d".toList⟩, none⟩
  let z : ParseTree.EnumValue Text :=
    ⟨⟨"z", "z = 2 \x7d \x7d".toList⟩, some ⟨"2", "2 \x7d \x7d".toList⟩⟩
  let x : ParseTree.EnumValue Text :=
    ⟨⟨"x", "x = 1, y, z = 2 \x7d \x7d".toList⟩, some ⟨"1", "1, y, z = 2 \x7d \x7d".toList⟩⟩
  let number (v : ParseTree.EnumValue Text) : Option String :=
    if v = y then some "0xg" else if v = z then some "-99999999999" else none
  have found : Grammar.recognize text.toList = .found ⟨[⟨⟨"a", text.toList.drop 6⟩,
      [.declaration (.enum ⟨⟨"e", text.toList.drop 15⟩, [x, y, z]⟩)]⟩]⟩ [] := by cbv
  have hex : IsIntLiteral "0xg" := ⟨[], '0', ['x', 'g'], rfl, .inl rfl, rfl, by simp; decide⟩
  have large : IsIntLiteral "-99999999999" :=
    ⟨['-'], '9', List.replicate 10 '9', rfl, .inr rfl, rfl, by simp; decide⟩
  have one : IsIntLiteral "1" := ⟨[], '1', [], rfl, .inl rfl, rfl, by simp⟩
  have two : IsIntLiteral "2" := ⟨[], '2', [], rfl, .inl rfl, rfl, by simp⟩
  have space : Text.Spacing [' '] := fun rest => .unit (.blank (by decide)) .none
  have numbers : ∀ v ∈ [x, y, z], ∀ t ∈ number v, IsIntLiteral t := by
    intro v _ t mem
    simp only [number] at mem
    split at mem
    · cases mem
      exact hex
    split at mem
    · cases mem
      exact large
    · cases mem
  have third : Renumbered number [z] (", ".toList ++ z.name.place) _ :=
    .value (by cbv) (.written space space two) (.written space space large) .nil
  have second : Renumbered number [y, z] (", ".toList ++ y.name.place) _ :=
    .value (by cbv) (.absent spacing_nil) (.written space space hex) third
  have first : Renumbered number [x, y, z] ("scope a \x7b enum e \x7b ".toList ++ x.name.place) _ :=
    .value (by cbv) (.written space space one) (.absent space) second
  have edited : Renumbered number [x, y, z] text.toList target.toList := by
    convert first using 1 <;> cbv
  exact (compile_renumbered {} found numbers).2 target edited

end Compiler
end SchemaLang
