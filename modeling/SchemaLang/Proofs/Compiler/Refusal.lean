import SchemaLang.Proofs.Compiler.Image
import SchemaLang.Proofs.Grammar.Placement
import SchemaLang.Proofs.ParseTree.Numeral

/-! Why a schema is refused that parses. The grammar leaves no doubt about the size of octets, so
that only numbers can be wrong, and the one reported is the first in the text. -/
namespace SchemaLang

/-- All that is wrong is wrong with a number. -/
def OnlyLiterals (faults : List (Fault π)) : Prop := ∀ fault ∈ faults, fault.isLiteral = true

theorem OnlyLiterals.append {fs gs : List (Fault π)} (first : OnlyLiterals fs)
    (later : OnlyLiterals gs) : OnlyLiterals (fs ++ gs) :=
  List.forall_mem_append.mpr ⟨first, later⟩

theorem OnlyLiterals.flatMap {faults : α → List (Fault π)} {as : List α}
    (each : ∀ a ∈ as, OnlyLiterals (faults a)) : OnlyLiterals (as.flatMap faults) := by
  intro fault mem
  obtain ⟨a, inside, mem⟩ := List.mem_flatMap.mp mem
  exact each a inside fault mem

theorem Token.faults_onlyLiterals (read : Text → Except LiteralFault α) (t : Token π) :
    OnlyLiterals (t.faults read) :=
  List.filter_eq_self.mp (t.filter_faults read)

namespace Phrase

theorem typeSpec_onlyLiterals (derived : TypeSpec ts t) : OnlyLiterals t.faults := by
  cases derived with
  | @primitive kind other =>
    unfold ParseTree.TypeSpec.faults
    split <;> simp_all [OnlyLiterals]
  | fixed => exact Token.faults_onlyLiterals _ _
  | sized | named => simp [OnlyLiterals, ParseTree.TypeSpec.faults]

theorem members_onlyLiterals (derived : Many Member ts members) :
    OnlyLiterals (members.flatMap (·.type.faults)) := by
  refine .flatMap fun m mem => ?_
  obtain ⟨_, ⟨typed, _⟩⟩ := derived.each m mem
  exact typeSpec_onlyLiterals typed

theorem case_onlyLiterals (derived : Case ts c) : OnlyLiterals c.faults := by
  obtain ⟨_, members⟩ := derived
  exact (Token.faults_onlyLiterals _ _).append (members_onlyLiterals members)

theorem declaration_onlyLiterals (derived : Declaration ts d) : OnlyLiterals d.faults := by
  cases derived with
  | enum => simp [OnlyLiterals, ParseTree.Declaration.faults]
  | struct derived =>
    obtain ⟨_, _, _, members⟩ := derived
    exact (OnlyLiterals.flatMap fun t _ => t.faults_onlyLiterals _).append
      (members_onlyLiterals members)
  | union derived =>
    obtain ⟨_, _, cases⟩ := derived
    refine .flatMap fun c mem => ?_
    obtain ⟨_, case⟩ := cases.each c mem
    exact case_onlyLiterals case

mutual
theorem item_onlyLiterals (i : ParseTree.Item Unit) (derived : Phrase.Item ts i) :
    OnlyLiterals i.faults := by
  cases i with
  | declaration d =>
    cases derived with | declaration declared => exact declaration_onlyLiterals declared
  | scope name items =>
    cases derived with | scope _ inner => exact allItems_onlyLiterals items inner.each
theorem allItems_onlyLiterals (items : List (ParseTree.Item Unit))
    (derived : ∀ i ∈ items, ∃ ts, Phrase.Item ts i) :
    OnlyLiterals (ParseTree.Item.allFaults items) := by
  cases items with
  | nil => simp [OnlyLiterals, ParseTree.Item.allFaults]
  | cons i is =>
    obtain ⟨⟨_, first⟩, others⟩ := List.forall_mem_cons.mp derived
    exact (item_onlyLiterals i first).append (allItems_onlyLiterals is others)
end

theorem scope_onlyLiterals (derived : Scope ts s) :
    OnlyLiterals (ParseTree.Item.allFaults s.items) := by
  obtain ⟨_, inner⟩ := derived
  exact allItems_onlyLiterals _ inner.each

theorem specification_onlyLiterals (derived : Specification ts tree) :
    OnlyLiterals tree.faults := by
  obtain ⟨first, others⟩ := derived
  refine .flatMap (List.forall_mem_cons.mpr ⟨scope_onlyLiterals first, fun s mem => ?_⟩)
  obtain ⟨_, other⟩ := others.each s mem
  exact scope_onlyLiterals other

end Phrase

variable {text : String} {tree : ParseTree.Specification Position}

theorem Fault.isLiteral_map (f : π → ρ) (fault : Fault π) :
    (fault.map f).isLiteral = fault.isLiteral := by
  cases fault <;> rfl

theorem Grammar.parse_onlyLiterals (parsed : parse text = .ok tree) :
    OnlyLiterals tree.faults := by
  obtain ⟨_, _, derived⟩ := parse_spells parsed
  intro fault mem
  rw [← fault.isLiteral_map bare]
  apply Phrase.specification_onlyLiterals derived
  rw [tree.faults_map]
  exact List.mem_map_of_mem mem

/-- In a parsed text only the numbers that are read can be wrong. -/
theorem Grammar.parse_faults (parsed : parse text = .ok tree) :
    tree.faults = tree.numerals.flatMap Numeral.faults :=
  (List.filter_eq_self.mpr (parse_onlyLiterals parsed)).symm.trans tree.numerals_cover

theorem Grammar.parse_numerals (parsed : parse text = .ok tree) :
    (∀ n ∈ tree.numerals, n.token.StandsIn text.toList) ∧
      tree.numerals.Pairwise fun n m => n.token.place < m.token.place := by
  have within := tree.numerals_within
  refine ⟨fun n mem => parse_standsIn parsed ?_, ?_⟩
  · exact within.subset (List.mem_map_of_mem mem)
  · have increasing := (parse_increasing parsed).sublist within
    rwa [List.pairwise_map] at increasing

/-- Of the numbers that are refused the one that stands first in the text. -/
def Numeral.FirstRefused (numerals : List (Numeral Position)) (n : Numeral Position) : Prop :=
  n ∈ numerals ∧ n.error? ≠ none ∧
    ∀ m ∈ numerals, m.error? ≠ none → m = n ∨ n.token.place < m.token.place

/-- Of numbers that follow each other the first one that is refused settles them all. -/
theorem settle_numerals {numerals : List (Numeral Position)}
    (increasing : numerals.Pairwise fun n m => n.token.place < m.token.place)
    (wrong : ∃ n ∈ numerals, n.error? ≠ none) (value : α) :
    ∃ (n : Numeral Position) (fault : LiteralFault), n.FirstRefused numerals ∧
      n.error? = some (.malformedLiteral n.token.text fault none) ∧
      settle (numerals.flatMap Numeral.faults) value =
        .error (.malformedLiteral n.token.text fault (some n.token.place)) := by
  obtain ⟨n, first⟩ : ∃ n, numerals.find? (·.error?.isSome) = some n := by
    rw [← Option.isSome_iff_exists, List.find?_isSome]
    obtain ⟨n, mem, refused⟩ := wrong
    exact ⟨n, mem, Option.isSome_iff_ne_none.mpr refused⟩
  obtain ⟨refused, before, behind, rfl, accepted⟩ := List.find?_eq_some_iff_append.mp first
  replace refused := Option.isSome_iff_ne_none.mp refused
  obtain ⟨fault, error, faults⟩ := n.faults_of_error? refused
  have faultless : before.flatMap Numeral.faults = [] := by
    refine List.flatMap_eq_nil_iff.mpr fun m mem => Numeral.error?_eq_none_iff.mp ?_
    simpa using accepted m mem
  refine ⟨n, fault, ⟨by simp, refused, fun m mem wrong => ?_⟩, error, ?_⟩
  · rcases List.mem_append.mp mem with mem | mem
    · exact absurd (by simpa using accepted m mem) wrong
    · rcases List.mem_cons.mp mem with rfl | mem
      · exact .inl rfl
      · have sorted := (List.pairwise_append.mp increasing).2.1
        exact .inr ((List.pairwise_cons.mp sorted).1 m mem)
  · rw [List.flatMap_append, List.flatMap_cons, faultless, faults]
    rfl

namespace Compiler

/-- A text that parses is compiled exactly if its type ids, discriminants and sizes are read as
numbers. Otherwise the error names the one that stands first in the text among those that are not,
as it is written there and with what its reader has against it. No other error of assembly
arises, and every error has a place. -/
theorem compile_refuses_first (c : Compiler) (text : String) :
    (∀ tree, Grammar.parse text = .ok tree →
      ((∃ s, (c.compile text).1.result = .ok s) ↔ ∀ n ∈ tree.numerals, n.error? = none) ∧
      ((∃ n ∈ tree.numerals, n.error? ≠ none) →
        ∃ (n : Numeral Position) (fault : LiteralFault), n.FirstRefused tree.numerals ∧
        n.error? = some (.malformedLiteral n.token.text fault none) ∧
        n.token.StandsIn text.toList ∧
        (c.compile text).1.result = .error (.unbuilt c.source
          (.malformedLiteral n.token.text fault (some n.token.place))))) ∧
    ∀ e, (c.compile text).1.result = .error e → e.position?.isSome ∧
      ∀ source b, e = .unbuilt source b →
        ∃ literal fault place, b = .malformedLiteral literal fault (some place) := by
  rw [compile_result]
  cases parsed : Grammar.parse text with
  | error e =>
    refine ⟨by simp, fun e' same => ?_⟩
    obtain rfl := Except.error.inj same
    exact ⟨rfl, by simp⟩
  | ok tree =>
    obtain ⟨stands, increasing⟩ := Grammar.parse_numerals parsed
    have faults := Grammar.parse_faults parsed
    simp only [faults]
    by_cases wrong : ∃ n ∈ tree.numerals, n.error? ≠ none
    · obtain ⟨n, fault, first, error, settled⟩ := settle_numerals increasing wrong tree.meaning
      rw [settled]
      refine ⟨fun _ same => ?_, fun e same => ?_⟩
      · obtain rfl := Except.ok.inj same
        refine ⟨by simpa [Except.mapError] using wrong, fun _ => ?_⟩
        exact ⟨n, fault, first, error, stands n first.1, rfl⟩
      · obtain rfl := Except.error.inj same
        refine ⟨rfl, fun source b same => ?_⟩
        obtain ⟨-, rfl⟩ := CompileError.unbuilt.inj same
        exact ⟨_, _, _, rfl⟩
    · have accepted : ∀ n ∈ tree.numerals, n.error? = none := by simpa using wrong
      have faultless : tree.numerals.flatMap Numeral.faults = [] :=
        List.flatMap_eq_nil_iff.mpr fun n mem => Numeral.error?_eq_none_iff.mp (accepted n mem)
      rw [faultless]
      refine ⟨fun _ same => ?_, by simp [settle, Except.mapError]⟩
      obtain rfl := Except.ok.inj same
      exact ⟨⟨fun _ => accepted, fun _ => ⟨_, rfl⟩⟩, fun refused => absurd refused wrong⟩

/-- A type id and a size are wrong, and the type id stands first. -/
theorem compile_refuses_first_typeId :
    let text := "scope a \x7b\n struct s [12ab] \x7b octets[0] x; \x7d\n\x7d"
    let numerals : List (Numeral Position) :=
      [⟨.integer, ⟨"12ab", ⟨2, 12⟩⟩⟩, ⟨.size, ⟨"0", ⟨2, 27⟩⟩⟩]
    ∃ (n : Numeral Position) (fault : LiteralFault), n.FirstRefused numerals ∧
      n.error? = some (.malformedLiteral n.token.text fault none) ∧
      n.token.StandsIn text.toList ∧
      (compile {} text).1.result = .error (.unbuilt "<input>"
        (.malformedLiteral n.token.text fault (some n.token.place))) := by
  intro text numerals
  have parsed : Grammar.parse text = .ok ⟨[⟨⟨"a", ⟨1, 7⟩⟩,
      [.declaration (.struct ⟨⟨"s", ⟨2, 9⟩⟩, some ⟨"12ab", ⟨2, 12⟩⟩, none,
        [⟨.octets ⟨"octets", ⟨2, 20⟩⟩ (some ⟨"0", ⟨2, 27⟩⟩) none, ⟨"x", ⟨2, 30⟩⟩⟩]⟩)]⟩]⟩ := by cbv
  exact ((compile_refuses_first {} text).1 _ parsed).2 ⟨_, .head _, by decide⟩

end Compiler
end SchemaLang
