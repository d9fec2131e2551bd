import SchemaLang.Proofs.Compiler.Image
import SchemaLang.Proofs.Grammar.Concatenation
import SchemaLang.Schema.Outline

/-! Schema texts one below the other. Each is compiled and rendered as it is by itself. -/
namespace SchemaLang

theorem Outline.allScopes_append (level : Nat) (ss ts : List Scope) :
    allScopes level (ss ++ ts) = allScopes level ss ++ allScopes level ts := by
  induction ss with
  | nil => rfl
  | cons s ss ih => rw [List.cons_append, allScopes, allScopes, ih, List.append_assoc]

theorem Specification.render_append (s t : Specification) :
    (⟨s.scopes ++ t.scopes⟩ : Specification).render = s.render ++ t.render := by
  simp [render, lines, Outline.allScopes_append]

namespace ParseTree

variable (s t : Specification π)

theorem Specification.faults_append :
    (⟨s.scopes ++ t.scopes⟩ : Specification π).faults = s.faults ++ t.faults :=
  List.flatMap_append

theorem Specification.meaning_append :
    (⟨s.scopes ++ t.scopes⟩ : Specification π).meaning =
      ⟨s.meaning.scopes ++ t.meaning.scopes⟩ :=
  congrArg SchemaLang.Specification.mk List.map_append

end ParseTree

namespace Compiler

variable {left right : String} {tree tree' : ParseTree.Specification Position}

/-- Texts that parse also parse one below the other: the scopes of the upper one stay as they are,
and those of the lower one move down by the lines above them. If both compile, so does what they
are together, to the scopes of both, and it is rendered as one after the other. -/
theorem compile_below (parsed : Grammar.parse left = .ok tree)
    (parsed' : Grammar.parse right = .ok tree') :
    Grammar.parse (left ++ "\n" ++ right) = .ok
        ⟨tree.scopes ++ (tree'.map (.down (left.toList.count '\n' + 1))).scopes⟩ ∧
      ∀ (c c' d : Compiler) (s s' : Specification), (c.compile left).1.result = .ok s →
        (c'.compile right).1.result = .ok s' →
          (d.compile (left ++ "\n" ++ right)).1.result = .ok ⟨s.scopes ++ s'.scopes⟩ ∧
            (⟨s.scopes ++ s'.scopes⟩ : Specification).render = s.render ++ s'.render := by
  have joined := Grammar.parse_below parsed parsed'
  refine ⟨joined, fun c c' d s s' compiled compiled' => ⟨?_, s.render_append s'⟩⟩
  obtain ⟨_, same, faultless, rfl⟩ := compile_ok_iff_parse.mp compiled
  obtain rfl := Except.ok.inj (parsed.symm.trans same)
  obtain ⟨_, same', faultless', rfl⟩ := compile_ok_iff_parse.mp compiled'
  obtain rfl := Except.ok.inj (parsed'.symm.trans same')
  refine compile_ok_iff_parse.mpr ⟨_, joined, ?_, ?_⟩
  · rw [tree.faults_append, tree'.faults_map, faultless, faultless']
    rfl
  · rw [tree.meaning_append, tree'.meaning_map]

/-- The upper text leaves a comment open, and the lower one begins with another. -/
theorem compile_below_comment :
    let left := "scope a \x7b\n\x7d // open"
    let right := "/* */ scope b \x7b enum e \x7b x \x7d; \x7d"
    Grammar.parse (left ++ "\n" ++ right) = .ok ⟨[⟨⟨"a", ⟨1, 7⟩⟩, []⟩, ⟨⟨"b", ⟨3, 13⟩⟩,
        [.declaration (.enum ⟨⟨"e", ⟨3, 22⟩⟩, [⟨⟨"x", ⟨3, 26⟩⟩, none⟩]⟩)]⟩]⟩ ∧
      (compile {} (left ++ "\n" ++ right)).1.result =
        .ok ⟨[⟨"a", 0, [], [], [], []⟩, ⟨"b", 0, [], [⟨"e", [⟨"x", 0⟩]⟩], [], []⟩]⟩ := by
  intro left right
  have parsed : Grammar.parse left = .ok ⟨[⟨⟨"a", ⟨1, 7⟩⟩, []⟩]⟩ := by cbv
  have parsed' : Grammar.parse right = .ok ⟨[⟨⟨"b", ⟨1, 13⟩⟩,
      [.declaration (.enum ⟨⟨"e", ⟨1, 22⟩⟩, [⟨⟨"x", ⟨1, 26⟩⟩, none⟩]⟩)]⟩]⟩ := by cbv
  have compiled : (compile {} left).1.result = .ok ⟨[⟨"a", 0, [], [], [], []⟩]⟩ :=
    compile_ok_iff_parse.mpr ⟨_, parsed, rfl, rfl⟩
  have compiled' : (compile {} right).1.result =
      .ok ⟨[⟨"b", 0, [], [⟨"e", [⟨"x", 0⟩]⟩], [], []⟩]⟩ :=
    compile_ok_iff_parse.mpr ⟨_, parsed', rfl, rfl⟩
  have lines : left.toList.count '\n' = 1 := by cbv
  obtain ⟨joined, compiles⟩ := compile_below parsed parsed'
  rw [lines] at joined
  exact ⟨joined, (compiles {} {} {} _ _ compiled compiled').1⟩

end Compiler
end SchemaLang
