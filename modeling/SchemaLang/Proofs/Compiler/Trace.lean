import SchemaLang.Proofs.Assembly.Telling
import SchemaLang.Proofs.Assembly.Trace
import SchemaLang.Proofs.Compiler.Image

/-! What is reported while a text is compiled to a schema. Between the events of the unit stand
those of its scopes, and they tell the whole schema apart from its values. -/
namespace SchemaLang.Compiler

variable {c : Compiler} {text : String} {schema : Specification}

/-- Between the events of the unit stands the story of its tree, up to the first fault. -/
theorem compile_events (parsed : Grammar.parse text = .ok tree) :
    (c.compile text).1.events = .compiling c.source text.utf8ByteSize :: (tree.story.told ++
      if tree.faults.isEmpty then [.compiled c.source tree.meaning.scopes.length] else []) := by
  have built : (c.assembler.build tree).1.result = settle tree.faults tree.meaning :=
    (Assembly.specification_runs tree).settles
  rw [← c.assembler.build_events tree]
  unfold compile
  rw [parsed]
  dsimp only
  generalize c.assembler.build tree = after at built
  obtain ⟨⟨events, result⟩, assembler⟩ := after
  obtain rfl : result = settle tree.faults tree.meaning := built
  cases tree.faults with
  | nil => rfl
  | cons => simp; rfl

theorem compile_events_of_ok (parsed : Grammar.parse text = .ok tree)
    (faultless : tree.faults = []) :
    (c.compile text).1.events =
      .compiling c.source text.utf8ByteSize :: (Assembly.specification tree []).1.events ++
        [.compiled c.source tree.meaning.scopes.length] := by
  have told : (Assembly.specification tree []).1.events = tree.story.told :=
    c.assembler.build_events tree
  rw [compile_events parsed, faultless, told]
  rfl

/-- Around the events of a unit that compiles stand its own two. Those between them let the schema
grow scope by scope, and an observer of the events alone finds every bracket closed and every
number right. The members that an event counts are all those right before it. -/
theorem compile_trace (compiled : (c.compile text).1.result = .ok schema) :
    ∃ body, (c.compile text).1.events =
        .compiling c.source text.utf8ByteSize :: body ++ [.compiled c.source schema.scopes.length] ∧
      Traces schema.scopes body ∧
      Observer.observeAll {} body = some { outermost := schema.scopes.length } ∧
      ∀ before e later count, body = before ++ e :: later → e.members? = some count →
        endingMembers before = count := by
  obtain ⟨tree, parsed, faultless, rfl⟩ := compile_ok_iff_parse.mp compiled
  have traces := Assembly.specification_trace tree faultless
  have seen := Observer.observeAll_traces traces 0
  rw [Nat.zero_add] at seen
  refine ⟨_, compile_events_of_ok parsed faultless, traces, seen, ?_⟩
  intro before e later count split takes
  rw [split] at seen
  exact Observer.endingMembers_before seen takes

/-- A union with a member in its case, and a scope inside. -/
theorem compile_trace_nested :
    let text := "scope a \x7b union u \x7b case 1: int8 x; \x7d scope b \x7b\x7d \x7d"
    ∃ (schema : Specification) (body : List Event), (compile {} text).1.events =
        .compiling "<input>" text.utf8ByteSize :: body ++ [.compiled "<input>" 1] ∧
      Traces schema.scopes body ∧ Observer.observeAll {} body = some { outermost := 1 } ∧
      ∀ before e later count, body = before ++ e :: later → e.members? = some count →
        endingMembers before = count := by
  intro text
  have compiled : (compile {} text).1.result = .ok
      ⟨[{ name := "a", depth := 0
          scopes := [{ name := "b", depth := 1 }]
          unions := [{ name := "u", cases := [⟨1, [⟨"x", .builtin .int8, none⟩]⟩] }] }]⟩ := by cbv
  obtain ⟨body, events⟩ := compile_trace compiled
  exact ⟨_, body, events⟩

end SchemaLang.Compiler
