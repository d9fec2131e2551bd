import SchemaLang.Schema.Outline

/-! An outline as text. Lines that hold no line feed and do not start with a space are read back
from it: a line feed ends a line, and the spaces before its text are its level. -/
namespace SchemaLang

/-- A list is cut in one way only into elements of a class and a rest that starts with none. -/
theorem cut_unique {p : α → Bool} {as as' bs bs' : List α} (inside : ∀ a ∈ as, p a = true)
    (inside' : ∀ a ∈ as', p a = true) (outside : ∀ b ∈ bs.head?, p b = false)
    (outside' : ∀ b ∈ bs'.head?, p b = false) (same : as ++ bs = as' ++ bs') :
    as = as' ∧ bs = bs' := by
  induction as generalizing as' with
  | nil =>
    cases as' with
    | nil => exact ⟨rfl, same⟩
    | cons a as' =>
      obtain rfl : bs = _ := same
      have := inside' a List.mem_cons_self
      simp [outside a rfl] at this
  | cons a as ih =>
    cases as' with
    | nil =>
      obtain rfl : _ = bs' := same
      have := inside a List.mem_cons_self
      simp [outside' a rfl] at this
    | cons a' as' =>
      obtain ⟨rfl, later⟩ := List.cons.inj same
      obtain ⟨rfl, rest⟩ :=
        ih (List.forall_mem_cons.mp inside).2 (List.forall_mem_cons.mp inside').2 later
      exact ⟨rfl, rest⟩

namespace Line

/-- A text that can be told from its indentation and from the lines around it. -/
structure Plain (text : String) : Prop where
  single : ∀ c ∈ text.toList, c ≠ '\n'
  solid : ∀ c ∈ text.toList.head?, c ≠ ' '

/-- The characters of a line before its end. -/
def body (l : Line) : Text := List.replicate (indentWidth * l.level) ' ' ++ l.text.toList

theorem render_toList (l : Line) : l.render.toList = l.body ++ ['\n'] := by
  simp [render, body]

theorem single_body {l : Line} (plain : Plain l.text) : ∀ c ∈ l.body, (c != '\n') = true := by
  intro c mem
  rcases List.mem_append.mp mem with space | mem
  · obtain rfl := (List.mem_replicate.mp space).2
    decide
  · simpa using plain.single c mem

theorem space_of_mem_indentation : ∀ c ∈ List.replicate n ' ', (c == ' ') = true := by
  intro c mem
  simp [(List.mem_replicate.mp mem).2]

theorem body_injective {l m : Line} (plain : Plain l.text) (plain' : Plain m.text)
    (same : l.body = m.body) : l = m := by
  obtain ⟨indentation, text⟩ := cut_unique space_of_mem_indentation space_of_mem_indentation
    (by simpa using plain.solid) (by simpa using plain'.solid) same
  have width := congrArg List.length indentation
  simp only [List.length_replicate, indentWidth] at width
  cases l
  cases m
  obtain rfl := String.toList_injective text
  obtain rfl := Nat.eq_of_mul_eq_mul_left (by decide) width
  rfl

theorem render_cons_toList (l : Line) (ls : List Line) :
    (String.join ((l :: ls).map render)).toList =
      l.body ++ '\n' :: (String.join (ls.map render)).toList := by
  rw [List.map_cons, String.join_cons, String.toList_append, render_toList, List.append_assoc]
  rfl

theorem join_render_injective {ls ms : List Line} (plain : ∀ l ∈ ls, Plain l.text)
    (plain' : ∀ m ∈ ms, Plain m.text)
    (same : String.join (ls.map render) = String.join (ms.map render)) : ls = ms := by
  replace same := congrArg String.toList same
  induction ls generalizing ms with
  | nil =>
    cases ms with
    | nil => rfl
    | cons m ms =>
      rw [render_cons_toList] at same
      simp at same
  | cons l ls ih =>
    cases ms with
    | nil =>
      rw [render_cons_toList] at same
      simp at same
    | cons m ms =>
      obtain ⟨plainFirst, plain⟩ := List.forall_mem_cons.mp plain
      obtain ⟨plainFirst', plain'⟩ := List.forall_mem_cons.mp plain'
      rw [render_cons_toList, render_cons_toList] at same
      obtain ⟨first, later⟩ := cut_unique (single_body plainFirst) (single_body plainFirst')
        (by simp) (by simp) same
      have line := body_injective plainFirst plainFirst' first
      have lines := ih plain plain' (List.cons.inj later).2
      rw [line, lines]

end Line
end SchemaLang
