/-! Schema text is scanned as a list of characters, so that the rest of the input is itself a
text and a place in the source is the suffix that starts there. Offsets count bytes of the
UTF-8 encoding. -/
namespace SchemaLang

abbrev Text := List Char

namespace Text

/-- Length of the UTF-8 encoding. -/
def byteSize : Text → Nat
  | [] => 0
  | c :: rest => c.utf8Size + byteSize rest

/-- The text from a byte offset on, if a character starts there or the text ends there. -/
def dropBytes? : Nat → Text → Option Text
  | 0, s => some s
  | _ + 1, [] => none
  | n + 1, c :: rest => if c.utf8Size ≤ n + 1 then dropBytes? (n + 1 - c.utf8Size) rest else none

/-- The text up to a byte offset, under the same condition. -/
def takeBytes? : Nat → Text → Option Text
  | 0, _ => some []
  | _ + 1, [] => none
  | n + 1, c :: rest =>
    if c.utf8Size ≤ n + 1 then (takeBytes? (n + 1 - c.utf8Size) rest).map (c :: ·) else none

@[simp] theorem byteSize_nil : byteSize [] = 0 := rfl

@[simp] theorem byteSize_cons (c : Char) (s : Text) :
    byteSize (c :: s) = c.utf8Size + byteSize s := rfl

@[simp] theorem byteSize_append (s t : Text) : byteSize (s ++ t) = byteSize s + byteSize t := by
  induction s with
  | nil => simp
  | cons c s ih => simp [ih, Nat.add_assoc]

private theorem byteSize_cons_succ (c : Char) (s : Text) :
    ∃ n, c.utf8Size + byteSize s = n + 1 ∧ c.utf8Size ≤ n + 1 := by
  have := c.utf8Size_pos
  exact ⟨c.utf8Size + byteSize s - 1, by omega, by omega⟩

theorem dropBytes?_byteSize (s t : Text) : dropBytes? (byteSize s) (s ++ t) = some t := by
  induction s with
  | nil => simp [dropBytes?]
  | cons c s ih =>
    obtain ⟨n, hn, hc⟩ := byteSize_cons_succ c s
    rw [byteSize_cons, hn, List.cons_append, dropBytes?, if_pos hc, ← hn, Nat.add_sub_cancel_left,
      ih]

theorem takeBytes?_byteSize (s t : Text) : takeBytes? (byteSize s) (s ++ t) = some s := by
  induction s with
  | nil => simp [takeBytes?]
  | cons c s ih =>
    obtain ⟨n, hn, hc⟩ := byteSize_cons_succ c s
    rw [byteSize_cons, hn, List.cons_append, takeBytes?, if_pos hc, ← hn, Nat.add_sub_cancel_left,
      ih, Option.map_some]

/-- Bytes counted over the characters are the bytes of the string. -/
theorem byteSize_ofList (s : Text) : byteSize s = (String.ofList s).utf8ByteSize := by
  induction s with
  | nil => rfl
  | cons c s ih =>
    rw [byteSize_cons, ih, show c :: s = [c] ++ s from rfl, String.ofList_append,
      String.utf8ByteSize_append, ← String.singleton_eq_ofList, String.utf8ByteSize_singleton]

end Text
end SchemaLang
