import Mathlib.Data.Nat.Digits.Lemmas
import SchemaLang.Proofs.Literal.Numeral

/-! What the digit reader computes, stated without its running value: the longest run of digits
has a positional value, and that value and the limit decide what is answered. A partial value
never exceeds the whole one, so it makes no difference that the reader stops early. -/
namespace SchemaLang.Radix

variable {r : Radix}

/-- An ASCII digit of the base with its value, in lower or upper case. -/
def IsDigit (r : Radix) (c : Char) (d : Nat) : Prop :=
  d < r.base ∧ (c = Nat.digitChar d ∨ c = (Nat.digitChar d).toUpper)

instance : Decidable (IsDigit r c d) := inferInstanceAs (Decidable (_ ∧ _))

/-- Every character is a digit, and `n` is what they are worth by position. -/
def Numeral (r : Radix) (s : Text) (n : Nat) : Prop :=
  ∃ ds, List.Forall₂ r.IsDigit s ds ∧ n = Nat.ofDigits r.base ds.reverse

/-- The longest run of digits in front of a text, its value, and what follows. -/
structure Run (r : Radix) (s digits rest : Text) (n : Nat) : Prop where
  split : s = digits ++ rest
  value : r.Numeral digits n
  longest : ∀ c ∈ rest.head?, ∀ d, ¬ r.IsDigit c d

theorem ascii_of_digit? (digit : r.digit? c = some d) : c.toNat < 128 := by
  have word := isWordChar_of_digit? digit
  simp only [isWordChar, Char.isAlphanum, Char.isAlpha, Char.isUpper, Char.isLower, Char.isDigit,
    Bool.or_eq_true, Bool.and_eq_true, decide_eq_true_eq, UInt32.le_iff_toNat_le, ge_iff_le]
    at word
  rcases word with ((⟨-, high⟩ | ⟨-, high⟩) | ⟨-, high⟩) | rfl
  · exact Nat.lt_of_le_of_lt high (by decide)
  · exact Nat.lt_of_le_of_lt high (by decide)
  · exact Nat.lt_of_le_of_lt high (by decide)
  · decide

theorem digit?_iff : r.digit? c = some d ↔ r.IsDigit c d := by
  constructor
  · intro digit
    -- The reader compares ranges of characters, so it is run on every ASCII character.
    have all : ∀ r ∈ [decimal, hexadecimal], ∀ n < 128, ∀ d ∈ r.digit? (Char.ofNat n),
        r.IsDigit (Char.ofNat n) d := by decide +kernel
    have here := all r (by cases r <;> simp) c.toNat (ascii_of_digit? digit) d
    rw [Char.ofNat_toNat] at here
    exact here digit
  · rintro ⟨small, rfl | rfl⟩
    · exact digit?_digitChar small
    · have all : ∀ r ∈ [decimal, hexadecimal], ∀ d < r.base,
          r.digit? (Nat.digitChar d).toUpper = some d := by decide
      exact all r (by cases r <;> simp) d small

theorem digit?_eq_none_iff : r.digit? c = none ↔ ∀ d, ¬ r.IsDigit c d := by
  simp only [Option.eq_none_iff_forall_ne_some, ne_eq, digit?_iff]

theorem numeral_nil_iff : r.Numeral [] n ↔ n = 0 := by
  simp [Numeral]

/-- The first digit counts as often as the digits after it have places. -/
theorem numeral_cons_iff : r.Numeral (c :: s) n ↔
    ∃ d m, r.IsDigit c d ∧ r.Numeral s m ∧ n = d * r.base ^ s.length + m := by
  constructor
  · rintro ⟨ds, digits, rfl⟩
    cases digits with
    | cons digit digits =>
      refine ⟨_, _, digit, ⟨_, digits, rfl⟩, ?_⟩
      rw [List.reverse_cons, Nat.ofDigits_append, Nat.ofDigits_singleton, List.length_reverse,
        digits.length_eq]
      ring
  · rintro ⟨d, m, digit, ⟨ds, digits, rfl⟩, rfl⟩
    refine ⟨d :: ds, .cons digit digits, ?_⟩
    rw [List.reverse_cons, Nat.ofDigits_append, Nat.ofDigits_singleton, List.length_reverse,
      digits.length_eq]
    ring

theorem Numeral.run (digits : r.Numeral s n) : r.Run s s [] n :=
  ⟨s.append_nil.symm, digits, by simp⟩

theorem exists_run (r : Radix) (s : Text) : ∃ digits rest n, r.Run s digits rest n := by
  induction s with
  | nil => exact ⟨[], [], 0, rfl, numeral_nil_iff.mpr rfl, by simp⟩
  | cons c s ih =>
    cases digit : r.digit? c with
    | none =>
      refine ⟨[], c :: s, 0, rfl, numeral_nil_iff.mpr rfl, ?_⟩
      simpa using digit?_eq_none_iff.mp digit
    | some d =>
      obtain ⟨digits, rest, n, run⟩ := ih
      have value := numeral_cons_iff.mpr ⟨d, n, digit?_iff.mp digit, run.value, rfl⟩
      exact ⟨c :: digits, rest, _, congrArg (c :: ·) run.split, value, run.longest⟩

/-- Reading on after a value answers by what the value and the run are worth together. -/
theorem readDigits_run (run : r.Run s digits rest n) (fits : v ≤ limit)
    (overflow : LiteralFault) :
    r.readDigits limit overflow v s =
      if limit < v * r.base ^ digits.length + n then .error overflow
      else if rest = [] then .ok (v * r.base ^ digits.length + n) else .error .invalidDigit := by
  obtain ⟨rfl, value, longest⟩ := run
  induction digits generalizing v n with
  | nil =>
    obtain rfl := numeral_nil_iff.mp value
    cases rest with
    | nil => simp [readDigits, Nat.not_lt.mpr fits]
    | cons c rest =>
      have none : r.digit? c = none := digit?_eq_none_iff.mpr (longest c rfl)
      simp [readDigits, none, Nat.not_lt.mpr fits]
  | cons c digits ih =>
    obtain ⟨d, m, digit, others, rfl⟩ := numeral_cons_iff.mp value
    have total : v * r.base ^ (c :: digits).length + (d * r.base ^ digits.length + m) =
        (v * r.base + d) * r.base ^ digits.length + m := by
      rw [List.length_cons, pow_succ]
      ring
    rw [List.cons_append, readDigits, digit?_iff.mpr digit, total]
    dsimp only
    -- Past the limit the reader stops here, and the digits that it does not read only add.
    split
    · next small => exact ih small others
    · next large =>
      have places : 0 < r.base ^ digits.length :=
        Nat.pow_pos (Nat.lt_of_succ_lt r.one_lt_base)
      have partly : v * r.base + d ≤ (v * r.base + d) * r.base ^ digits.length :=
        Nat.le_mul_of_pos_right _ places
      rw [if_pos (by omega)]

end SchemaLang.Radix
