import SchemaLang.Literal
import SchemaLang.Proofs.Grammar.TokenClass

/-! Numbers as they are written, read back: every written number is a literal of the language and
the reader for its place gives the number again. So no two numbers are written alike. -/
namespace SchemaLang

namespace Radix

variable {r : Radix}

theorem one_lt_base (r : Radix) : 1 < r.base := by
  cases r <;> decide

theorem digit?_digitChar (small : d < r.base) : r.digit? (Nat.digitChar d) = some d := by
  have all : ∀ r ∈ [decimal, hexadecimal], ∀ d < r.base, r.digit? (Nat.digitChar d) = some d := by
    decide
  exact all r (by cases r <;> simp) d small

theorem readDigits_append (limit : Nat) (overflow : LiteralFault) (value : Nat) (s t : Text) :
    r.readDigits limit overflow value (s ++ t) =
      r.readDigits limit overflow value s >>= fun v => r.readDigits limit overflow v t := by
  induction s generalizing value with
  | nil => rfl
  | cons c s ih =>
    rw [List.cons_append, readDigits, readDigits]
    cases r.digit? c with
    | none => rfl
    | some d =>
      dsimp only
      split
      · exact ih _
      · rfl

theorem readDigits_digit (small : d < r.base) (fits : v * r.base + d ≤ limit)
    (overflow : LiteralFault) :
    r.readDigits limit overflow v [Nat.digitChar d] = .ok (v * r.base + d) := by
  rw [readDigits, digit?_digitChar small]
  simp [fits, readDigits]

/-- Digits read back to their number if the limit allows it. -/
theorem readDigits_toDigits (fits : n ≤ limit) (overflow : LiteralFault) :
    r.readDigits limit overflow 0 (Nat.toDigits r.base n) = .ok n := by
  induction n using Nat.strongRecOn with
  | ind n ih =>
    have base := r.one_lt_base
    by_cases small : n < r.base
    · rw [Nat.toDigits_of_lt_base small]
      simpa using readDigits_digit (v := 0) small (by omega) overflow
    · have shorter : n / r.base < n := Nat.div_lt_self (by omega) base
      have split : n / r.base * r.base + n % r.base = n := Nat.div_add_mod' n r.base
      rw [Nat.toDigits_of_base_le base (by omega), readDigits_append, ih _ shorter (by omega)]
      have last := readDigits_digit (v := n / r.base) (Nat.mod_lt n (by omega : 0 < r.base))
        (split ▸ fits) overflow
      rw [split] at last
      exact last

theorem write_toList (r : Radix) (n : Nat) : (r.write n).toList = Nat.toDigits r.base n := by
  simp [write]

theorem write_injective (same : r.write n = r.write m) : n = m := by
  have digits : Nat.toDigits r.base n = Nat.toDigits r.base m := by
    rw [← write_toList, same, write_toList]
  have left := readDigits_toDigits (r := r) (Nat.le_max_left n m) .tooLarge
  rw [digits, readDigits_toDigits (Nat.le_max_right n m)] at left
  exact (Except.ok.inj left).symm

theorem digit_of_readDigits (read : r.readDigits limit overflow v s = .ok n) :
    ∀ c ∈ s, ∃ d, r.digit? c = some d := by
  induction s generalizing v with
  | nil => simp
  | cons c s ih =>
    rw [readDigits] at read
    cases digit : r.digit? c with
    | none => simp [digit] at read
    | some d =>
      simp only [digit] at read
      split at read
      · exact List.forall_mem_cons.mpr ⟨⟨d, digit⟩, ih read⟩
      · cases read

theorem readDigits_le (read : r.readDigits limit overflow v s = .ok n) (fits : v ≤ limit) :
    n ≤ limit := by
  induction s generalizing v with
  | nil =>
    cases read
    exact fits
  | cons c s ih =>
    rw [readDigits] at read
    cases digit : r.digit? c with
    | none => simp [digit] at read
    | some d =>
      simp only [digit] at read
      split at read
      · exact ih read ‹_›
      · cases read

theorem digit_of_mem_write (mem : c ∈ (r.write n).toList) : ∃ d, r.digit? c = some d := by
  rw [write_toList] at mem
  exact digit_of_readDigits (readDigits_toDigits (Nat.le_refl n) .tooLarge) c mem

theorem write_ne_nil (r : Radix) (n : Nat) : (r.write n).toList ≠ [] := by
  rw [write_toList]
  exact Nat.toDigits_ne_nil

theorem digit?_decimal : (∃ d, decimal.digit? c = some d) ↔ c.isDigit = true := by
  unfold digit?
  split <;> simp [*]

/-- A hexadecimal letter is one of the alphabet. -/
theorem isAlpha_of_range (range : 'a' ≤ c ∧ c ≤ 'f' ∨ 'A' ≤ c ∧ c ≤ 'F') : c.isAlpha = true := by
  simp only [Char.le_def, UInt32.le_iff_toNat_le] at range
  simp only [Char.isAlpha, Char.isUpper, Char.isLower, Bool.or_eq_true, Bool.and_eq_true,
    decide_eq_true_eq, GE.ge, UInt32.le_iff_toNat_le]
  rcases range with ⟨low, high⟩ | ⟨low, high⟩
  · right
    simp at low high ⊢
    omega
  · left
    simp at low high ⊢
    omega

theorem isWordChar_of_digit? (digit : r.digit? c = some d) : isWordChar c = true := by
  unfold digit? at digit
  by_cases decimal : c.isDigit = true
  · exact isWordChar_of_digit decimal
  · simp only [decimal] at digit
    cases r with
    | decimal => cases digit
    | hexadecimal =>
      have range : 'a' ≤ c ∧ c ≤ 'f' ∨ 'A' ≤ c ∧ c ≤ 'F' := by
        by_cases lower : 'a' ≤ c ∧ c ≤ 'f'
        · exact .inl lower
        · by_cases upper : 'A' ≤ c ∧ c ≤ 'F'
          · exact .inr upper
          · simp [lower, upper] at digit
      simp [isWordChar, Char.isAlphanum, isAlpha_of_range range]

end Radix

namespace Literal

open Radix

variable {r : Radix}

/-- Digits have no sign in front. -/
theorem isSigned_write (r : Radix) (n : Nat) : isSigned (r.write n).toList = false := by
  cases same : (r.write n).toList with
  | nil => rfl
  | cons c run =>
    obtain ⟨d, digit⟩ := digit_of_mem_write (same ▸ List.mem_cons_self)
    have plus : c ≠ '+' := by
      rintro rfl
      revert digit
      cases r <;> simp [digit?]
    have minus : c ≠ '-' := by
      rintro rfl
      revert digit
      cases r <;> simp [digit?]
    simp [isSigned, plus, minus]

theorem readSigned_of_unsigned (unsigned : isSigned s = false) (nonempty : s ≠ []) :
    readSigned r s = (r.readDigits maxInt32 .tooLarge 0 s).map fun n : Nat => Int32.ofInt n := by
  unfold readSigned
  split
  · contradiction
  · simp [isSigned] at unsigned
  · simp [isSigned] at unsigned
  · cases r.readDigits maxInt32 .tooLarge 0 s <;> rfl

theorem readSigned_write (fits : n ≤ maxInt32) :
    readSigned r (r.write n).toList = .ok (Int32.ofInt n) := by
  rw [readSigned_of_unsigned (isSigned_write r n) (write_ne_nil r n), write_toList,
    readDigits_toDigits fits]
  rfl

theorem readSigned_minus_write (fits : n ≤ maxInt32 + 1) :
    readSigned r ('-' :: (r.write n).toList) = .ok (Int32.ofInt (-n)) := by
  have read : r.readAfterSign (maxInt32 + 1) .tooSmall (r.write n).toList = .ok n := by
    rw [readAfterSign, write_toList, readDigits_toDigits fits]
    exact write_ne_nil r n
  rw [readSigned, read]
  rfl

/-- A decimal number does not start like a hexadecimal one. -/
theorem not_hexMark (n : Nat) : hexMark.toList.isPrefixOf? (decimal.write n).toList = none := by
  cases found : hexMark.toList.isPrefixOf? (decimal.write n).toList with
  | none => rfl
  | some rest =>
    have mem : 'x' ∈ (decimal.write n).toList := by
      rw [Scan.prefixed_iff.mp found]
      simp [hexMark]
    exact absurd (digit?_decimal.mp (digit_of_mem_write mem)) (by decide)

theorem readSize_write {n : UInt32} (positive : 1 ≤ n.toNat) :
    readSize (decimal.write n.toNat).toList = .ok n := by
  have fits : n.toNat ≤ maxUInt32 := by
    have := n.toNat_lt
    simp only [maxUInt32]
    omega
  have read : decimal.readDigits maxUInt32 .tooLarge 0 (decimal.write n.toNat).toList =
      .ok n.toNat := by
    rw [write_toList]
    exact readDigits_toDigits fits _
  have nonempty : (decimal.write n.toNat).toList.isEmpty = false := by
    simpa using write_ne_nil decimal n.toNat
  have nonzero : n.toNat ≠ 0 := by omega
  rw [readSize, isSigned_write, nonempty, read]
  simp [nonzero, bind, Except.bind, pure, Except.pure]

theorem one_le_of_readSize (read : readSize s = .ok n) : 1 ≤ n.toNat := by
  simp only [readSize] at read
  split at read
  · cases read
  · split at read
    · cases read
    · cases digits : decimal.readDigits maxUInt32 .tooLarge 0 s with
      | error fault => simp [digits, bind, Except.bind] at read
      | ok m =>
        simp only [digits, bind, Except.bind] at read
        split at read
        · cases read
        · obtain rfl : UInt32.ofNat m = n := Except.ok.inj read
          have fits : m ≤ maxUInt32 := readDigits_le digits (Nat.zero_le _)
          simp only [maxUInt32] at fits
          rw [UInt32.toNat_ofNat_of_lt' (by simp only [UInt32.size]; omega)]
          omega

theorem ofInt_natAbs {v : Int32} (natural : ¬ v < 0) :
    v.toInt.natAbs ≤ maxInt32 ∧ Int32.ofInt v.toInt.natAbs = v := by
  have high := v.toInt_lt
  have natural : 0 ≤ v.toInt := by simpa [Int32.lt_iff_toInt_lt] using natural
  have same : (v.toInt.natAbs : Int) = v.toInt := Int.natAbs_of_nonneg natural
  constructor
  · simp only [maxInt32]
    omega
  · rw [same, Int32.ofInt_toInt]

theorem ofInt_neg_natAbs {v : Int32} (negative : v < 0) :
    v.toInt.natAbs ≤ maxInt32 + 1 ∧ Int32.ofInt (-v.toInt.natAbs) = v := by
  have low := v.le_toInt
  have negative : v.toInt < 0 := by simpa [Int32.lt_iff_toInt_lt] using negative
  have same : -(v.toInt.natAbs : Int) = v.toInt := by omega
  constructor
  · simp only [maxInt32]
    omega
  · rw [same, Int32.ofInt_toInt]

theorem readInt_writeDecimal (v : Int32) : readInt (writeDecimal v).toList = .ok v := by
  by_cases negative : v < 0
  · obtain ⟨fits, same⟩ := ofInt_neg_natAbs negative
    have written : (writeDecimal v).toList = '-' :: (decimal.write v.toInt.natAbs).toList := by
      rw [writeDecimal, if_pos negative, String.toList_append]
      rfl
    have unmarked : hexMark.toList.isPrefixOf? (writeDecimal v).toList = none := by
      rw [written]
      rfl
    rw [readInt, unmarked, written]
    exact (readSigned_minus_write fits).trans (congrArg Except.ok same)
  · obtain ⟨fits, same⟩ := ofInt_natAbs negative
    rw [writeDecimal, if_neg negative, readInt, not_hexMark]
    exact (readSigned_write fits).trans (congrArg Except.ok same)

theorem readInt_writeHex (v : Int32) : readInt (writeHex v).toList = .ok v := by
  by_cases negative : v < 0
  · rw [writeHex, if_pos negative, readInt_writeDecimal]
  · obtain ⟨fits, same⟩ := ofInt_natAbs negative
    have marked : hexMark.toList.isPrefixOf? (writeHex v).toList =
        some (hexadecimal.write v.toInt.natAbs).toList := by
      rw [Scan.prefixed_iff, writeHex, if_neg negative, String.toList_append]
    rw [readInt, marked]
    simp only [isSigned_write, Bool.false_eq_true, if_false]
    exact (readSigned_write fits).trans (congrArg Except.ok same)

theorem writeDecimal_injective (same : writeDecimal v = writeDecimal w) : v = w :=
  Except.ok.inj (readInt_writeDecimal v ▸ same ▸ readInt_writeDecimal w)

theorem writeHex_injective (same : writeHex v = writeHex w) : v = w :=
  Except.ok.inj (readInt_writeHex v ▸ same ▸ readInt_writeHex w)

theorem isIntLiteral_of_write (number : t.toList = sign ++ (decimal.write n).toList)
    (optional : sign = [] ∨ sign = ['-']) : IsIntLiteral t := by
  cases same : (decimal.write n).toList with
  | nil => exact absurd same (write_ne_nil decimal n)
  | cons c run =>
    have digits : ∀ d ∈ c :: run, d.isDigit = true := fun d mem =>
      digit?_decimal.mp (digit_of_mem_write (same ▸ mem))
    obtain ⟨first, others⟩ := List.forall_mem_cons.mp digits
    exact ⟨sign, c, run, same ▸ number, optional, first,
      fun d mem => isWordChar_of_digit (others d mem)⟩

theorem isIntLiteral_write (n : Nat) : IsIntLiteral (decimal.write n) :=
  isIntLiteral_of_write (List.nil_append _).symm (.inl rfl)

theorem isIntLiteral_writeDecimal (v : Int32) : IsIntLiteral (writeDecimal v) := by
  by_cases negative : v < 0
  · have number : (writeDecimal v).toList = ['-'] ++ (decimal.write v.toInt.natAbs).toList := by
      rw [writeDecimal, if_pos negative, String.toList_append]
      rfl
    exact isIntLiteral_of_write number (.inr rfl)
  · rw [writeDecimal, if_neg negative]
    exact isIntLiteral_write _

theorem isIntLiteral_writeHex (v : Int32) : IsIntLiteral (writeHex v) := by
  by_cases negative : v < 0
  · rw [writeHex, if_pos negative]
    exact isIntLiteral_writeDecimal v
  · have number : (writeHex v).toList =
        [] ++ '0' :: 'x' :: (hexadecimal.write v.toInt.natAbs).toList := by
      rw [writeHex, if_neg negative, String.toList_append]
      rfl
    refine ⟨[], '0', _, number, .inl rfl, by decide, List.forall_mem_cons.mpr ⟨by decide, ?_⟩⟩
    intro c mem
    obtain ⟨_, digit⟩ := digit_of_mem_write mem
    exact isWordChar_of_digit? digit

end Literal

end SchemaLang
