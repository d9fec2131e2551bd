import SchemaLang.BuildError
import SchemaLang.Proofs.Literal.Digits

/-! Which texts are numbers, and why each other text is refused. A sign and a mark come first, then
the longest run of digits: a run that is out of range is refused for that even if something else
follows it. -/
namespace SchemaLang

theorem LiteralFault.reason_injective {f g : LiteralFault} (same : f.reason = g.reason) :
    f = g := by
  revert same
  cases f <;> cases g <;> decide

namespace Radix

variable {r : Radix}

/-- Why digits are refused that may be worth at most `limit`. -/
inductive Refused (r : Radix) (limit : Nat) (overflow : String) (s : Text) (reason : String) :
    Prop where
  | outside (run : r.Run s digits rest n) (large : limit < n) (said : reason = overflow)
  | stray (run : r.Run s digits rest n) (fits : n ≤ limit) (stray : digits = [] ∨ rest ≠ [])
    (said : reason = "invalid digit found in string")

theorem readAfterSign_run (run : r.Run s digits rest n) (limit : Nat) (overflow : LiteralFault) :
    r.readAfterSign limit overflow s =
      if limit < n then .error overflow
      else if digits ≠ [] ∧ rest = [] then .ok n else .error .invalidDigit := by
  cases s with
  | nil =>
    obtain ⟨rfl, rfl⟩ := List.append_eq_nil_iff.mp run.split.symm
    obtain rfl := numeral_nil_iff.mp run.value
    simp [readAfterSign]
  | cons c s =>
    have nonempty : rest = [] → digits ≠ [] := by
      rintro rfl rfl
      cases run.split
    rw [readAfterSign, readDigits_run run (Nat.zero_le _)]
    · simp only [Nat.zero_mul, Nat.zero_add]
      by_cases last : rest = [] <;> simp [last, nonempty]
    · simp

theorem readAfterSign_ok_iff :
    r.readAfterSign limit overflow s = .ok n ↔ s ≠ [] ∧ r.Numeral s n ∧ n ≤ limit := by
  constructor
  · intro read
    obtain ⟨digits, rest, m, run⟩ := r.exists_run s
    rw [readAfterSign_run run] at read
    split at read
    · cases read
    · split at read
      · next small whole =>
        obtain rfl := Except.ok.inj read
        obtain ⟨nonempty, rfl⟩ := whole
        obtain rfl : s = digits := by simpa using run.split
        exact ⟨nonempty, run.value, Nat.not_lt.mp small⟩
      · cases read
  · rintro ⟨nonempty, digits, fits⟩
    rw [readAfterSign_run digits.run, if_neg (Nat.not_lt.mpr fits), if_pos ⟨nonempty, rfl⟩]

theorem readAfterSign_error_iff {fault : LiteralFault} :
    r.readAfterSign limit overflow s = .error fault ↔
      r.Refused limit overflow.reason s fault.reason := by
  constructor
  · intro read
    obtain ⟨digits, rest, n, run⟩ := r.exists_run s
    rw [readAfterSign_run run] at read
    split at read
    · next large =>
      obtain rfl := Except.error.inj read
      exact .outside run large rfl
    · next small =>
      split at read
      · cases read
      · next part =>
        obtain rfl := Except.error.inj read
        exact .stray run (Nat.not_lt.mp small) (by tauto) rfl
  · rintro (⟨run, large, said⟩ | ⟨run, fits, stray, said⟩)
    · rw [readAfterSign_run run, if_pos large, LiteralFault.reason_injective said]
    · have invalid : fault = .invalidDigit := LiteralFault.reason_injective said
      rw [readAfterSign_run run, if_neg (Nat.not_lt.mpr fits), if_neg (by tauto), invalid]

end Radix

namespace Literal

open Radix

variable {r : Radix}

def Signed (s : Text) : Prop := ∃ c ∈ s.head?, c = '+' ∨ c = '-'

/-- A text without its optional sign, and whether the sign is a minus. -/
inductive SignOf : Text → Bool → Text → Prop where
  | minus : SignOf ('-' :: s) true s
  | plus : SignOf ('+' :: s) false s
  | bare (unsigned : ¬ Signed s) : SignOf s false s

/-- An optional sign and one or more digits. -/
inductive SignedNumeral (r : Radix) (s : Text) (n : Int) : Prop where
  | intro (sign : SignOf s negative digits) (nonempty : digits ≠ [])
    (value : r.Numeral digits m) (same : n = if negative then -(m : Int) else m)

/-- The texts that stand for an integer, of any size. -/
inductive IntNumeral (t : Text) (n : Int) : Prop where
  | marked (mark : t = "0x".toList ++ digits) (nonempty : digits ≠ [])
    (value : hexadecimal.Numeral digits m) (same : n = m)
  | unmarked (mark : ¬ "0x".toList <+: t) (value : SignedNumeral decimal t n)

/-- Why a text is refused that may have a sign. -/
inductive SignedRefused (r : Radix) (s : Text) (reason : String) : Prop where
  | empty (nothing : s = []) (said : reason = "cannot parse integer from empty string")
  | negative (nonempty : s ≠ []) (sign : SignOf s true digits)
    (refused : r.Refused (2 ^ 31) "number too small to fit in target type" digits reason)
  | natural (nonempty : s ≠ []) (sign : SignOf s false digits)
    (refused : r.Refused (2 ^ 31 - 1) "number too large to fit in target type" digits reason)

/-- Why a text is no integer. -/
inductive IntRefused (t : Text) (reason : String) : Prop where
  | sign (mark : t = "0x".toList ++ s) (signed : Signed s)
    (said : reason = "sign after hex prefix")
  | marked (mark : t = "0x".toList ++ s) (unsigned : ¬ Signed s)
    (refused : SignedRefused hexadecimal s reason)
  | unmarked (mark : ¬ "0x".toList <+: t) (refused : SignedRefused decimal t reason)

/-- Why a text is no size. -/
inductive SizeRefused (t : Text) (reason : String) : Prop where
  | sign (signed : Signed t) (said : reason = "sign not allowed in size")
  | empty (nothing : t = []) (said : reason = "cannot parse integer from empty string")
  | digits (nonempty : t ≠ []) (unsigned : ¬ Signed t)
    (refused : decimal.Refused (2 ^ 32 - 1) "number too large to fit in target type" t reason)
  | zero (nonempty : t ≠ []) (value : decimal.Numeral t 0) (said : reason = "size must be positive")

theorem map_eq_ok_iff {f : α → β} {x : Except ε α} :
    x.map f = .ok b ↔ ∃ a, x = .ok a ∧ b = f a := by
  cases x <;> simp [Except.map, eq_comm]

theorem map_eq_error_iff {f : α → β} {x : Except ε α} : x.map f = .error e ↔ x = .error e := by
  cases x <;> simp [Except.map]

theorem mapError_eq_ok_iff {f : ε → δ} {x : Except ε α} : x.mapError f = .ok a ↔ x = .ok a := by
  cases x <;> simp [Except.mapError]

theorem mapError_eq_error_iff {f : ε → δ} {x : Except ε α} :
    x.mapError f = .error e ↔ ∃ e', e = f e' ∧ x = .error e' := by
  cases x <;> simp [Except.mapError, eq_comm]

theorem isSigned_iff : isSigned s = true ↔ Signed s := by
  cases s <;> simp [isSigned, Signed]

theorem exists_signOf (s : Text) : ∃ negative digits, SignOf s negative digits := by
  by_cases signed : Signed s
  · obtain ⟨c, first, rfl | rfl⟩ := signed
    · obtain ⟨rest, rfl⟩ := List.head?_eq_some_iff.mp first
      exact ⟨_, _, .plus⟩
    · obtain ⟨rest, rfl⟩ := List.head?_eq_some_iff.mp first
      exact ⟨_, _, .minus⟩
  · exact ⟨_, _, .bare signed⟩

theorem maxInt32_eq : maxInt32 = 2 ^ 31 - 1 := rfl

theorem maxInt32_succ : maxInt32 + 1 = 2 ^ 31 := rfl

theorem readSigned_negative (sign : SignOf s true digits) :
    readSigned r s =
      (r.readAfterSign (2 ^ 31) .tooSmall digits).map fun n : Nat => Int32.ofInt (-n) := by
  cases sign with
  | minus =>
    rw [readSigned, maxInt32_succ]
    cases r.readAfterSign (2 ^ 31) .tooSmall digits <;> rfl

theorem readSigned_natural (nonempty : s ≠ []) (sign : SignOf s false digits) :
    readSigned r s =
      (r.readAfterSign (2 ^ 31 - 1) .tooLarge digits).map fun n : Nat => Int32.ofInt n := by
  cases sign with
  | plus =>
    rw [readSigned, maxInt32_eq]
    cases r.readAfterSign (2 ^ 31 - 1) .tooLarge digits <;> rfl
  | bare unsigned =>
    have unsigned : isSigned s = false := by simpa [← isSigned_iff] using unsigned
    rw [readSigned_of_unsigned unsigned nonempty, maxInt32_eq, readAfterSign]
    exact nonempty

theorem SignOf.nonempty (sign : SignOf s negative digits) (some : digits ≠ []) : s ≠ [] := by
  cases sign with
  | minus | plus => exact List.cons_ne_nil _ _
  | bare => exact some

theorem readSigned_ok_iff : readSigned r s = .ok v ↔
    ∃ n, SignedNumeral r s n ∧ -2 ^ 31 ≤ n ∧ n ≤ 2 ^ 31 - 1 ∧ v = Int32.ofInt n := by
  constructor
  · intro read
    have nonempty : s ≠ [] := by
      rintro rfl
      cases read
    obtain ⟨negative, digits, sign⟩ := exists_signOf s
    cases negative with
    | true =>
      rw [readSigned_negative sign, map_eq_ok_iff] at read
      obtain ⟨m, read, rfl⟩ := read
      obtain ⟨some, value, fits⟩ := readAfterSign_ok_iff.mp read
      exact ⟨-m, ⟨sign, some, value, rfl⟩, by omega, by omega, rfl⟩
    | false =>
      rw [readSigned_natural nonempty sign, map_eq_ok_iff] at read
      obtain ⟨m, read, rfl⟩ := read
      obtain ⟨some, value, fits⟩ := readAfterSign_ok_iff.mp read
      exact ⟨m, ⟨sign, some, value, rfl⟩, by omega, by omega, rfl⟩
  · rintro ⟨n, @⟨negative, digits, m, sign, some, value, same⟩, low, high, rfl⟩
    cases negative with
    | true =>
      obtain rfl : n = -(m : Int) := same
      rw [readSigned_negative sign, map_eq_ok_iff]
      exact ⟨m, readAfterSign_ok_iff.mpr ⟨some, value, by omega⟩, rfl⟩
    | false =>
      obtain rfl : n = (m : Int) := same
      rw [readSigned_natural (sign.nonempty some) sign, map_eq_ok_iff]
      exact ⟨m, readAfterSign_ok_iff.mpr ⟨some, value, by omega⟩, rfl⟩

theorem readSigned_error_iff {fault : LiteralFault} :
    readSigned r s = .error fault ↔ SignedRefused r s fault.reason := by
  constructor
  · intro read
    by_cases nonempty : s = []
    · subst nonempty
      obtain rfl := Except.error.inj read
      exact .empty rfl rfl
    · obtain ⟨negative, digits, sign⟩ := exists_signOf s
      cases negative with
      | true =>
        rw [readSigned_negative sign, map_eq_error_iff, readAfterSign_error_iff] at read
        exact .negative nonempty sign read
      | false =>
        rw [readSigned_natural nonempty sign, map_eq_error_iff, readAfterSign_error_iff] at read
        exact .natural nonempty sign read
  · rintro (⟨rfl, said⟩ | ⟨nonempty, sign, refused⟩ | ⟨nonempty, sign, refused⟩)
    · have empty : fault = .empty := LiteralFault.reason_injective said
      rw [empty, readSigned]
    · rw [readSigned_negative sign, map_eq_error_iff, readAfterSign_error_iff]
      exact refused
    · rw [readSigned_natural nonempty sign, map_eq_error_iff, readAfterSign_error_iff]
      exact refused

/-- Behind the mark a sign is refused before anything is read. -/
theorem readInt_marked (digits : Text) :
    readInt ("0x".toList ++ digits) =
      if isSigned digits then .error .signAfterHexMark else readSigned hexadecimal digits := by
  have marked : hexMark.toList.isPrefixOf? ("0x".toList ++ digits) = some digits :=
    Scan.prefixed_iff.mpr rfl
  rw [readInt, marked]

theorem readInt_unmarked (mark : ¬ "0x".toList <+: t) : readInt t = readSigned decimal t := by
  have unmarked : hexMark.toList.isPrefixOf? t = none := by
    cases found : hexMark.toList.isPrefixOf? t with
    | none => rfl
    | some digits => exact absurd ⟨digits, (Scan.prefixed_iff.mp found).symm⟩ mark
  rw [readInt, unmarked]

theorem not_signed_of_numeral (value : r.Numeral s m) : ¬ Signed s := by
  rintro ⟨c, first, sign⟩
  obtain ⟨rest, rfl⟩ := List.head?_eq_some_iff.mp first
  obtain ⟨d, _, digit, -, -⟩ := numeral_cons_iff.mp value
  have digit := digit?_iff.mpr digit
  rcases sign with rfl | rfl
  · cases r <;> simp [digit?] at digit
  · cases r <;> simp [digit?] at digit

theorem signedNumeral_bare_iff (unsigned : ¬ Signed s) :
    SignedNumeral r s n ↔ s ≠ [] ∧ ∃ m : Nat, r.Numeral s m ∧ n = m := by
  constructor
  · rintro ⟨sign, nonempty, value, same⟩
    cases sign with
    | minus => exact absurd ⟨'-', rfl, .inr rfl⟩ unsigned
    | plus => exact absurd ⟨'+', rfl, .inl rfl⟩ unsigned
    | bare => exact ⟨nonempty, _, value, same⟩
  · rintro ⟨nonempty, m, value, same⟩
    exact ⟨.bare unsigned, nonempty, value, same⟩

theorem intNumeral_marked_iff :
    IntNumeral ("0x".toList ++ s) n ↔ s ≠ [] ∧ ∃ m : Nat, hexadecimal.Numeral s m ∧ n = m := by
  constructor
  · rintro (⟨mark, nonempty, value, same⟩ | ⟨mark, -⟩)
    · obtain rfl := List.append_cancel_left mark
      exact ⟨nonempty, _, value, same⟩
    · exact absurd (List.prefix_append _ _) mark
  · rintro ⟨nonempty, m, value, same⟩
    exact .marked rfl nonempty value same

theorem intNumeral_unmarked_iff (mark : ¬ "0x".toList <+: t) :
    IntNumeral t n ↔ SignedNumeral decimal t n := by
  constructor
  · rintro (⟨marked, -, -, -⟩ | ⟨-, value⟩)
    · exact absurd ⟨_, marked.symm⟩ mark
    · exact value
  · exact .unmarked mark

theorem intRefused_marked_iff : IntRefused ("0x".toList ++ s) reason ↔
    Signed s ∧ reason = "sign after hex prefix" ∨
      ¬ Signed s ∧ SignedRefused hexadecimal s reason := by
  constructor
  · rintro (⟨mark, signed, said⟩ | ⟨mark, unsigned, refused⟩ | ⟨mark, -⟩)
    · obtain rfl := List.append_cancel_left mark
      exact .inl ⟨signed, said⟩
    · obtain rfl := List.append_cancel_left mark
      exact .inr ⟨unsigned, refused⟩
    · exact absurd (List.prefix_append _ _) mark
  · rintro (⟨signed, said⟩ | ⟨unsigned, refused⟩)
    · exact .sign rfl signed said
    · exact .marked rfl unsigned refused

theorem intRefused_unmarked_iff (mark : ¬ "0x".toList <+: t) :
    IntRefused t reason ↔ SignedRefused decimal t reason := by
  constructor
  · rintro (⟨marked, -, -⟩ | ⟨marked, -, -⟩ | ⟨-, refused⟩)
    · exact absurd ⟨_, marked.symm⟩ mark
    · exact absurd ⟨_, marked.symm⟩ mark
    · exact refused
  · exact .unmarked mark

theorem readInt_ok_iff : readInt t = .ok v ↔
    ∃ n, IntNumeral t n ∧ -2 ^ 31 ≤ n ∧ n ≤ 2 ^ 31 - 1 ∧ v = Int32.ofInt n := by
  by_cases mark : "0x".toList <+: t
  · obtain ⟨s, rfl⟩ := mark
    simp only [readInt_marked, intNumeral_marked_iff]
    by_cases signed : Signed s
    -- Digits have no sign in front, so the rule for signs refuses no number.
    · rw [if_pos (isSigned_iff.mpr signed)]
      refine ⟨nofun, ?_⟩
      rintro ⟨n, ⟨-, m, value, -⟩, -⟩
      exact absurd signed (not_signed_of_numeral value)
    · rw [if_neg (mt isSigned_iff.mp signed), readSigned_ok_iff]
      simp only [signedNumeral_bare_iff signed]
  · rw [readInt_unmarked mark, readSigned_ok_iff]
    simp only [intNumeral_unmarked_iff mark]

theorem readInt_error_iff {fault : LiteralFault} :
    readInt t = .error fault ↔ IntRefused t fault.reason := by
  by_cases mark : "0x".toList <+: t
  · obtain ⟨s, rfl⟩ := mark
    rw [readInt_marked, intRefused_marked_iff]
    by_cases signed : Signed s
    · rw [if_pos (isSigned_iff.mpr signed)]
      constructor
      · intro read
        obtain rfl := Except.error.inj read
        exact .inl ⟨signed, rfl⟩
      · rintro (⟨-, said⟩ | ⟨unsigned, -⟩)
        · have sign : fault = .signAfterHexMark := LiteralFault.reason_injective said
          rw [sign]
        · exact absurd signed unsigned
    · rw [if_neg (mt isSigned_iff.mp signed), readSigned_error_iff]
      simp [signed]
  · rw [readInt_unmarked mark, readSigned_error_iff, intRefused_unmarked_iff mark]

/-- Zero is found out only when every character has been read. -/
theorem readSize_of_unsigned (nonempty : t ≠ []) (unsigned : ¬ Signed t) :
    readSize t = (decimal.readAfterSign (2 ^ 32 - 1) .tooLarge t).bind fun n =>
      if n = 0 then .error .zeroSize else .ok (UInt32.ofNat n) := by
  have unsigned : isSigned t = false := by simpa [← isSigned_iff] using unsigned
  have some : t.isEmpty = false := by simpa using nonempty
  rw [readSize, unsigned, some, readAfterSign]
  · rfl
  · exact nonempty

theorem readSize_signed (signed : Signed t) : readSize t = .error .signedSize := by
  rw [readSize, if_pos (isSigned_iff.mpr signed)]

theorem readSize_ok_iff : readSize t = .ok v ↔
    t ≠ [] ∧ ∃ n, decimal.Numeral t n ∧ 1 ≤ n ∧ n ≤ 2 ^ 32 - 1 ∧ v = UInt32.ofNat n := by
  constructor
  · intro read
    have unsigned : ¬ Signed t := by
      intro signed
      rw [readSize_signed signed] at read
      cases read
    have nonempty : t ≠ [] := by
      rintro rfl
      cases read
    rw [readSize_of_unsigned nonempty unsigned] at read
    cases same : decimal.readAfterSign (2 ^ 32 - 1) .tooLarge t with
    | error fault =>
      rw [same] at read
      cases read
    | ok n =>
      obtain ⟨-, value, fits⟩ := readAfterSign_ok_iff.mp same
      rw [same, Except.bind] at read
      split at read
      · cases read
      · next nonzero =>
        exact ⟨nonempty, n, value, Nat.one_le_iff_ne_zero.mpr nonzero, fits,
          (Except.ok.inj read).symm⟩
  · rintro ⟨nonempty, n, value, positive, fits, rfl⟩
    have read : decimal.readAfterSign (2 ^ 32 - 1) .tooLarge t = .ok n :=
      readAfterSign_ok_iff.mpr ⟨nonempty, value, fits⟩
    rw [readSize_of_unsigned nonempty (not_signed_of_numeral value), read, Except.bind,
      if_neg (Nat.one_le_iff_ne_zero.mp positive)]

theorem readSize_error_iff {fault : LiteralFault} :
    readSize t = .error fault ↔ SizeRefused t fault.reason := by
  constructor
  · intro read
    by_cases signed : Signed t
    · rw [readSize_signed signed] at read
      obtain rfl := Except.error.inj read
      exact .sign signed rfl
    · by_cases nonempty : t = []
      · subst nonempty
        obtain rfl := Except.error.inj read
        exact .empty rfl rfl
      · rw [readSize_of_unsigned nonempty signed] at read
        cases same : decimal.readAfterSign (2 ^ 32 - 1) .tooLarge t with
        | error other =>
          rw [same] at read
          obtain rfl := Except.error.inj read
          exact .digits nonempty signed (readAfterSign_error_iff.mp same)
        | ok n =>
          obtain ⟨-, value, -⟩ := readAfterSign_ok_iff.mp same
          rw [same, Except.bind] at read
          split at read
          · next zero =>
            obtain rfl := Except.error.inj read
            exact .zero nonempty (zero ▸ value) rfl
          · cases read
  · rintro (⟨signed, said⟩ | ⟨rfl, said⟩ | ⟨nonempty, unsigned, refused⟩ |
      ⟨nonempty, value, said⟩)
    · have sign : fault = .signedSize := LiteralFault.reason_injective said
      rw [sign, readSize_signed signed]
    · have empty : fault = .empty := LiteralFault.reason_injective said
      rw [empty]
      rfl
    · have read : decimal.readAfterSign (2 ^ 32 - 1) .tooLarge t = .error fault :=
        readAfterSign_error_iff.mpr refused
      rw [readSize_of_unsigned nonempty unsigned, read, Except.bind]
    · have zero : fault = .zeroSize := LiteralFault.reason_injective said
      have read : decimal.readAfterSign (2 ^ 32 - 1) .tooLarge t = .ok 0 :=
        readAfterSign_ok_iff.mpr ⟨nonempty, value, Nat.zero_le _⟩
      rw [readSize_of_unsigned nonempty (not_signed_of_numeral value), read, zero, Except.bind,
        if_pos rfl]

/-- Every text is decided: it is a number within its bounds or it is refused for the reason that
comes first, with the text itself and without a place. -/
theorem literal_verdict (t : String) :
    (∀ v, parseInt (some t) = .ok v ↔
      ∃ n, IntNumeral t.toList n ∧ -2 ^ 31 ≤ n ∧ n ≤ 2 ^ 31 - 1 ∧ v = Int32.ofInt n) ∧
    (∀ v, parseSize t = .ok v ↔ t.toList ≠ [] ∧
      ∃ n, decimal.Numeral t.toList n ∧ 1 ≤ n ∧ n ≤ 2 ^ 32 - 1 ∧ v = UInt32.ofNat n) ∧
    (∀ e, parseInt (some t) = .error e ↔
      ∃ fault, e = .malformedLiteral t fault none ∧ IntRefused t.toList fault.reason) ∧
    (∀ e, parseSize t = .error e ↔
      ∃ fault, e = .malformedLiteral t fault none ∧ SizeRefused t.toList fault.reason) := by
  refine ⟨fun v => ?_, fun v => ?_, fun e => ?_, fun e => ?_⟩
  · rw [parseInt, mapError_eq_ok_iff, readInt_ok_iff]
  · rw [parseSize, mapError_eq_ok_iff, readSize_ok_iff]
  · simp only [parseInt, mapError_eq_error_iff, readInt_error_iff]
  · simp only [parseSize, mapError_eq_error_iff, readSize_error_iff]

example : parseInt (some "-2147483649x") =
    .error (.malformedLiteral "-2147483649x" .tooSmall none) := by decide

end Literal
end SchemaLang
