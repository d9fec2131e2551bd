import SchemaLang.Text.LineTable

/-! The starts in a line table. Each lies right behind a line feed and they increase, so that
halving the table finds how many of them an offset has reached. -/
namespace SchemaLang.LineTable

open Text

theorem startsFrom_append (offset : Nat) (s t : Text) :
    startsFrom offset (s ++ t) = startsFrom offset s ++ startsFrom (offset + s.byteSize) t := by
  induction s generalizing offset with
  | nil => rfl
  | cons c s ih =>
    simp only [List.cons_append, startsFrom, ih, byteSize_cons, ← Nat.add_assoc]
    split <;> rfl

theorem length_startsFrom (offset : Nat) (s : Text) :
    (startsFrom offset s).length = s.count '\n' := by
  induction s generalizing offset with
  | nil => rfl
  | cons c s ih =>
    simp only [startsFrom]
    split
    · rename_i feed
      simp [feed, ih]
    · rename_i other
      rw [ih, List.count_cons_of_ne other]

theorem mem_startsFrom_iff {offset start : Nat} {s : Text} : start ∈ startsFrom offset s ↔
    ∃ above below, s = above ++ '\n' :: below ∧ start = offset + above.byteSize + 1 := by
  induction s generalizing offset with
  | nil => simp [startsFrom]
  | cons c s ih =>
    have here : start = offset + c.utf8Size ∧ c = '\n' ∨ start ∈ startsFrom (offset + c.utf8Size) s ↔
        start ∈ startsFrom offset (c :: s) := by
      by_cases feed : c = '\n' <;> simp [startsFrom, feed]
    rw [← here, ih]
    constructor
    · rintro (⟨rfl, rfl⟩ | ⟨above, below, rfl, rfl⟩)
      · exact ⟨[], s, rfl, rfl⟩
      · exact ⟨c :: above, below, rfl, by simp only [byteSize_cons]; omega⟩
    · rintro ⟨above, below, split, rfl⟩
      cases above with
      | nil =>
        obtain ⟨rfl, rfl⟩ := List.cons.inj split
        exact .inl ⟨rfl, rfl⟩
      | cons d above =>
        obtain ⟨rfl, rfl⟩ := List.cons.inj split
        exact .inr ⟨above, below, rfl, by simp only [byteSize_cons]; omega⟩

theorem mem_startsFrom {offset start : Nat} {s : Text} (mem : start ∈ startsFrom offset s) :
    offset < start ∧ start ≤ offset + s.byteSize := by
  obtain ⟨above, below, rfl, rfl⟩ := mem_startsFrom_iff.mp mem
  have feed : ('\n').utf8Size = 1 := rfl
  rw [byteSize_append, byteSize_cons, feed]
  omega

theorem startsFrom_increasing (offset : Nat) (s : Text) :
    (startsFrom offset s).Pairwise (· < ·) := by
  induction s generalizing offset with
  | nil => exact .nil
  | cons c s ih =>
    simp only [startsFrom]
    split
    · exact .cons (fun start mem => (mem_startsFrom mem).1) (ih _)
    · exact ih _

theorem starts_increasing (source : Text) :
    (ofText source).starts.toList.Pairwise (· < ·) :=
  .cons (fun _ mem => (mem_startsFrom mem).1) (startsFrom_increasing 0 source)

/-- In an increasing list the entries up to an offset are the first ones. -/
theorem getElem_le_iff {starts : List Nat} (increasing : starts.Pairwise (· < ·))
    (inside : i < starts.length) : starts[i] ≤ offset ↔ i < starts.countP (· ≤ offset) := by
  induction increasing generalizing i with
  | nil => cases inside
  | @cons first others below _ ih =>
    by_cases reached : first ≤ offset
    · rw [List.countP_cons_of_pos (by simpa using reached)]
      cases i with
      | zero => simpa using reached
      | succ i =>
        have inside : i < others.length := by simpa using inside
        simpa using ih inside
    · have none : (first :: others).countP (· ≤ offset) = 0 := by
        rw [List.countP_eq_zero]
        intro start mem
        rcases List.mem_cons.mp mem with rfl | mem
        · simpa using reached
        · have := below start mem
          simp only [decide_eq_true_eq]
          omega
      rw [none]
      cases i with
      | zero => simpa using reached
      | succ i =>
        have := below _ (List.getElem_mem (show i < others.length by simpa using inside))
        simp only [List.getElem_cons_succ]
        omega

/-- Where the starts up to the offset are those before an index, the search ends at that index. -/
theorem firstBeyond_eq {starts : Array Nat} {offset low high bound : Nat}
    (reached : ∀ i < starts.size, starts.getD i 0 ≤ offset ↔ i < bound) (lower : low ≤ bound)
    (upper : bound ≤ high) (inside : high ≤ starts.size) :
    firstBeyond starts offset low high = bound := by
  fun_induction firstBeyond with
  | case1 low high range middle below ih =>
    have passed := (reached middle (by omega)).mp below
    exact ih (by omega) upper inside
  | case2 low high range middle beyond ih =>
    have ahead := mt (reached middle (by omega)).mpr beyond
    exact ih lower (by omega) (by omega)
  | case3 => omega

/-- The search counts the starts up to the offset. -/
theorem line_ofText (source : Text) (offset : Nat) :
    (ofText source).line offset = (0 :: startsFrom 0 source).countP (· ≤ offset) := by
  refine firstBeyond_eq (fun i inside => ?_) (Nat.zero_le _) ?_ (Nat.le_refl _)
  · rw [Array.getD_eq_getD_getElem?, Array.getElem?_eq_getElem inside, Option.getD_some]
    exact getElem_le_iff (starts_increasing source) inside
  · exact List.countP_le_length

end SchemaLang.LineTable
