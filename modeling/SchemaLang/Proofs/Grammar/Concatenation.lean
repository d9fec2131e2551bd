import SchemaLang.Proofs.Grammar.Continuation
import SchemaLang.Proofs.Grammar.Language
import SchemaLang.Proofs.Grammar.Nested

/-! One schema text below another. Each scope above is found as it was, its way to the last brace
being the same; the scopes below are found as they are alone, since only layout stands before the
first of them. -/
namespace SchemaLang

open Scan Grammar

variable {source last below : Text}

/-- What is found above is found also with the lines below, up to the last brace. -/
def Extends (source last below : Text) (bound : Nat) (p q : Scan (ParseTree.Scope Text)) : Prop :=
  ∀ ⦃s s' c rest⦄, s'.length ≤ bound → Continued source last below s s' → p s = .found c rest →
    Ended source last below rest (rest ++ '\n' :: below) →
      ∃ c', q s' = .found c' (rest ++ '\n' :: below) ∧
        c.map (placeIn source) = c'.map (placeIn (source ++ '\n' :: below))

section
variable (ended : last.skipLayout = []) (opens : Opens below "scope")
include ended opens

theorem opens_below : Opens (last ++ '\n' :: below) "scope" := by
  have isLexeme : IsLexeme "scope" := (isWord_reserved (by decide)).isLexeme
  obtain ⟨rest, reads⟩ := opens
  refine ⟨rest, isLexeme.reads_iff.mpr ?_⟩
  rw [Text.skipLayout_below ended]
  exact isLexeme.reads_iff.mp reads

/-- Behind the last brace there is no mark on either side. -/
theorem semicolon_agree :
    Respects (Ended source last below) (Alike id id) (Ended source last below)
      (mark .semicolon) := by
  rintro s s' (continued | ⟨rfl, rfl⟩)
  · have agree := (Continued.parallel source last below).mark_agree (m := .semicolon) (by decide)
    exact agree.weaken (fun _ _ same => same) (fun _ _ => .inl) continued
  · have absent : Absent (mark .semicolon) s := by
      refine (quiet_symbol _).absent fun _ _ found => ?_
      have marked := reads_mark_iff.mp (mark_found_iff.mp found)
      simp [ended] at marked
    obtain ⟨stop, left⟩ := absent
    obtain ⟨stop', right⟩ :=
      mark_absent_of_word (m := .semicolon) (by decide) (opens_below ended opens)
    rw [left, right]
    exact .absent

theorem declaration_extends (continued : Continued source last below s s')
    (found : declaration s = .found d rest) :
    ∃ d', declaration s' = .found d' (rest ++ '\n' :: below) ∧
      d.map (placeIn source) = d'.map (placeIn (source ++ '\n' :: below)) := by
  have agree := (Continued.parallel source last below).declaration_agree
    (semicolon_agree ended opens)
  obtain ⟨d', rest', found', alike, rests⟩ := agree.found continued found
  exact ⟨d', rests.same ▸ found', alike⟩

theorem item_extends (inner : Extends source last below bound p (scope level))
    (small : s'.length ≤ bound) (continued : Continued source last below s s')
    (found : itemWith p s = .found i rest)
    (rests : Ended source last below rest (rest ++ '\n' :: below)) :
    ∃ i', itemWith (scope level) s' = .found i' (rest ++ '\n' :: below) ∧
      i.map (placeIn source) = i'.map (placeIn (source ++ '\n' :: below)) := by
  simp only [itemWith, orElse_found_iff, map_found_iff] at found
  rcases found with ⟨c, found, rfl⟩ | ⟨-, d, found, rfl⟩
  · obtain ⟨c', found', same⟩ := inner small continued found rests
    obtain ⟨names, items⟩ := ParseTree.Scope.mk.inj same
    exact ⟨_, orElse_left (map_found _ found'), congrArg₂ ParseTree.Item.scope names items⟩
  · obtain ⟨d', found', same⟩ := declaration_extends ended opens continued found
    obtain ⟨ts, reads, derived⟩ := declaration_sound found'
    obtain ⟨w, us, rfl, mem, different⟩ := declaration_head derived
    have noScope : Absent (keyword "scope") s' :=
      keyword_absent (by decide) (itemWords_reserved mem).1 reads.opens different
    exact ⟨_, orElse_right (map_absent (scope_absent noScope level)) (map_found _ found'),
      congrArg ParseTree.Item.declaration same⟩

/-- Between two items the way goes on to the end of the last one. -/
theorem items_extend (trails : Trails p ParseTree.Scope.tokens)
    (inner : Extends source last below bound p (scope level))
    (reads : Repeats (itemWith p) s items rest) (closes : rest.skipLayout = '\x7d' :: after)
    (reaches : Reaches last rest) (small : (s ++ '\n' :: below).length ≤ bound)
    (within : s <:+ source) :
    ∃ items', Repeats (itemWith (scope level)) (s ++ '\n' :: below) items'
        (rest ++ '\n' :: below) ∧
      items.map (·.map (placeIn source)) =
        items'.map (·.map (placeIn (source ++ '\n' :: below))) := by
  induction reads with
  | stop absent =>
    have skipped := Text.skipLayout_line (by decide) closes below
    have brace : Opens (_ ++ '\n' :: below) "\x7d" :=
      ⟨_, reads_mark_iff (m := .closeBrace).mpr skipped⟩
    exact ⟨[], .stop (item_absent brace), rfl⟩
  | @next s i middle items rest found shorter later ih =>
    have way : Trail middle [] rest := ((itemWith_trails trails).many later.many_found).passes
    have passed : middle <:+ source := ((itemWith_trails trails found).suffix).trans within
    have next : Continued source last below middle (middle ++ '\n' :: below) :=
      ⟨passed, way.append reaches, rfl⟩
    have here : Continued source last below s (s ++ '\n' :: below) :=
      ⟨within, (itemWith_trails trails found).passes.append next.reaches, rfl⟩
    obtain ⟨i', found', same⟩ := item_extends ended opens inner small here found (.inl next)
    have shorter' : (middle ++ '\n' :: below).length < (s ++ '\n' :: below).length := by
      simp only [List.length_append]
      omega
    obtain ⟨items', reads', others⟩ := ih closes reaches (by omega) passed
    exact ⟨i' :: items', .next found' shorter' reads', congrArg₂ List.cons same others⟩

theorem scope_extends (n m : Nat) : Extends source last below m (scope n) (scope m) := by
  induction n generalizing m with
  | zero =>
    intro s s' c rest _ _ found
    simp [scope, missing] at found
  | succ n ih =>
    intro s s' c rest small continued found rests
    simp only [scope, scopeWith, bind_found_iff, expecting_found_iff, pure_found_iff] at found
    obtain ⟨_, s₁, opened, name, s₂, named, _, s₃, brace, items, s₄, body, u, _, closes, rfl,
      rfl⟩ := found
    have par := Continued.parallel source last below
    obtain ⟨_, t₁, opened', -, c₁⟩ := (par.keyword_agree (by decide)).found continued opened
    obtain ⟨name', t₂, named', names, c₂⟩ := par.name_agree.found c₁ named
    obtain ⟨_, t₃, brace', -, c₃⟩ := (par.mark_agree (by decide)).found c₂ brace
    have shorter := keyword_progress (by decide) (by decide) opened'
    have header := (name_trails named').append (mark_trails brace')
    have noLonger := header.suffix.length_le
    obtain ⟨m, rfl⟩ : ∃ k, m = k + 1 := Nat.exists_eq_add_one.mpr (by omega)
    obtain rfl := c₃.same
    have closed := reads_mark_iff.mp (mark_found_iff.mp closes)
    have reaches : Reaches last s₄ := .layout (closed ▸ rests.reaches)
    obtain ⟨items', body', same⟩ := items_extend ended opens (scope_trails n) (ih m)
      ((many_found_iff (item_progress (scope_progress n))).mp body) closed reaches (by omega)
      c₃.within
    have closes' : mark .closeBrace (s₄ ++ '\n' :: below) = .found u (_ ++ '\n' :: below) :=
      mark_found_iff.mpr (reads_mark_iff.mpr (Text.skipLayout_line (by decide) closed below))
    refine ⟨⟨name', items'⟩, ?_, ?_⟩
    · simp only [scope, scopeWith, bind_found_iff, expecting_found_iff, pure_found_iff]
      exact ⟨_, _, opened', _, _, named', _, _, brace', _, _, body'.many_found, _, _, closes', rfl,
        rfl⟩
    · simp only [ParseTree.Scope.map, ParseTree.Item.mapAll_eq]
      exact congrArg₂ ParseTree.Scope.mk names same

/-- The scopes above, and then those that are read in the lines below. -/
theorem scopes_extend (reads : Repeats (scope n) s cs last) (within : s <:+ source)
    (small : (s ++ '\n' :: below).length ≤ m)
    (lower : Repeats (scope m) (last ++ '\n' :: below) ds rest) :
    Ended source last below s (s ++ '\n' :: below) ∧
      ∃ cs', Repeats (scope m) (s ++ '\n' :: below) (cs' ++ ds) rest ∧
        cs.map (·.map (placeIn source)) = cs'.map (·.map (placeIn (source ++ '\n' :: below))) := by
  induction reads with
  | stop => exact ⟨.inr ⟨rfl, rfl⟩, [], lower, rfl⟩
  | @next s c next cs last found shorter _ ih =>
    have shorter' : (next ++ '\n' :: below).length < (s ++ '\n' :: below).length := by
      simp only [List.length_append]
      omega
    obtain ⟨middle, trail, closed⟩ := scope_trail found
    have passed : next <:+ source := (scope_trails n found).suffix.trans within
    obtain ⟨rests, cs', reads', others⟩ := ih ended passed (by omega) lower
    have reaches : Reaches last middle := .layout (closed ▸ rests.reaches)
    have here : Continued source last below s (s ++ '\n' :: below) :=
      ⟨within, trail.passes.append reaches, rfl⟩
    obtain ⟨c', found', same⟩ := scope_extends ended opens n m small here found rests
    exact ⟨.inl here, c' :: cs', .next found' shorter' reads', congrArg₂ List.cons same others⟩

end

/-- A part of the lower text beside itself. -/
def Shared (below s s' : Text) : Prop := s = s' ∧ s <:+ below

theorem follows_shared : Follows (Shared below) (Shared below) where
  layout := by
    rintro s _ ⟨rfl, within⟩
    exact ⟨rfl, (Text.gap_skipLayout s).suffix.trans within⟩
  ending related := related.1.symm
  step := by
    rintro c s _ - - ⟨rfl, within⟩
    exact ⟨s, rfl, rfl, (List.suffix_cons c s).trans within⟩
  close := by
    rintro s _ ⟨rfl, within⟩
    exact ⟨s, rfl, rfl, (List.suffix_cons _ s).trans within⟩

theorem flip_shared : flip (Shared below) = Shared below := by
  funext s s'
  refine propext ⟨?_, ?_⟩ <;> (rintro ⟨rfl, within⟩; exact ⟨rfl, within⟩)

/-- Below another text every place is further down by the lines of that text. -/
theorem parallel_shared (above below : Text) : Parallel (Shared below) (Shared below)
    (fun s => (placeIn below s).down (above.count '\n' + 1))
    (placeIn (above ++ '\n' :: below)) where
  forth := follows_shared
  back := flip_shared ▸ follows_shared
  place := by
    rintro s _ ⟨rfl, before, rfl⟩
    have lower := placeIn_suffix (above ++ '\n' :: before) s
    rw [List.append_assoc, List.cons_append] at lower
    rw [placeIn_suffix, lower, Position.after_line]

namespace Grammar

/-- A scope is found behind whatever layout stands before it. -/
theorem scope_found_of_layout (same : s.skipLayout = t.skipLayout)
    (found : scope bound t = .found c rest) : scope bound s = .found c rest := by
  have keyword : keyword "scope" s = keyword "scope" t := by
    simp [Scan.keyword, bind_apply, layout, same]
  cases bound with
  | zero => simp [scope, missing] at found
  | succ bound =>
    rw [← found]
    simp only [scope, scopeWith]
    rw [bind_apply, bind_apply, keyword]

theorem scope_opens {bound : Nat} (found : scope bound s = .found c rest) : Opens s "scope" := by
  obtain ⟨_, reads, derived⟩ := scope_sound bound found
  cases derived with | scope => exact reads.opens

/-- The lower text is read as it is by itself, under any bound that leaves it room. -/
theorem lower_scopes {m : Nat} (filled : cs ≠ []) (small : below.length ≤ m)
    (reads : Repeats (scope below.length) below cs rest) (above : Text) :
    ∃ ds, ds ≠ [] ∧ Repeats (scope m) below ds rest ∧
      cs.map (·.map fun s => (placeIn below s).down (above.count '\n' + 1)) =
        ds.map (·.map (placeIn (above ++ '\n' :: below))) := by
  have agree := ((parallel_shared above below).scope_agree below.length m).many1
    (scope_progress _) (scope_progress _)
  have whole : Bounded (Shared below) below.length m below below :=
    ⟨⟨rfl, List.suffix_rfl⟩, Nat.le_refl _, small⟩
  obtain ⟨ds, rest', found, same, ⟨⟨rfl, -⟩, -⟩⟩ :=
    agree.found whole ((many1_found_iff (scope_progress _)).mpr ⟨filled, reads⟩)
  obtain ⟨filled', reads'⟩ := (many1_found_iff (scope_progress _)).mp found
  exact ⟨ds, filled', reads', same⟩

variable {left right : String} {tree tree' : ParseTree.Specification Position}

/-- A text below another one, on a line of its own, adds its scopes to those of the other. -/
theorem parse_below (parsed : parse left = .ok tree) (parsed' : parse right = .ok tree') :
    parse (left ++ "\n" ++ right) = .ok
      ⟨tree.scopes ++ (tree'.map (.down (left.toList.count '\n' + 1))).scopes⟩ := by
  obtain ⟨placed, _, found, rfl⟩ := parse_ok_iff.mp parsed
  obtain ⟨placed', _, found', rfl⟩ := parse_ok_iff.mp parsed'
  obtain ⟨last, ⟨filled, reads⟩, ended, -⟩ := recognize_found_iff.mp found
  obtain ⟨last', ⟨filled', reads'⟩, ended', -⟩ := recognize_found_iff.mp found'
  have joined : (left ++ "\n" ++ right).toList = left.toList ++ '\n' :: right.toList := by simp
  obtain ⟨ds, some, lower, places'⟩ := lower_scopes
    (m := (left.toList ++ '\n' :: right.toList).length) filled' (by simp; omega) reads' left.toList
  -- The first scope below is found where the scopes above end, since only layout is between.
  obtain ⟨opens, lower⟩ : Opens right.toList "scope" ∧
      Repeats (scope (left.toList ++ '\n' :: right.toList).length)
        (last ++ '\n' :: right.toList) ds last' := by
    cases lower with
    | stop => contradiction
    | next first _ others =>
      have behind := scope_found_of_layout (Text.skipLayout_below ended right.toList) first
      exact ⟨scope_opens first, .next behind (scope_progress _ behind) others⟩
  obtain ⟨-, cs, all, places⟩ :=
    scopes_extend ended opens reads List.suffix_rfl (Nat.le_refl _) lower
  refine parse_ok_iff.mpr ⟨⟨cs ++ ds⟩, [], ?_, ?_⟩
  · rw [joined]
    exact recognize_found_iff.mpr ⟨last', ⟨by simp [some], all⟩, ended', rfl⟩
  · rw [joined, ParseTree.Specification.map_map]
    simp only [ParseTree.Specification.map, List.map_append, ParseTree.Specification.mk.injEq]
    exact congrArg₂ List.append places.symm places'.symm

end Grammar
end SchemaLang
