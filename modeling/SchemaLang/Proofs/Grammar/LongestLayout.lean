import SchemaLang.Proofs.Grammar.Piece

/-! The layout that is skipped is the longest there is. It is made of blanks and comments, what is
behind it begins with neither, and layout in front of a text makes no difference to what is left. -/
namespace SchemaLang

open Text Scan

/-- The text begins with no blank and with no comment. A block comment that is never closed is
none. -/
structure NoLayoutAhead (s : Text) : Prop where
  blank : ∀ c ∈ s.head?, c ∉ [' ', '\t', '\r', '\n']
  lineComment : ¬ ['/', '/'] <+: s
  blockComment : ∀ inside, s = '/' :: '*' :: inside → ¬ ['*', '/'] <:+: inside

/-- A text with a closing mark has a first one. -/
theorem afterCommentEnd?_of_infix {s : Text} (closed : ['*', '/'] <:+: s) :
    ∃ rest, afterCommentEnd? s = some rest := by
  obtain ⟨before, after, rfl⟩ := closed
  induction before with
  | nil => exact ⟨after, rfl⟩
  | cons c before ih =>
    obtain ⟨rest, found⟩ := ih
    rw [List.cons_append, List.cons_append, afterCommentEnd?.eq_def]
    split
    · exact ⟨_, rfl⟩
    · rename_i same
      obtain ⟨-, rfl⟩ := List.cons.inj same
      exact ⟨rest, found⟩
    · contradiction

theorem noLayoutAhead_of_solid (solid : afterLayoutUnit? s = none) : NoLayoutAhead s := by
  refine ⟨fun c head blank => ?_, ?_, ?_⟩
  · obtain ⟨rest, rfl⟩ := List.head?_eq_some_iff.mp head
    simp [(LayoutUnit.blank (isLayoutBlank_iff.mpr blank)).skipped] at solid
  · rintro ⟨rest, rfl⟩
    simp [afterLayoutUnit?_lineComment] at solid
  · rintro inside rfl closed
    obtain ⟨rest, found⟩ := afterCommentEnd?_of_infix closed
    simp [afterLayoutUnit?_blockComment, found] at solid

/-- The only piece that depends on what stands behind it is a line comment at the end. -/
theorem LayoutPieces.in_front (layout : LayoutPieces pieces [])
    (ends : ∀ u ∈ pieces.getLast?, ¬ ['/', '/'] <+: u) (s : Text) : LayoutPieces pieces s := by
  induction pieces with
  | nil => exact .nil
  | cons u pieces ih =>
    obtain ⟨⟩ | ⟨piece, others⟩ := layout
    have inner : ∀ v ∈ pieces.getLast?, ¬ ['/', '/'] <+: v := by
      intro v last
      exact ends v (by simp [List.getLast?_cons, Option.mem_def.mp last])
    refine .cons ?_ (ih others inner)
    cases piece with
    | blanks filled blank => exact .blanks filled blank
    | blockComment clear => exact .blockComment clear
    | @lineComment body _ inside stop =>
      cases others with
      | nil => exact absurd ⟨body, rfl⟩ (ends _ rfl)
      | cons next =>
        obtain ⟨d, v, rfl⟩ := List.exists_cons_of_ne_nil next.filled
        exact .lineComment inside fun c head => stop c head

/-- Skipping never fails. It removes blanks and comments, one behind the other, up to a place where
none begins and where nothing more is skipped, and no layout in front of the text is longer. Layout
that does not end in a line comment can be put in front of any text without an effect. -/
theorem layout_longest :
    (∀ s, ∃ pieces rest, layout s = .found () rest ∧ layoutPiece.many s = .found pieces rest ∧
      s = pieces.flatten ++ rest ∧ LayoutPieces pieces rest ∧ NoLayoutAhead rest ∧
      layout rest = .found () rest ∧
      ∀ others later, s = others.flatten ++ later → LayoutPieces others later → rest <:+ later) ∧
    ∀ pieces, LayoutPieces pieces [] → (∀ u ∈ pieces.getLast?, ¬ ['/', '/'] <+: u) →
      ∀ x, layout (pieces.flatten ++ x) = layout x := by
  have absorbed {pieces : List Text} {x : Text} (layout : LayoutPieces pieces x) :
      skipLayout (pieces.flatten ++ x) = skipLayout x := skipLayout_gap layout.gap
  constructor
  · intro s
    obtain ⟨pieces, found, split, layout⟩ := many_layoutPiece s
    refine ⟨pieces, s.skipLayout, rfl, found, split, layout,
      noLayoutAhead_of_solid (afterLayoutUnit?_skipLayout s), ?_, ?_⟩
    · exact congrArg (Outcome.found ()) (skipLayout_skipLayout s)
    · rintro others later rfl layout
      exact absorbed layout ▸ (gap_skipLayout later).suffix
  · intro pieces layout ends x
    exact congrArg (Outcome.found ()) (absorbed (layout.in_front ends x))

/-- The block comment holds a slash and a star in front of its closing mark, and the text behind the
layout looks like a comment and is none. -/
theorem layout_longest_lookalike :
    let pieces := ["/*/**/".toList, "// */".toList, "\n ".toList]
    LayoutPieces pieces [] ∧ (∀ u ∈ pieces.getLast?, ¬ ['/', '/'] <+: u) ∧
      layout "/*/**/// */\n /*/".toList = layout "/*/".toList := by
  intro pieces
  have block : LayoutPiece "/*/**/".toList "// */\n ".toList :=
    @LayoutPiece.blockComment ['/', '*'] _ (by decide)
  have line : LayoutPiece "// */".toList "\n ".toList :=
    @LayoutPiece.lineComment " */".toList "\n ".toList (by simp) (by simp)
  have blanks : LayoutPiece "\n ".toList [] := .blanks (by simp) (by simp)
  have layout : LayoutPieces pieces [] := .cons block (.cons line (.cons blanks .nil))
  have ends : ∀ u ∈ pieces.getLast?, ¬ ['/', '/'] <+: u := by decide
  exact ⟨layout, ends, layout_longest.2 pieces layout ends "/*/".toList⟩

end SchemaLang
