import Mathlib.Data.List.Basic
import SchemaLang.Proofs.ParseTree.Meaning
import SchemaLang.Proofs.ParseTree.Tokens

/-! The numbers of a tree that are read: type ids and discriminants, and sizes of octets. What is
written beside an enum value is not among them. Their faults are the literal faults of the tree. -/
namespace SchemaLang

variable {π : Type}

inductive NumeralRole where
  | integer | size
  deriving DecidableEq, Repr

/-- A token that has to be a number. -/
structure Numeral (π : Type) where
  role : NumeralRole
  token : Token π
  deriving DecidableEq, Repr

/-- The error of a result that is one. -/
def refusal? : Except ε α → Option ε
  | .ok _ => none
  | .error e => some e

theorem Token.accepted_iff (read : Text → Except LiteralFault α) (t : Token π) :
    refusal? ((read t.text.toList).mapError (BuildError.malformedLiteral t.text · none)) = none ↔
      t.faults read = [] := by
  unfold Token.faults
  cases read t.text.toList <;> simp [refusal?, Except.mapError]

theorem Token.faults_of_refused (read : Text → Except LiteralFault α) (t : Token π)
    (refused : refusal? ((read t.text.toList).mapError
      (BuildError.malformedLiteral t.text · none)) ≠ none) :
    ∃ fault, refusal? ((read t.text.toList).mapError (BuildError.malformedLiteral t.text · none)) =
        some (.malformedLiteral t.text fault none) ∧
      t.faults read = [.literal t.text fault t.place] := by
  unfold Token.faults
  cases same : read t.text.toList with
  | ok => simp [same, refusal?, Except.mapError] at refused
  | error fault => exact ⟨fault, rfl, rfl⟩

namespace Numeral

/-- What the reader of its role has against the number. -/
def error? (n : Numeral π) : Option BuildError :=
  match n.role with
  | .integer => refusal? (Literal.parseInt (some n.token.text))
  | .size => refusal? (Literal.parseSize n.token.text)

def faults (n : Numeral π) : List (Fault π) :=
  match n.role with
  | .integer => n.token.faults Literal.readInt
  | .size => n.token.faults Literal.readSize

theorem error?_eq_none_iff {n : Numeral π} : n.error? = none ↔ n.faults = [] := by
  obtain ⟨role, token⟩ := n
  cases role with
  | integer => exact token.accepted_iff Literal.readInt
  | size => exact token.accepted_iff Literal.readSize

/-- The reader names the whole text and no place. -/
theorem faults_of_error? {n : Numeral π} (refused : n.error? ≠ none) :
    ∃ fault, n.error? = some (.malformedLiteral n.token.text fault none) ∧
      n.faults = [.literal n.token.text fault n.token.place] := by
  obtain ⟨role, token⟩ := n
  cases role with
  | integer => exact token.faults_of_refused Literal.readInt refused
  | size => exact token.faults_of_refused Literal.readSize refused

end Numeral

def Fault.isLiteral : Fault π → Bool
  | literal .. => true
  | octets .. => false

theorem Token.filter_faults (read : Text → Except LiteralFault α) (t : Token π) :
    (t.faults read).filter Fault.isLiteral = t.faults read := by
  unfold Token.faults
  cases read t.text.toList <;> rfl

namespace ParseTree

def TypeSpec.numerals : TypeSpec π → List (Numeral π)
  | .octets _ (some size) _ => [⟨.size, size⟩]
  | _ => []

def Struct.numerals (s : Struct π) : List (Numeral π) :=
  s.typeId.toList.map (⟨.integer, ·⟩) ++ s.members.flatMap (·.type.numerals)

def Case.numerals (c : Case π) : List (Numeral π) :=
  ⟨.integer, c.value⟩ :: c.members.flatMap (·.type.numerals)

def Declaration.numerals : Declaration π → List (Numeral π)
  | .enum _ => []
  | .struct s => s.numerals
  | .union u => u.cases.flatMap Case.numerals

mutual
def Item.numerals : Item π → List (Numeral π)
  | .scope _ items => Item.allNumerals items
  | .declaration d => d.numerals
def Item.allNumerals : List (Item π) → List (Numeral π)
  | [] => []
  | i :: is => i.numerals ++ Item.allNumerals is
end

def Specification.numerals (s : Specification π) : List (Numeral π) :=
  s.scopes.flatMap fun scope => Item.allNumerals scope.items

/-- The tokens of the numbers are found in this order among all tokens. -/
def Within (numerals : List (Numeral π)) (tokens : List (Token π)) : Prop :=
  (numerals.map Numeral.token).Sublist tokens

theorem Within.append {ns ms : List (Numeral π)} (first : Within ns ts) (later : Within ms us) :
    Within (ns ++ ms) (ts ++ us) := by
  rw [Within, List.map_append]
  exact List.Sublist.append first later

theorem Within.cons {ns : List (Numeral π)} (inside : Within ns ts) (t : Token π) :
    Within ns (t :: ts) :=
  List.Sublist.cons t inside

theorem Within.flatMap {numerals : α → List (Numeral π)}
    (each : ∀ a, Within (numerals a) (tokens a)) (as : List α) :
    Within (as.flatMap numerals) (as.flatMap tokens) := by
  induction as with
  | nil => exact List.nil_sublist []
  | cons a as ih => exact (each a).append ih

theorem TypeSpec.numerals_within (t : TypeSpec π) : Within t.numerals t.tokens := by
  cases t with
  | primitive | named => exact List.nil_sublist _
  | octets keyword size field =>
    cases size with
    | none => exact List.nil_sublist _
    | some size => simp [Within, numerals, tokens]

theorem Member.numerals_within (m : Member π) : Within m.type.numerals m.tokens :=
  List.append_nil m.type.numerals ▸ m.type.numerals_within.append (List.nil_sublist [m.name])

theorem Struct.numerals_within (s : Struct π) : Within s.numerals s.tokens := by
  have typeId : Within (s.typeId.toList.map (⟨.integer, ·⟩)) (s.typeId.toList ++ s.supertype.toList) := by
    simp [Within, Function.comp_def]
  exact (typeId.append (.flatMap Member.numerals_within s.members)).cons s.name

theorem Case.numerals_within (c : Case π) : Within c.numerals c.tokens :=
  List.Sublist.cons_cons c.value (Within.flatMap Member.numerals_within c.members)

theorem Declaration.numerals_within (d : Declaration π) : Within d.numerals d.tokens := by
  cases d with
  | enum e => exact List.nil_sublist _
  | struct s => exact s.numerals_within
  | union u =>
    have cases := Within.flatMap Case.numerals_within u.cases
    exact ((List.nil_sublist u.discriminantType.toList : Within [] _).append cases).cons u.name

mutual
theorem Item.numerals_within (i : Item π) : Within i.numerals i.tokens := by
  cases i with
  | declaration d => exact d.numerals_within
  | scope name items => exact (Item.allNumerals_within items).cons name
theorem Item.allNumerals_within (items : List (Item π)) :
    Within (Item.allNumerals items) (Item.allTokens items) := by
  cases items with
  | nil => exact List.nil_sublist _
  | cons i is => exact i.numerals_within.append (Item.allNumerals_within is)
end

theorem Scope.numerals_within (s : Scope π) : Within (Item.allNumerals s.items) s.tokens :=
  (Item.allNumerals_within s.items).cons s.name

theorem Specification.numerals_within (s : Specification π) : Within s.numerals s.tokens :=
  .flatMap Scope.numerals_within s.scopes

/-- The literal faults of some part are those of its numbers. -/
def Covers (numerals : List (Numeral π)) (faults : List (Fault π)) : Prop :=
  faults.filter Fault.isLiteral = numerals.flatMap Numeral.faults

theorem Covers.append {ns ms : List (Numeral π)} (first : Covers ns fs) (later : Covers ms gs) :
    Covers (ns ++ ms) (fs ++ gs) := by
  rw [Covers, List.filter_append, List.flatMap_append, first, later]

theorem Covers.flatMap {numerals : α → List (Numeral π)} {faults : α → List (Fault π)}
    (each : ∀ a, Covers (numerals a) (faults a)) (as : List α) :
    Covers (as.flatMap numerals) (as.flatMap faults) := by
  induction as with
  | nil => rfl
  | cons a as ih => exact (each a).append ih

theorem TypeSpec.numerals_cover (t : TypeSpec π) : Covers t.numerals t.faults := by
  cases t with
  | primitive kind keyword => cases kind <;> rfl
  | named => rfl
  | octets keyword size field =>
    cases size with
    | none => cases field <;> rfl
    | some size =>
      have read := size.filter_faults Literal.readSize
      cases field <;> simp [Covers, numerals, faults, Numeral.faults, read, Fault.isLiteral]

theorem integer_covers (t : Token π) : Covers [⟨.integer, t⟩] (t.faults Literal.readInt) := by
  simp [Covers, Numeral.faults, Token.filter_faults]

theorem members_cover (members : List (Member π)) :
    Covers (members.flatMap (·.type.numerals)) (members.flatMap (·.type.faults)) :=
  .flatMap (fun m => m.type.numerals_cover) members

theorem Struct.numerals_cover (s : Struct π) : Covers s.numerals s.faults := by
  rw [numerals, List.map_eq_flatMap]
  exact (Covers.flatMap integer_covers s.typeId.toList).append (members_cover s.members)

theorem Case.numerals_cover (c : Case π) : Covers c.numerals c.faults :=
  (integer_covers c.value).append (members_cover c.members)

theorem Declaration.numerals_cover (d : Declaration π) : Covers d.numerals d.faults := by
  cases d with
  | enum e => rfl
  | struct s => exact s.numerals_cover
  | union u => exact .flatMap Case.numerals_cover u.cases

mutual
theorem Item.numerals_cover (i : Item π) : Covers i.numerals i.faults := by
  cases i with
  | declaration d => exact d.numerals_cover
  | scope name items => exact Item.allNumerals_cover items
theorem Item.allNumerals_cover (items : List (Item π)) :
    Covers (Item.allNumerals items) (Item.allFaults items) := by
  cases items with
  | nil => rfl
  | cons i is => exact i.numerals_cover.append (Item.allNumerals_cover is)
end

theorem Specification.numerals_cover (s : Specification π) : Covers s.numerals s.faults :=
  .flatMap (fun scope : Scope π => Item.allNumerals_cover scope.items) s.scopes

end ParseTree
end SchemaLang
