import SchemaLang.Grammar.Expected
import SchemaLang.Text.Layout

/-! Recognizers that read from the start of a text. A recognizer finds a value and the rest of
the text, or reports its construct absent, or finds it begun and broken. Absence lets a
choice, a repetition or an optional part go on without the construct; breakage ends the whole
scan. Both failures tell where they stand. -/
namespace SchemaLang

inductive Outcome (α : Type) where
  | found (value : α) (rest : Text)
  | absent (stop : Text)
  | broken (stop : Text) (expected : Expected)
  deriving DecidableEq, Repr

def Scan (α : Type) := Text → Outcome α

namespace Scan

instance : Monad Scan where
  pure a := fun s => .found a s
  bind p f := fun s =>
    match p s with
    | .found a rest => f a rest
    | .absent stop => .absent stop
    | .broken stop e => .broken stop e

/-- The second recognizer is tried where the first reports absence. Its failure is kept. -/
instance : OrElse (Scan α) where
  orElse p q := fun s =>
    match p s with
    | .found a rest => .found a rest
    | .absent _ => q () s
    | .broken stop e => .broken stop e

theorem pure_apply (a : α) (s : Text) : (pure a : Scan α) s = .found a s := rfl

theorem bind_apply (p : Scan α) (f : α → Scan β) (s : Text) :
    (p >>= f) s = match p s with
      | .found a rest => f a rest
      | .absent stop => .absent stop
      | .broken stop e => .broken stop e := rfl

theorem orElse_apply (p q : Scan α) (s : Text) :
    (p <|> q) s = match p s with
      | .found a rest => .found a rest
      | .absent _ => q s
      | .broken stop e => .broken stop e := rfl

instance : LawfulMonad Scan := LawfulMonad.mk' Scan
  (fun p => by funext s; simp only [Functor.map]; cases p s <;> rfl)
  (fun _ _ => rfl)
  (fun p f g => by funext s; simp only [bind]; cases p s <;> rfl)

/-- Always absent. -/
def missing : Scan α := fun s => .absent s

/-- The place reached, without reading. -/
def here : Scan Text := fun s => .found s s

def layout : Scan Unit := fun s => .found () s.skipLayout

/-- Exactly the characters of `word`. -/
def tag (word : String) : Scan Text := fun s =>
  match word.toList.isPrefixOf? s with
  | some rest => .found word.toList rest
  | none => .absent s

/-- Keeps the values that `f` accepts; another one makes the construct absent at its start. -/
def select (f : α → Option β) (p : Scan α) : Scan β := fun s =>
  match p s with
  | .found a rest =>
    match f a with
    | some b => .found b rest
    | none => .absent s
  | .absent stop => .absent stop
  | .broken stop e => .broken stop e

/-- Commits to the construct: its absence breaks the scan. -/
def expecting (e : Expected) (p : Scan α) : Scan α := fun s =>
  match p s with
  | .found a rest => .found a rest
  | .absent stop => .broken stop e
  | .broken stop e' => .broken stop e'

/-- An optional construct. Where it is absent nothing is read. -/
def maybe (p : Scan α) : Scan (Option α) := fun s =>
  match p s with
  | .found a rest => .found (some a) rest
  | .absent _ => .found none s
  | .broken stop e => .broken stop e

/-- As many as there are, one after the other. An empty one would be found for ever and ends
the repetition. -/
def many (p : Scan α) : Scan (List α) := fun s =>
  match p s with
  | .found a rest =>
    if rest.length < s.length then
      match many p rest with
      | .found as rest' => .found (a :: as) rest'
      | .absent stop => .absent stop
      | .broken stop e => .broken stop e
    else .found [] s
  | .absent _ => .found [] s
  | .broken stop e => .broken stop e
termination_by s => s.length

/-- At least one. -/
def many1 (p : Scan α) : Scan (List α) := do
  let first ← p
  let others ← many p
  pure (first :: others)

/-- At least one, with separators between. A separator that nothing follows is not read. -/
def sepBy1 (p : Scan α) (separator : Scan β) : Scan (List α) := do
  let first ← p
  let others ← many (do let _ ← separator; p)
  pure (first :: others)

end Scan
end SchemaLang
