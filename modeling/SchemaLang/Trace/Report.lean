import SchemaLang.Trace.Event

/-! A result together with the events on the way to it. An error ends the work, and the events
before it remain. -/
namespace SchemaLang

structure Report (ε α : Type) where
  events : List Event
  result : Except ε α

namespace Report

@[ext] theorem ext {r s : Report ε α} (events : r.events = s.events)
    (result : r.result = s.result) : r = s := by
  cases r; cases s; simp_all

def ofExcept (result : Except ε α) : Report ε α := ⟨[], result⟩

def emit (e : Event) : Report ε Unit := ⟨[e], .ok ()⟩

instance : Monad (Report ε) where
  pure a := ⟨[], .ok a⟩
  bind r f :=
    match r.result with
    | .ok a => ⟨r.events ++ (f a).events, (f a).result⟩
    | .error e => ⟨r.events, .error e⟩

theorem pure_def (a : α) : (pure a : Report ε α) = ⟨[], .ok a⟩ := rfl

@[simp] theorem bind_ok (events : List Event) (a : α) (f : α → Report ε β) :
    (⟨events, .ok a⟩ >>= f) = ⟨events ++ (f a).events, (f a).result⟩ := rfl

@[simp] theorem bind_error (events : List Event) (e : ε) (f : α → Report ε β) :
    ((⟨events, .error e⟩ : Report ε α) >>= f) = ⟨events, .error e⟩ := rfl

instance : LawfulMonad (Report ε) := LawfulMonad.mk' (Report ε)
  (by rintro α ⟨events, _ | a⟩ <;> simp [Functor.map])
  (by intro α β a f; simp [pure_def])
  (by
    rintro α β γ ⟨events, _ | a⟩ f g
    · rfl
    · simp only [bind_ok]
      obtain ⟨later, _ | b⟩ := f a <;> simp)

/-- Gives an error the words of the caller. -/
def mapError (f : ε → δ) (r : Report ε α) : Report δ α := ⟨r.events, r.result.mapError f⟩

end Report
end SchemaLang
