/-!
# Computations that leave a trace

A `Traced` computation has a value and the list of what it noted on the way. An `Attempt` may also
fail, and what it noted before the failure is kept.

* `Attempt.outcome` reads off how an attempt ended. It takes `pure`, `throw` and `>>=` of attempts to
  those of `Except`, so a statement about outcomes need not mention traces.
-/
namespace SymbolicAlgebra

/-- A value and what was noted while it was computed, oldest first. -/
structure Traced (τ : Type) (β : Type) where
  events : List τ
  value : β
deriving Repr

namespace Traced

variable {τ β γ : Type}

instance : Monad (Traced τ) where
  pure x := ⟨[], x⟩
  bind x f := ⟨x.events ++ (f x.value).events, (f x.value).value⟩

/-- Adds to the trace. -/
def note (event : τ) : Traced τ Unit := ⟨[event], ()⟩

/-- The result of a step that is noted, or a value that needs none. -/
def ofStep (step : Option (τ × β)) (otherwise : β) : Traced τ β :=
  match step with
  | some (event, x) => ⟨[event], x⟩
  | none => ⟨[], otherwise⟩

@[simp] theorem value_pure (x : β) : (pure x : Traced τ β).value = x := rfl
@[simp] theorem events_pure (x : β) : (pure x : Traced τ β).events = [] := rfl

@[simp] theorem value_bind (x : Traced τ β) (f : β → Traced τ γ) :
    (x >>= f).value = (f x.value).value := rfl

@[simp] theorem events_bind (x : Traced τ β) (f : β → Traced τ γ) :
    (x >>= f).events = x.events ++ (f x.value).events := rfl

@[simp] theorem value_map (f : β → γ) (x : Traced τ β) : (f <$> x).value = f x.value := rfl
@[simp] theorem events_map (f : β → γ) (x : Traced τ β) : (f <$> x).events = x.events :=
  List.append_nil _

@[ext] theorem ext {x y : Traced τ β} (he : x.events = y.events) (hv : x.value = y.value) :
    x = y := by
  cases x; cases y; cases he; cases hv; rfl

instance : LawfulMonad (Traced τ) :=
  LawfulMonad.mk' _ (fun x => by ext <;> simp) (fun x f => by ext <;> simp)
    (fun x f g => by ext <;> simp)

end Traced

/-- A traced computation that may fail. -/
abbrev Attempt (ε τ : Type) (β : Type) := ExceptT ε (Traced τ) β

namespace Attempt

variable {ε δ τ β γ : Type}

/-- A traced computation that does not fail. -/
def traced (x : Traced τ β) : Attempt ε τ β := ExceptT.mk ⟨x.events, .ok x.value⟩

/-- A computation that notes nothing. -/
def ofExcept (x : Except ε β) : Attempt ε τ β := ExceptT.mk ⟨[], x⟩

/-- Adds to the trace. -/
def note (event : τ) : Attempt ε τ Unit := traced (Traced.note event)

/-- The same attempt with its failure reported in other terms. -/
def mapError (f : ε → δ) (x : Attempt ε τ β) : Attempt δ τ β :=
  ExceptT.mk ⟨x.run.events, x.run.value.mapError f⟩

/-- How an attempt ended. -/
def outcome (x : Attempt ε τ β) : Except ε β := x.run.value

/-- What an attempt noted. -/
def events (x : Attempt ε τ β) : List τ := x.run.events

@[simp] theorem outcome_pure (x : β) : outcome (pure x : Attempt ε τ β) = pure x := rfl
@[simp] theorem outcome_throw (e : ε) : outcome (throw e : Attempt ε τ β) = throw e := rfl

@[simp] theorem outcome_bind (x : Attempt ε τ β) (f : β → Attempt ε τ γ) :
    outcome (x >>= f) = x.outcome >>= fun y => (f y).outcome := by
  simp only [outcome, ExceptT.run_bind, Traced.value_bind]
  cases x.run.value <;> rfl

@[simp] theorem outcome_traced (x : Traced τ β) :
    outcome (traced x : Attempt ε τ β) = pure x.value := rfl

@[simp] theorem outcome_ofExcept (x : Except ε β) :
    outcome (ofExcept x : Attempt ε τ β) = x := rfl

@[simp] theorem outcome_note (event : τ) : outcome (note event : Attempt ε τ Unit) = pure () := rfl

@[simp] theorem outcome_mapError (f : ε → δ) (x : Attempt ε τ β) :
    outcome (mapError f x) = x.outcome.mapError f := rfl

end Attempt
end SymbolicAlgebra
