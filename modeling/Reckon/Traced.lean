/-!
# Computations that keep a record

Building and evaluating an expression may stop with an error, and both tell what they did
on the way.  The record is part of the answer and holds also when the computation stops:
it then ends with the last thing that was done.

## Main definitions

* `Traced ρ ε α` — a record of `ρ`s, and an `α` or the error `ε` that stopped it.
* `Traced.note`, `Traced.fail` — put one thing on record, or stop.

## Main results

* `Traced.result_bind`, `Traced.trace_bind` — a second computation runs, and adds to the
  record, only behind a first one that succeeded.
* `Traced.bind_eq_ok` — what a sequence that succeeded was made of.
-/

namespace Reckon

/-- A computation's record, in order, and how it ended. -/
structure Traced (ρ ε α : Type) where
  trace : List ρ
  result : Except ε α

namespace Traced

variable {ρ ε α β : Type}

/-- Runs `f` on the result of `x`, unless `x` stopped. -/
protected def bind (x : Traced ρ ε α) (f : α → Traced ρ ε β) : Traced ρ ε β :=
  match x.result with
  | .ok a => let y := f a; ⟨x.trace ++ y.trace, y.result⟩
  | .error e => ⟨x.trace, .error e⟩

instance : Monad (Traced ρ ε) where
  pure a := ⟨[], .ok a⟩
  bind := Traced.bind

/-- Puts one thing on record. -/
def note (r : ρ) : Traced ρ ε Unit := ⟨[r], .ok ()⟩

/-- Stops with an error. -/
def fail (e : ε) : Traced ρ ε α := ⟨[], .error e⟩

@[simp] theorem trace_pure (a : α) : (pure a : Traced ρ ε α).trace = [] := rfl

@[simp] theorem result_pure (a : α) : (pure a : Traced ρ ε α).result = .ok a := rfl

@[simp] theorem trace_note (r : ρ) : (note r : Traced ρ ε Unit).trace = [r] := rfl

@[simp] theorem result_note (r : ρ) : (note r : Traced ρ ε Unit).result = .ok () := rfl

@[simp] theorem trace_fail (e : ε) : (fail e : Traced ρ ε α).trace = [] := rfl

@[simp] theorem result_fail (e : ε) : (fail e : Traced ρ ε α).result = .error e := rfl

@[simp] theorem result_bind (x : Traced ρ ε α) (f : α → Traced ρ ε β) :
    (x >>= f).result = x.result.bind fun a => (f a).result := by
  change (x.bind f).result = _
  unfold Traced.bind
  cases x.result <;> rfl

theorem trace_bind (x : Traced ρ ε α) (f : α → Traced ρ ε β) :
    (x >>= f).trace =
      x.trace ++ match x.result with
        | .ok a => (f a).trace
        | .error _ => [] := by
  change (x.bind f).trace = _
  unfold Traced.bind
  cases x.result <;> simp

theorem mk_ok_bind (trace : List ρ) (a : α) (f : α → Traced ρ ε β) :
    (⟨trace, .ok a⟩ : Traced ρ ε α) >>= f = ⟨trace ++ (f a).trace, (f a).result⟩ := rfl

/-- A sequence that comes to its end consists of two computations that do. -/
theorem bind_eq_ok {x : Traced ρ ε α} {f : α → Traced ρ ε β} {trace : List ρ} {b : β}
    (h : x >>= f = ⟨trace, .ok b⟩) :
    ∃ a front back, x = ⟨front, .ok a⟩ ∧ f a = ⟨back, .ok b⟩ ∧ trace = front ++ back := by
  obtain ⟨front, result⟩ := x
  cases result with
  | error e => cases h
  | ok a =>
    rw [mk_ok_bind, mk.injEq] at h
    exact ⟨a, front, (f a).trace, rfl, by rw [← h.2], h.1.symm⟩

instance : LawfulMonad (Traced ρ ε) := LawfulMonad.mk' (Traced ρ ε)
  (by
    intro α x
    change x.bind pure = x
    obtain ⟨trace, result⟩ := x
    cases result <;> simp [Traced.bind])
  (by intro α β a f; rfl)
  (by
    intro α β γ x f g
    change (x.bind f).bind g = x.bind fun a => (f a).bind g
    obtain ⟨trace, result⟩ := x
    cases result with
    | error e => rfl
    | ok a =>
      simp only [Traced.bind]
      cases (f a).result <;> simp)

end Traced

end Reckon
