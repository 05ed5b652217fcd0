import Reckon.Proofs.Expr.Division

/-!
# Evaluating in stages

A tree can be evaluated before its variables are known, and again when they are.  Nothing that
the first evaluation did has to be undone: whatever the variables turn out to be, what it has left
of the tree gives the same answer as the tree itself, and the same error.  Only a tree in which the
first evaluation has met an error gives none later, and then every later one meets an error too.
When nothing became known in between, a later evaluation finds nothing to do.

## Main definitions

* `Expr.substitute assign e` — `e` with `assign name` in place of every variable `name`.

## Main results

* `Expr.solve_substitute_of_isNumeral` — an answer that is a number stays the answer.
* `Expr.solve_substitute_of_ok`, `Expr.solve_substitute_of_error` — the two halves.
* `Expr.solve_substitute` — **an evaluation can be staged**.
* `Expr.solve_again` — **evaluating again changes nothing**.
-/

namespace Reckon.Expr

/-- Puts `assign name` in place of every variable `name`, all at once.  Numbers stay. -/
def substitute (assign : String → Expr) : Expr → Expr
  | operand text => if IsNumeric text then operand text else assign text
  | binary lhs op rhs => binary (lhs.substitute assign) op (rhs.substitute assign)

variable {assign : String → Expr} {e : Expr} {op : Operator} {a b s : Solution}

/-! ### Numbers -/

theorem substitute_of_isNumeral (h : e.IsNumeral) : e.substitute assign = e := by
  obtain ⟨text, rfl, htext⟩ := h
  rw [substitute, if_pos htext]

/-- An answer that is a number stays the answer, whatever the variables are: there were none. -/
theorem solve_substitute_of_isNumeral (h : e.solve = .ok s) (hs : s.expr.IsNumeral) :
    (s.expr.substitute assign).solve = .ok s := by
  rw [substitute_of_isNumeral hs]
  obtain rfl := eq_of_solve h
  have hclosed : e.unknowns = [] := by
    rw [← isSome_direct?_iff, ← value?_folded]
    exact isNumeral_iff.mp hs
  obtain ⟨text, htext, hnumber⟩ := hs
  dsimp only at htext ⊢
  rw [hclosed, htext, solve_operand, unknowns_operand, if_pos hnumber]

/-- What an operator between two numbers leaves is a number. -/
theorem isNumeral_of_join (ha : a.expr.IsNumeral) (hb : b.expr.IsNumeral)
    (h : a.join op b = .ok s) : s.expr.IsNumeral := by
  obtain ⟨x, hx⟩ := Option.isSome_iff_exists.mp (isNumeral_iff.mp ha)
  obtain ⟨y, hy⟩ := Option.isSome_iff_exists.mp (isNumeral_iff.mp hb)
  rw [Solution.join_of_value? hx hy] at h
  split at h
  · cases h
  · cases h
    exact ⟨_, rfl, isNumeric_write _⟩

/-! ### The two halves -/

/-- What an evaluation has left of a tree gives the answer that the tree gives. -/
theorem solve_substitute_of_ok : ∀ {e : Expr} {s : Solution}, e.solve = .ok s →
    (s.expr.substitute assign).solve = (e.substitute assign).solve := by
  intro e
  induction e with
  | operand text =>
    intro s h
    rw [solve_operand] at h
    cases h
    rfl
  | binary lhs op rhs ihl ihr =>
    intro s h
    obtain ⟨a, b, hl, hr, hjoin⟩ := solve_binary_eq_ok h
    rw [substitute, solve_binary, ← ihl hl, ← ihr hr]
    by_cases hnumeral : a.expr.IsNumeral ∧ b.expr.IsNumeral
    · -- the sides come out as the numbers that they were, and the operator does what it did
      obtain ⟨ha, hb⟩ := hnumeral
      rw [solve_substitute_of_isNumeral hl ha, solve_substitute_of_isNumeral hr hb,
        solve_substitute_of_isNumeral h (isNumeral_of_join ha hb hjoin)]
      exact hjoin.symm
    · -- the operator has stayed, and its sides are what the evaluations have left of them
      rw [Solution.join_of_not_isNumeral hnumeral] at hjoin
      cases hjoin
      rw [substitute, solve_binary]

/-- A tree in which an evaluation meets an error has one whatever the variables are. -/
theorem solve_substitute_of_error : ∀ {e : Expr} {d : DivisionByZero}, e.solve = .error d →
    ∃ d', (e.substitute assign).solve = .error d' := by
  intro e
  induction e with
  | operand text =>
    intro d h
    rw [solve_operand] at h
    cases h
  | binary lhs op rhs ihl ihr =>
    intro d h
    rw [substitute]
    cases hl : lhs.solve with
    | error dl =>
      obtain ⟨d', hd⟩ := ihl hl
      exact exists_error_of_solve_lhs hd op _
    | ok a =>
      cases hr : rhs.solve with
      | error dr =>
        obtain ⟨d', hd⟩ := ihr hr
        exact exists_error_of_solve_rhs hd _ op
      | ok b =>
        rw [solve_binary, hl, hr] at h
        change a.join op b = .error d at h
        by_cases hnumeral : a.expr.IsNumeral ∧ b.expr.IsNumeral
        · -- the sides come out as the numbers that they were, and cannot be divided again
          obtain ⟨ha, hb⟩ := hnumeral
          rw [solve_binary, ← solve_substitute_of_ok hl, ← solve_substitute_of_ok hr,
            solve_substitute_of_isNumeral hl ha, solve_substitute_of_isNumeral hr hb]
          exact ⟨d, h⟩
        · rw [Solution.join_of_not_isNumeral hnumeral] at h
          cases h

/-- **An evaluation can be staged.**  What it has left of a tree gives the answer that the tree
gives once the variables are known, or the same error; and where it has met an error, there is one
whatever the variables turn out to be. -/
theorem solve_substitute (e : Expr) (assign : String → Expr) :
    (∀ s, e.solve = .ok s →
        (s.expr.substitute assign).solve = (e.substitute assign).solve) ∧
      ∀ d, e.solve = .error d → ∃ d', (e.substitute assign).solve = .error d' :=
  ⟨fun _ h => solve_substitute_of_ok h, fun _ h => solve_substitute_of_error h⟩

/-- A division whose right side is zero before its left side is known, and one that never can be
calculated. -/
theorem solve_substitute_zero_divisor :
    let e : Expr := .binary (.operand "x") .divide
      (.binary (.operand "2") .subtract (.operand "2"))
    let s : Solution := ⟨.binary (.operand "x") .divide (.operand "0.0"), ["x"]⟩
    let e' : Expr := .binary (.operand "y") .add (.binary (.operand "1") .divide (.operand "0"))
    let assign : String → Expr := fun _ => .operand "4"
    e.solve = .ok s ∧ (s.expr.substitute assign).solve = (e.substitute assign).solve ∧
      (∃ d, e'.solve = .error d) ∧ ∃ d', (e'.substitute assign).solve = .error d' := by
  intro e s e' assign
  have h : e.solve = .ok s := solve_eq_ok_of_toOption (by decide +kernel)
  have h' : ∃ d, e'.solve = .error d := by
    cases hsolve : e'.solve with
    | error d => exact ⟨d, rfl⟩
    | ok s' =>
      have hnone : e'.solve.toOption = none := by decide +kernel
      rw [hsolve] at hnone
      cases hnone
  obtain ⟨d, hd⟩ := h'
  exact ⟨h, (solve_substitute e assign).1 s h, ⟨d, hd⟩, (solve_substitute e' assign).2 d hd⟩

/-! ### Evaluating again -/

/-- A variable that stands for itself stays. -/
theorem substitute_operand (e : Expr) : e.substitute operand = e := by
  induction e with
  | operand text => simp [substitute]
  | binary lhs op rhs ihl ihr => rw [substitute, ihl, ihr]

/-- What an evaluation has left gives the answer of the tree, which is the case in which nothing
became known in between. -/
theorem solve_expr_of_solve (h : e.solve = .ok s) : s.expr.solve = .ok s := by
  have hstaged : (s.expr.substitute operand).solve = (e.substitute operand).solve :=
    solve_substitute_of_ok h
  rwa [substitute_operand, substitute_operand, h] at hstaged

/-- **Evaluating again changes nothing.**  What an evaluation has left of a tree can be evaluated
without an error, and the answer has the same tree and the same variables; so all answers are the
same, however often the tree is evaluated. -/
theorem solve_again (h : e.solve = .ok s) :
    s.expr.solve = .ok s ∧ ∀ n, solveRepeatedly n e = List.replicate n (.ok s) := by
  refine ⟨solve_expr_of_solve h, fun n => ?_⟩
  induction n generalizing e with
  | zero => rfl
  | succ n ih =>
    rw [solveRepeatedly, h, List.replicate_succ]
    exact congrArg _ (ih (solve_expr_of_solve h))

/-- An overflow and a tiny number are written out and read again, and a division by zero waits for
its left side through both evaluations. -/
theorem solve_again_overflow :
    let e : Expr := .binary (.binary (.operand "1e308") .multiply (.operand "10")) .subtract
      (.binary (.operand "x") .divide (.binary (.operand "1e-7") .subtract (.operand "1e-7")))
    let s : Solution := ⟨.binary (.operand "Infinity") .subtract
      (.binary (.operand "x") .divide (.operand "0.0")), ["x"]⟩
    e.solve = .ok s ∧ s.expr.solve = .ok s ∧ solveRepeatedly 3 e = [.ok s, .ok s, .ok s] := by
  intro e s
  have h : e.solve = .ok s := by decide +kernel
  exact ⟨h, (solve_again h).1, (solve_again h).2 3⟩

end Reckon.Expr
