import Reckon.Proofs.Expr.Folding

/-!
# Where an evaluation stops

The evaluation of an operator depends on the evaluations of its two sides alone, and it can stop
at one kind of node: a division whose two sides have become numbers, the right one zero.  Such a
node stops the evaluation of every tree around it.  A division by zero whose left side is not
known is no such node: it waits for its left side like any other operator.

## Main definitions

* `Expr.Solution.join a op b` — the answer for an operator, from the answers for its sides.

## Main results

* `Expr.solve_binary` — the answer for a tree comes from those for its sides.
* `Expr.exists_error_of_mem_subtrees` — an error below is an error of the whole.
* `Expr.folded_mem_subtrees` — a subtree without a value is still there, folded.
* `Expr.solve_of_zero_divisor` — **what becomes of a division by zero**.
-/

namespace Reckon.Expr

variable {e lhs rhs : Expr} {op : Operator} {a b s : Solution} {x y : Float}
  {d : DivisionByZero}

/-! ### From the sides to the whole -/

/-- The answer for an operator whose sides have the answers `a` and `b`. -/
def Solution.join (a : Solution) (op : Operator) (b : Solution) :
    Except DivisionByZero Solution :=
  (Expr.join a.expr op b.expr).result.map fun e => ⟨e, a.unbound ++ b.unbound⟩

/-- Joining two sides tells of no variable. -/
theorem unbound_trace_join (lhs : Expr) (op : Operator) (rhs : Expr) :
    unbound (join lhs op rhs).trace = [] := by
  rw [join]
  split
  · split
    · rfl
    · exact unbound_evaluated _ _
  · rfl

/-- **The answer for a tree comes from those for its sides.** -/
theorem solve_binary (lhs : Expr) (op : Operator) (rhs : Expr) :
    (binary lhs op rhs).solve =
      lhs.solve.bind fun a => rhs.solve.bind fun b => a.join op b := by
  simp only [solve, evaluate, Traced.result_bind, Traced.trace_bind]
  cases lhs.evaluate.result with
  | error d => rfl
  | ok l =>
    cases rhs.evaluate.result with
    | error d => rfl
    | ok r =>
      simp only [Except.bind, Except.map, Solution.join]
      cases (join l op r).result with
      | error d => rfl
      | ok e => simp [unbound_append, unbound_trace_join]

/-- An operand is left as it is. -/
theorem solve_operand (text : String) :
    (operand text).solve = .ok ⟨operand text, (operand text).unknowns⟩ := by
  rw [unknowns_operand]
  cases hread : Numeral.read? text with
  | none =>
    have hname : ¬IsNumeric text := by simp [IsNumeric, hread]
    rw [if_neg hname, solve, evaluate, hread]
    rfl
  | some x =>
    have hnumber : IsNumeric text := by simp [IsNumeric, hread]
    rw [if_pos hnumber, solve, evaluate, hread]
    rfl

/-- A tree has an answer only if its sides have answers that can be joined. -/
theorem solve_binary_eq_ok (h : (binary lhs op rhs).solve = .ok s) :
    ∃ a b, lhs.solve = .ok a ∧ rhs.solve = .ok b ∧ a.join op b = .ok s := by
  rw [solve_binary] at h
  cases hl : lhs.solve with
  | error d => rw [hl] at h; cases h
  | ok a =>
    cases hr : rhs.solve with
    | error d => rw [hl, hr] at h; cases h
    | ok b =>
      rw [hl, hr] at h
      exact ⟨a, b, rfl, rfl, h⟩

/-! ### What an operator can do -/

theorem value?_eq_none_iff : e.value? = none ↔ ¬e.IsNumeral := by
  rw [isNumeral_iff, Bool.not_eq_true, Option.isSome_eq_false_iff, Option.isNone_iff_eq_none]

/-- An operator stays when one of its sides is no number. -/
theorem Solution.join_of_not_isNumeral (h : ¬(a.expr.IsNumeral ∧ b.expr.IsNumeral)) :
    a.join op b = .ok ⟨binary a.expr op b.expr, a.unbound ++ b.unbound⟩ := by
  rw [Solution.join, Expr.join]
  split
  · next x y hx hy =>
    exact absurd ⟨isNumeral_iff.mpr (by rw [hx]; rfl), isNumeral_iff.mpr (by rw [hy]; rfl)⟩ h
  · rfl

/-- An operator between two numbers becomes its value, or stops the evaluation. -/
theorem Solution.join_of_value? (hx : a.expr.value? = some x) (hy : b.expr.value? = some y) :
    a.join op b =
      if op = .divide ∧ y == 0 then .error ⟨binary a.expr op b.expr⟩
      else .ok ⟨operand (Numeral.write (op.apply x y)), a.unbound ++ b.unbound⟩ := by
  rw [Solution.join, Expr.join, hx, hy]
  dsimp only
  split <;> rfl

/-! ### An error below -/

/-- An error in one of the sides is an error of the whole. -/
theorem exists_error_of_solve_lhs (h : lhs.solve = .error d) (op : Operator) (rhs : Expr) :
    ∃ d', (binary lhs op rhs).solve = .error d' := by
  rw [solve_binary, h]
  exact ⟨d, rfl⟩

theorem exists_error_of_solve_rhs (h : rhs.solve = .error d) (lhs : Expr) (op : Operator) :
    ∃ d', (binary lhs op rhs).solve = .error d' := by
  rw [solve_binary, h]
  -- the left side comes first, and its error is the one that is told if it has one
  cases lhs.solve with
  | error d' => exact ⟨d', rfl⟩
  | ok a => exact ⟨d, rfl⟩

theorem mem_subtrees_self (e : Expr) : e ∈ e.subtrees := by
  cases e <;> simp [subtrees]

/-- **An error anywhere below is an error of the whole.** -/
theorem exists_error_of_mem_subtrees {t : Expr} (h : t ∈ e.subtrees) (ht : t.solve = .error d) :
    ∃ d', e.solve = .error d' := by
  induction e with
  | operand text =>
    rw [List.mem_singleton.mp h] at ht
    exact ⟨d, ht⟩
  | binary lhs op rhs ihl ihr =>
    rw [subtrees, List.mem_cons, List.mem_append] at h
    rcases h with rfl | h | h
    · exact ⟨d, ht⟩
    · obtain ⟨d', hd⟩ := ihl h
      exact exists_error_of_solve_lhs hd op rhs
    · obtain ⟨d', hd⟩ := ihr h
      exact exists_error_of_solve_rhs hd lhs op

/-! ### A division that stays -/

/-- A side without a value leaves the whole without one. -/
theorem direct?_eq_none_of_mem_subtrees {t : Expr} (h : t ∈ e.subtrees)
    (ht : t.direct? = none) : e.direct? = none := by
  induction e with
  | operand text => rwa [List.mem_singleton.mp h] at ht
  | binary lhs op rhs ihl ihr =>
    rw [subtrees, List.mem_cons, List.mem_append] at h
    rw [direct?]
    rcases h with rfl | h | h
    · rwa [direct?] at ht
    · rw [ihl h]
    · rw [ihr h]
      cases lhs.direct? <;> rfl

/-- **A subtree without a value is still there**, folded. -/
theorem folded_mem_subtrees {t : Expr} (h : t ∈ e.subtrees) (ht : t.direct? = none) :
    t.folded ∈ e.folded.subtrees := by
  induction e with
  | operand text =>
    rw [List.mem_singleton.mp h]
    exact mem_subtrees_self _
  | binary lhs op rhs ihl ihr =>
    have hwhole : (binary lhs op rhs).direct? = none := direct?_eq_none_of_mem_subtrees h ht
    rw [subtrees, List.mem_cons, List.mem_append] at h
    rcases h with rfl | h | h
    · exact mem_subtrees_self _
    · rw [folded, hwhole]
      exact List.mem_cons_of_mem _ (List.mem_append_left _ (ihl h))
    · rw [folded, hwhole]
      exact List.mem_cons_of_mem _ (List.mem_append_right _ (ihr h))

/-- A division by a number that is zero is an error if its left side is a number too. -/
theorem exists_error_of_zero_divisor (hl : lhs.solve = .ok a) (hr : rhs.solve = .ok b)
    (hy : b.expr.value? = some y) (hzero : y == 0) (ha : a.expr.IsNumeral) :
    ∃ d, (binary lhs .divide rhs).solve = .error d := by
  obtain ⟨x, hx⟩ := Option.isSome_iff_exists.mp (isNumeral_iff.mp ha)
  rw [solve_binary, hl, hr]
  change ∃ d, a.join .divide b = .error d
  rw [Solution.join_of_value? hx hy, if_pos ⟨rfl, hzero⟩]
  exact ⟨_, rfl⟩

/-- An operator that stays is still there in what is left of a tree around it. -/
theorem mem_subtrees_of_solve (hmem : binary lhs op rhs ∈ e.subtrees) (hl : lhs.solve = .ok a)
    (hr : rhs.solve = .ok b) (ha : ¬a.expr.IsNumeral) (h : e.solve = .ok s) :
    binary a.expr op b.expr ∈ s.expr.subtrees := by
  obtain rfl := eq_of_solve hl
  obtain rfl := eq_of_solve hr
  obtain rfl := eq_of_solve h
  -- the left side has no value, so neither has the operator
  have hnone : lhs.direct? = none := by rwa [← value?_folded, value?_eq_none_iff]
  have hwhole : (binary lhs op rhs).direct? = none := by rw [direct?, hnone]
  have hfolded : (binary lhs op rhs).folded = binary lhs.folded op rhs.folded := by
    rw [folded, hwhole]
  rw [← hfolded]
  exact folded_mem_subtrees hmem hwhole

/-- **What becomes of a division by zero.**  If both its sides have become numbers, it stops the
evaluation of the whole tree.  If the left one has not, it is no error: the division stays, and it
is still there in what an evaluation leaves of the tree. -/
theorem solve_of_zero_divisor (hmem : binary lhs .divide rhs ∈ e.subtrees)
    (hl : lhs.solve = .ok a) (hr : rhs.solve = .ok b) (hy : b.expr.value? = some y)
    (hzero : y == 0) :
    (a.expr.IsNumeral → ∃ d, e.solve = .error d) ∧
      (¬a.expr.IsNumeral →
        (binary lhs .divide rhs).solve =
            .ok ⟨binary a.expr .divide b.expr, a.unbound ++ b.unbound⟩ ∧
          ∀ s, e.solve = .ok s → binary a.expr .divide b.expr ∈ s.expr.subtrees) := by
  refine ⟨fun ha => ?_, fun ha => ⟨?_, fun s hs => mem_subtrees_of_solve hmem hl hr ha hs⟩⟩
  · obtain ⟨d, hd⟩ := exists_error_of_zero_divisor hl hr hy hzero ha
    exact exists_error_of_mem_subtrees hmem hd
  · rw [solve_binary, hl, hr]
    exact Solution.join_of_not_isNumeral fun h => ha h.1

/-- The right side becomes zero beside a variable, and stops the evaluation of the whole tree. -/
theorem solve_of_zero_divisor_reduced :
    let lhs : Expr := .operand "4"
    let rhs : Expr := .binary (.operand "2") .subtract (.operand "2")
    let e : Expr := .binary (.operand "x") .add (.binary lhs .divide rhs)
    binary lhs .divide rhs ∈ e.subtrees ∧ lhs.solve = .ok ⟨lhs, []⟩ ∧
      rhs.solve = .ok ⟨operand "0.0", []⟩ ∧ (operand "0.0").value? = some 0 ∧
      (operand "4").IsNumeral ∧ ∃ d, e.solve = .error d := by
  intro lhs rhs e
  have hmem : binary lhs .divide rhs ∈ e.subtrees := by decide
  have hl : lhs.solve = .ok ⟨lhs, []⟩ := solve_eq_ok_of_toOption (by decide +kernel)
  have hr : rhs.solve = .ok ⟨operand "0.0", []⟩ := solve_eq_ok_of_toOption (by decide +kernel)
  have hy : (operand "0.0").value? = some 0 := by decide +kernel
  have hnumeral : (operand "4").IsNumeral := isNumeral_iff.mpr (by decide +kernel)
  exact ⟨hmem, hl, hr, hy, hnumeral,
    (solve_of_zero_divisor hmem hl hr hy (by decide +kernel)).1 hnumeral⟩

/-- A variable divided by zero is no error, and stays as it is. -/
theorem solve_variable_over_zero :
    let e : Expr := .binary (.operand "x") .divide (.operand "0")
    e ∈ e.subtrees ∧ (operand "x").solve = .ok ⟨operand "x", ["x"]⟩ ∧
      (operand "0").solve = .ok ⟨operand "0", []⟩ ∧ (operand "0").value? = some 0 ∧
      e.solve = .ok ⟨e, ["x"]⟩ := by
  intro e
  have hmem : e ∈ e.subtrees := by decide
  have hl : (operand "x").solve = .ok ⟨operand "x", ["x"]⟩ :=
    solve_eq_ok_of_toOption (by decide +kernel)
  have hr : (operand "0").solve = .ok ⟨operand "0", []⟩ :=
    solve_eq_ok_of_toOption (by decide +kernel)
  exact ⟨hmem, hl, hr, by decide +kernel, solve_eq_ok_of_toOption (by decide +kernel)⟩

end Reckon.Expr
