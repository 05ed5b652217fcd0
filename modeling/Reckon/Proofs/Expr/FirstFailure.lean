import Reckon.Expr.Postfix
import Reckon.Proofs.Expr.Division

/-!
# Which division stops an evaluation

There may be many divisions by zero in a tree, and one of them is told.  An evaluation comes to the
nodes of a tree in post-order, and it fails at the first node that divides one number by another
that is zero.  What it has calculated for the sides by then is written in the place of the sides.

## Main definitions

* `Expr.FailsAt node` — no evaluation can get past the node, though it gets to it.
* `Expr.Shown side text` — what is written for a side of a division that fails.
* `Expr.FailsFirst e node` — `node` is the first node of `e` at which an evaluation fails.

## Main results

* `Expr.beq_zero_iff` — two doubles are equal to zero.
* `Expr.failsAt_iff_join` — a node fails if its sides do not and cannot be joined.
* `Expr.not_failsAt_of_solve_eq_ok`, `Expr.failsFirst_of_solve_eq_error` — the two outcomes.
* `Expr.solve_eq_error_iff_failsAt` — **which division is told**.
-/

namespace Reckon.Expr

variable {e lhs rhs : Expr} {op : Operator} {a b s : Solution} {d : DivisionByZero}

/-! ### The nodes at which an evaluation fails -/

theorem sizeOf_le_of_mem_postorder {node : Expr} (h : node ∈ e.postorder) :
    sizeOf node ≤ sizeOf e := by
  induction e with
  | operand text => rw [List.mem_singleton.mp h]
  | binary lhs op rhs ihl ihr =>
    rw [postorder, List.mem_append, List.mem_append, List.mem_singleton] at h
    rw [binary.sizeOf_spec]
    rcases h with (h | h) | rfl
    · have := ihl h
      omega
    · have := ihr h
      omega
    · rw [binary.sizeOf_spec]

/-- An evaluation fails at a division that holds numbers alone, if it fails nowhere inside and the
right side is a zero of either sign. -/
def FailsAt : Expr → Prop
  | operand _ => False
  | binary lhs op rhs =>
    op = .divide ∧ (∀ text ∈ lhs.operands ++ rhs.operands, IsNumeric text) ∧
      (∀ node ∈ lhs.postorder ++ rhs.postorder, ¬FailsAt node) ∧
        ∃ y, rhs.direct? = some y ∧ (y = 0 ∨ y = -0)
termination_by e => sizeOf e
decreasing_by
  rename_i hmem
  rw [binary.sizeOf_spec]
  rcases List.mem_append.mp hmem with h | h
  · have := sizeOf_le_of_mem_postorder h
    omega
  · have := sizeOf_le_of_mem_postorder h
    omega

/-- What is written for a side of a division that fails: an operand as it was written, and the value
of an operator. -/
inductive Shown : Expr → String → Prop where
  | operand (text : String) : Shown (operand text) text
  | value {lhs rhs : Expr} {op : Operator} {v : Float} (h : (binary lhs op rhs).direct? = some v) :
      Shown (binary lhs op rhs) (Numeral.write v)

/-- The first node of a tree at which an evaluation fails. -/
def FailsFirst (e node : Expr) : Prop :=
  ∃ before after, e.postorder = before ++ node :: after ∧
    (∀ earlier ∈ before, ¬earlier.FailsAt) ∧ node.FailsAt

/-- Two doubles are equal to zero. -/
theorem beq_zero_iff {y : Float} : y == 0 ↔ y = 0 ∨ y = -0 := by
  have hzero : (0 : Float) ≠ Float.nan := by decide +kernel
  have hminus : (-0 : Float) ≠ Float.nan := by decide +kernel
  rw [Float.beq_iff_ne_nan_and_eq]
  constructor
  · rintro ⟨-, -, h | ⟨h, -⟩ | ⟨h, -⟩⟩
    · exact .inl h
    · exact .inl h
    · exact .inr h
  · rintro (rfl | rfl)
    · exact ⟨hzero, hzero, .inl rfl⟩
    · exact ⟨hminus, hzero, .inr (.inr ⟨rfl, rfl⟩)⟩

/-- A side that has a value is folded into the leaf that is shown for it. -/
theorem exists_shown (h : e.direct?.isSome) : ∃ text, e.folded = operand text ∧ Shown e text := by
  cases e with
  | operand text => exact ⟨text, rfl, .operand text⟩
  | binary lhs op rhs =>
    obtain ⟨v, hv⟩ := Option.isSome_iff_exists.mp h
    exact ⟨Numeral.write v, by rw [folded, hv], .value hv⟩

/-! ### One node -/

/-- The sides have values if they hold numbers alone. -/
theorem isSome_direct?_sides_iff : lhs.direct?.isSome ∧ rhs.direct?.isSome ↔
    ∀ text ∈ lhs.operands ++ rhs.operands, IsNumeric text := by
  rw [List.forall_mem_append, isSome_direct?_iff, isSome_direct?_iff, unknowns_eq_nil_iff,
    unknowns_eq_nil_iff]

/-- Two sides cannot be joined when one number is to be divided by another that is zero. -/
theorem join_eq_error_iff (hl : lhs.solve = .ok a) (hr : rhs.solve = .ok b) :
    a.join op b = .error d ↔
      op = .divide ∧ (lhs.direct?.isSome ∧ rhs.direct?.isSome) ∧
        (∃ y, rhs.direct? = some y ∧ (y = 0 ∨ y = -0)) ∧ d = ⟨binary a.expr op b.expr⟩ := by
  obtain rfl := eq_of_solve hl
  obtain rfl := eq_of_solve hr
  by_cases hvalues : lhs.direct?.isSome ∧ rhs.direct?.isSome
  · obtain ⟨x, hx⟩ := Option.isSome_iff_exists.mp hvalues.1
    obtain ⟨y, hy⟩ := Option.isSome_iff_exists.mp hvalues.2
    have hzero : (∃ y, rhs.direct? = some y ∧ (y = 0 ∨ y = -0)) ↔ y == 0 := by
      rw [beq_zero_iff, hy]
      simp
    rw [Solution.join_of_value? ((value?_folded lhs).trans hx) ((value?_folded rhs).trans hy),
      hzero]
    by_cases h : op = .divide ∧ y == 0
    · rw [if_pos h]
      constructor
      · rintro ⟨⟩
        exact ⟨h.1, hvalues, h.2, rfl⟩
      · rintro ⟨-, -, -, rfl⟩
        rfl
    · rw [if_neg h]
      constructor
      · rintro ⟨⟩
      · rintro ⟨hop, -, hy, -⟩
        exact absurd ⟨hop, hy⟩ h
  · -- a side is no number, so the operator stays
    have hnumeral : ¬(lhs.folded.IsNumeral ∧ rhs.folded.IsNumeral) := by
      rwa [isNumeral_iff, isNumeral_iff, value?_folded, value?_folded]
    rw [Solution.join_of_not_isNumeral hnumeral]
    constructor
    · rintro ⟨⟩
    · rintro ⟨-, h, -⟩
      exact absurd h hvalues

/-- **A node fails if its sides do not and cannot be joined.** -/
theorem failsAt_iff_join (hl : lhs.solve = .ok a) (hr : rhs.solve = .ok b)
    (hsides : ∀ node ∈ lhs.postorder ++ rhs.postorder, ¬node.FailsAt) :
    (binary lhs op rhs).FailsAt ↔ ∃ d, a.join op b = .error d := by
  rw [FailsAt, ← isSome_direct?_sides_iff]
  constructor
  · rintro ⟨hop, hvalues, -, hzero⟩
    exact ⟨_, (join_eq_error_iff hl hr).mpr ⟨hop, hvalues, hzero, rfl⟩⟩
  · rintro ⟨d, hd⟩
    obtain ⟨hop, hvalues, hzero, -⟩ := (join_eq_error_iff hl hr).mp hd
    exact ⟨hop, hvalues, hsides, hzero⟩

/-! ### The whole tree -/

/-- **An evaluation that gives an answer has failed at no node.** -/
theorem not_failsAt_of_solve_eq_ok : ∀ {e : Expr} {s : Solution}, e.solve = .ok s →
    ∀ node ∈ e.postorder, ¬node.FailsAt := by
  intro e
  induction e with
  | operand text =>
    intro s _ node hnode
    rw [List.mem_singleton.mp hnode, FailsAt]
    exact not_false
  | binary lhs op rhs ihl ihr =>
    intro s h
    obtain ⟨a, b, hl, hr, hjoin⟩ := solve_binary_eq_ok h
    have hsides := List.forall_mem_append.mpr ⟨ihl hl, ihr hr⟩
    refine List.forall_mem_append.mpr ⟨hsides, List.forall_mem_singleton.mpr fun hfails => ?_⟩
    obtain ⟨d, hd⟩ := (failsAt_iff_join hl hr hsides).mp hfails
    rw [hjoin] at hd
    cases hd

/-- The first failure in the left side is the first of the whole. -/
theorem FailsFirst.of_lhs {node : Expr} (h : lhs.FailsFirst node) (op : Operator) (rhs : Expr) :
    (binary lhs op rhs).FailsFirst node := by
  obtain ⟨before, after, horder, hbefore, hnode⟩ := h
  refine ⟨before, after ++ rhs.postorder ++ [binary lhs op rhs], ?_, hbefore, hnode⟩
  rw [postorder, horder]
  simp

/-- The first failure in the right side is the first of the whole if there is none in the left. -/
theorem FailsFirst.of_rhs {node : Expr} (h : rhs.FailsFirst node) (op : Operator)
    (hlhs : ∀ earlier ∈ lhs.postorder, ¬earlier.FailsAt) :
    (binary lhs op rhs).FailsFirst node := by
  obtain ⟨before, after, horder, hbefore, hnode⟩ := h
  refine ⟨lhs.postorder ++ before, after ++ [binary lhs op rhs], ?_,
    List.forall_mem_append.mpr ⟨hlhs, hbefore⟩, hnode⟩
  rw [postorder, horder]
  simp

/-- **An evaluation that gives an error tells the first node at which it fails.** -/
theorem failsFirst_of_solve_eq_error : ∀ {e : Expr} {d : DivisionByZero}, e.solve = .error d →
    ∃ lhs rhs l r, e.FailsFirst (binary lhs .divide rhs) ∧ Shown lhs l ∧ Shown rhs r ∧
      d = ⟨binary (operand l) .divide (operand r)⟩ := by
  intro e
  induction e with
  | operand text =>
    intro d h
    rw [solve_operand] at h
    cases h
  | binary lhs op rhs ihl ihr =>
    intro d h
    rw [solve_binary] at h
    cases hl : lhs.solve with
    | error d' =>
      rw [hl] at h
      cases h
      obtain ⟨lhs', rhs', l, r, hfirst, hshown⟩ := ihl hl
      exact ⟨lhs', rhs', l, r, hfirst.of_lhs op rhs, hshown⟩
    | ok a =>
      have hlhs := not_failsAt_of_solve_eq_ok hl
      cases hr : rhs.solve with
      | error d' =>
        rw [hl, hr] at h
        cases h
        obtain ⟨lhs', rhs', l, r, hfirst, hshown⟩ := ihr hr
        exact ⟨lhs', rhs', l, r, hfirst.of_rhs op hlhs, hshown⟩
      | ok b =>
        -- no side fails, so it is the node itself that does
        have hsides := List.forall_mem_append.mpr ⟨hlhs, not_failsAt_of_solve_eq_ok hr⟩
        rw [hl, hr] at h
        have hjoin : a.join op b = .error d := h
        have hfails := (failsAt_iff_join hl hr hsides).mpr ⟨d, hjoin⟩
        obtain ⟨rfl, ⟨hlvalue, hrvalue⟩, -, rfl⟩ := (join_eq_error_iff hl hr).mp hjoin
        obtain ⟨l, hleft, hlshown⟩ := exists_shown hlvalue
        obtain ⟨r, hright, hrshown⟩ := exists_shown hrvalue
        refine ⟨lhs, rhs, l, r, ⟨_, [], rfl, hsides, hfails⟩, hlshown, hrshown, ?_⟩
        rw [eq_of_solve hl, eq_of_solve hr, hleft, hright]

/-- **Which division is told.**  An evaluation gives an error if and only if it fails at some node,
and then it tells the first of them, with what it has calculated for the sides. -/
theorem solve_eq_error_iff_failsAt (e : Expr) :
    ((∃ d, e.solve = .error d) ↔ ∃ node ∈ e.postorder, node.FailsAt) ∧
      ∀ d, e.solve = .error d → ∃ before lhs rhs after l r,
        e.postorder = before ++ binary lhs .divide rhs :: after ∧
          (∀ earlier ∈ before, ¬earlier.FailsAt) ∧ (binary lhs .divide rhs).FailsAt ∧
            Shown lhs l ∧ Shown rhs r ∧ d = ⟨binary (operand l) .divide (operand r)⟩ ∧
              d.division.infixText = "(" ++ l ++ " / " ++ r ++ ")" := by
  refine ⟨⟨?_, ?_⟩, ?_⟩
  · rintro ⟨d, h⟩
    obtain ⟨lhs, rhs, l, r, ⟨before, after, horder, -, hfails⟩, -⟩ :=
      failsFirst_of_solve_eq_error h
    exact ⟨_, by rw [horder]; simp, hfails⟩
  · rintro ⟨node, hmem, hfails⟩
    cases h : e.solve with
    | error d => exact ⟨d, rfl⟩
    | ok s => exact absurd hfails (not_failsAt_of_solve_eq_ok h node hmem)
  · intro d h
    obtain ⟨lhs, rhs, l, r, ⟨before, after, horder, hbefore, hfails⟩, hl, hr, rfl⟩ :=
      failsFirst_of_solve_eq_error h
    refine ⟨before, lhs, rhs, after, l, r, horder, hbefore, hfails, hl, hr, rfl, ?_⟩
    have hslash : " / " = " " ++ Operator.divide.symbol ++ " " := by decide
    rw [infixText_binary, infixText_operand, infixText_operand, hslash]
    simp only [String.append_assoc]

/-- Of four divisions by zero the first waits for a variable, the third holds the second, and the
last comes too late.  So the second is told, with the values of the operators on either side. -/
theorem solve_eq_error_iff_failsAt_nested :
    let product : Expr := .binary (.operand "3") .multiply (.operand "2")
    let zero : Expr := .binary (.operand "2") .subtract (.operand "2.0")
    let first : Expr := .binary product .divide zero
    let e : Expr := .binary (.binary (.operand "x") .divide (.operand "0")) .add
      (.binary (.binary first .divide (.operand "0")) .multiply
        (.binary (.operand "1") .divide (.operand "0")))
    let d : DivisionByZero := ⟨.binary (.operand "6.0") .divide (.operand "0.0")⟩
    e.solve = .error d ∧ (∃ node ∈ e.postorder, node.FailsAt) ∧
      ∃ before lhs rhs after l r, e.postorder = before ++ binary lhs .divide rhs :: after ∧
        (∀ earlier ∈ before, ¬earlier.FailsAt) ∧ (binary lhs .divide rhs).FailsAt ∧
          Shown lhs l ∧ Shown rhs r ∧ d = ⟨binary (operand l) .divide (operand r)⟩ ∧
            d.division.infixText = "(" ++ l ++ " / " ++ r ++ ")" := by
  intro product zero first e d
  have h : e.solve = .error d := by decide +kernel
  exact ⟨h, (solve_eq_error_iff_failsAt e).1.mp ⟨d, h⟩, (solve_eq_error_iff_failsAt e).2 d h⟩

end Reckon.Expr
