import Reckon.Expr.Evaluation
import Reckon.Proofs.Numeral.ReadBack

/-!
# What an evaluation leaves of a tree

An evaluation hands intermediate values on as texts, which it reads again at the next operator.
Because every value reads back, that makes no difference: a subtree whose operands are numbers
becomes the number that a calculation on doubles gives, and nothing else is touched.

## Main definitions

* `Expr.IsNumeric text` — the operand is a number.
* `Expr.direct? e` — the value of a tree, calculated on doubles throughout.
* `Expr.folded e` — the tree with every largest subtree that has a value as one leaf.
* `Expr.subtrees e` — the tree itself and everything below it.

## Main results

* `Expr.isSome_direct?_iff` — the trees that have a value are those without a variable.
* `Expr.value?_folded` — folding keeps the value.
* `Expr.mem_operands_folded` — the operands that folding leaves.
* `Expr.of_evaluate_eq_ok` — **what an evaluation leaves, and what it tells of**.
* `Expr.solution_of_solve` — the same of its answer, with what follows from it.
-/

namespace Reckon.Expr

/-! ### Trees that have a value -/

/-- The operand is a number, and no variable. -/
def IsNumeric (text : String) : Prop := (Numeral.read? text).isSome

instance : DecidablePred IsNumeric := fun text =>
  inferInstanceAs (Decidable ((Numeral.read? text).isSome = true))

/-- The variables of a tree from left to right, once for each place where they stand. -/
def unknowns (e : Expr) : List String := e.operands.filter fun text => ¬IsNumeric text

/-- The value of a tree whose operands are numbers.  No value on the way is written down. -/
def direct? : Expr → Option Float
  | operand text => Numeral.read? text
  | binary lhs op rhs =>
    match lhs.direct?, rhs.direct? with
    | some x, some y => some (op.apply x y)
    | _, _ => none

/-- The tree with every largest subtree that has a value as one leaf.  Operands that stand alone
are left as they were written. -/
def folded : Expr → Expr
  | operand text => operand text
  | binary lhs op rhs =>
    match (binary lhs op rhs).direct? with
    | some v => operand (Numeral.write v)
    | none => binary lhs.folded op rhs.folded

/-- A tree and everything below it. -/
def subtrees : Expr → List Expr
  | operand text => [operand text]
  | binary lhs op rhs => binary lhs op rhs :: (lhs.subtrees ++ rhs.subtrees)

/-- A leaf that is a number. -/
def IsNumeral (e : Expr) : Prop := ∃ text, e = operand text ∧ IsNumeric text

theorem isNumeral_iff {e : Expr} : e.IsNumeral ↔ e.value?.isSome := by
  cases e with
  | operand text => simp [IsNumeral, value?, IsNumeric]
  | binary lhs op rhs => simp [IsNumeral, value?]

@[simp] theorem unknowns_operand (text : String) :
    (operand text).unknowns = if IsNumeric text then [] else [text] := by
  by_cases h : IsNumeric text <;> simp [unknowns, h]

@[simp] theorem unknowns_binary (lhs rhs : Expr) (op : Operator) :
    (binary lhs op rhs).unknowns = lhs.unknowns ++ rhs.unknowns := by
  simp [unknowns]

theorem unknowns_eq_nil_iff {e : Expr} :
    e.unknowns = [] ↔ ∀ text ∈ e.operands, IsNumeric text := by
  simp [unknowns, List.filter_eq_nil_iff]

theorem isNumeric_write (v : Float) : IsNumeric (Numeral.write v) := by
  rw [IsNumeric, Numeral.read?_write]
  rfl

theorem isSome_direct?_binary (lhs rhs : Expr) (op : Operator) :
    (binary lhs op rhs).direct?.isSome ↔ lhs.direct?.isSome ∧ rhs.direct?.isSome := by
  rw [direct?]
  cases lhs.direct? <;> cases rhs.direct? <;> simp

/-- **The trees that have a value are those without a variable.** -/
theorem isSome_direct?_iff (e : Expr) : e.direct?.isSome ↔ e.unknowns = [] := by
  induction e with
  | operand text =>
    change IsNumeric text ↔ _
    by_cases h : IsNumeric text <;> simp [h]
  | binary lhs op rhs ihl ihr =>
    rw [isSome_direct?_binary, ihl, ihr, unknowns_binary, List.append_eq_nil_iff]

/-! ### What folding keeps -/

/-- The leaf that a tree with a value is folded into has that value, and any other tree is no
numeral after the folding either. -/
theorem value?_folded (e : Expr) : e.folded.value? = e.direct? := by
  cases e with
  | operand text => rfl
  | binary lhs op rhs =>
    rw [folded]
    cases (binary lhs op rhs).direct? with
    | some v => exact Numeral.read?_write v
    | none => rfl

/-- The operands that folding leaves were there before, or are written for values. -/
theorem mem_operands_folded {e : Expr} :
    ∀ text ∈ e.folded.operands, text ∈ e.operands ∨ ∃ v, text = Numeral.write v := by
  induction e with
  | operand text => exact fun _ htext => .inl htext
  | binary lhs op rhs ihl ihr =>
    rw [folded]
    cases (binary lhs op rhs).direct? with
    | some v => exact fun text htext => .inr ⟨v, List.mem_singleton.mp htext⟩
    | none =>
      refine List.forall_mem_append.mpr ⟨fun text htext => ?_, fun text htext => ?_⟩
      · exact (ihl text htext).imp_left (List.mem_append_left _)
      · exact (ihr text htext).imp_left (List.mem_append_right _)

theorem unknowns_folded (e : Expr) : e.folded.unknowns = e.unknowns := by
  induction e with
  | operand text => rfl
  | binary lhs op rhs ihl ihr =>
    rw [folded]
    cases hvalue : (binary lhs op rhs).direct? with
    | some v =>
      have hclosed : (binary lhs op rhs).unknowns = [] :=
        (isSome_direct?_iff _).mp (by rw [hvalue]; rfl)
      rw [hclosed]
      simp [isNumeric_write]
    | none => simp only [unknowns_binary, ihl, ihr]

/-- No operator is left between two numbers. -/
theorem not_isNumeral_of_mem_subtrees_folded {e lhs rhs : Expr} {op : Operator}
    (h : binary lhs op rhs ∈ e.folded.subtrees) : ¬(lhs.IsNumeral ∧ rhs.IsNumeral) := by
  induction e with
  | operand text => simp [folded, subtrees] at h
  | binary l o r ihl ihr =>
    rw [folded] at h
    cases hvalue : (binary l o r).direct? with
    | some v => simp [hvalue, subtrees] at h
    | none =>
      simp only [hvalue, subtrees, List.mem_cons, List.mem_append] at h
      rcases h with h | h | h
      · -- the operator at the top stays because one of its sides has no value
        cases h
        rw [isNumeral_iff, isNumeral_iff, value?_folded, value?_folded,
          ← isSome_direct?_binary, hvalue]
        simp
      · exact ihl h
      · exact ihr h

/-! ### What an evaluation does -/

theorem unbound_evaluated (e : Expr) (text : String) : unbound [.evaluated e text] = [] := rfl

/-- Folded sides are joined into the folded tree, and no variable is told of. -/
theorem of_join_folded {lhs rhs e : Expr} {op : Operator} {events : List Event}
    (h : join lhs.folded op rhs.folded = ⟨events, .ok e⟩) :
    e = (binary lhs op rhs).folded ∧ unbound events = [] := by
  rw [join, value?_folded, value?_folded] at h
  rw [folded, direct?]
  cases hl : lhs.direct? with
  | none =>
    rw [hl] at h
    cases h
    exact ⟨rfl, rfl⟩
  | some x =>
    cases hr : rhs.direct? with
    | none =>
      rw [hl, hr] at h
      cases h
      exact ⟨rfl, rfl⟩
    | some y =>
      simp only [hl, hr] at h
      split at h
      · cases h
      · cases h
        exact ⟨rfl, unbound_evaluated _ _⟩

theorem of_evaluate_operand {text : String} {e : Expr} {events : List Event}
    (h : (operand text).evaluate = ⟨events, .ok e⟩) :
    e = operand text ∧ unbound events = (operand text).unknowns := by
  rw [evaluate] at h
  rw [unknowns_operand]
  cases hread : Numeral.read? text with
  | none =>
    rw [hread] at h
    cases h
    exact ⟨rfl, by simp [IsNumeric, hread, unbound, Event.unbound?]⟩
  | some x =>
    rw [hread] at h
    cases h
    exact ⟨rfl, by simp [IsNumeric, hread, unbound]⟩

/-- **What an evaluation leaves, and what it tells of**: the folded tree, and its variables in
order. -/
theorem of_evaluate_eq_ok : ∀ {e e' : Expr} {events : List Event},
    e.evaluate = ⟨events, .ok e'⟩ → e' = e.folded ∧ unbound events = e.unknowns := by
  intro e
  induction e with
  | operand text => exact of_evaluate_operand
  | binary lhs op rhs ihl ihr =>
    intro e' events h
    rw [evaluate] at h
    obtain ⟨l, front, rest, hl, hrest, rfl⟩ := Traced.bind_eq_ok h
    obtain ⟨r, middle, back, hr, hjoin, rfl⟩ := Traced.bind_eq_ok hrest
    obtain ⟨rfl, hlvars⟩ := ihl hl
    obtain ⟨rfl, hrvars⟩ := ihr hr
    obtain ⟨rfl, hnone⟩ := of_join_folded hjoin
    refine ⟨rfl, ?_⟩
    rw [unbound_append, unbound_append, hlvars, hrvars, hnone, List.append_nil,
      unknowns_binary]

/-- **The answer of an evaluation is the folded tree and its variables.** -/
theorem eq_of_solve {e : Expr} {s : Solution} (h : e.solve = .ok s) :
    s = ⟨e.folded, e.unknowns⟩ := by
  rw [solve] at h
  cases hresult : e.evaluate.result with
  | error d =>
    rw [hresult] at h
    cases h
  | ok e' =>
    have hevaluate : e.evaluate = ⟨e.evaluate.trace, .ok e'⟩ := by rw [← hresult]
    obtain ⟨rfl, hunknowns⟩ := of_evaluate_eq_ok hevaluate
    rw [hresult] at h
    cases h
    rw [hunknowns]

theorem solve_eq_ok_of_toOption {e : Expr} {s : Solution} (h : e.solve.toOption = some s) :
    e.solve = .ok s := by
  cases hsolve : e.solve with
  | error d => rw [hsolve] at h; cases h
  | ok s' => rw [hsolve] at h; cases h; rfl

/-- **The answer of an evaluation.**  Every largest subtree whose operands are numbers is one
leaf, with the value of a calculation on doubles, and all else is as it was.  The variables are
told of in order, and the answer still has the same ones.  So one number is left exactly when
there was no variable, and no operator is left between two numbers. -/
theorem solution_of_solve {e : Expr} {s : Solution} (h : e.solve = .ok s) :
    (∀ t : Expr, t.direct?.isSome ↔ ∀ text ∈ t.operands, IsNumeric text) ∧
      s.expr = e.folded ∧
      s.unbound = e.operands.filter (fun text => ¬IsNumeric text) ∧
      s.expr.operands.filter (fun text => ¬IsNumeric text) = s.unbound ∧
      (s.expr.IsNumeral ↔ ∀ text ∈ e.operands, IsNumeric text) ∧
      ∀ l op r, binary l op r ∈ s.expr.subtrees → ¬(l.IsNumeral ∧ r.IsNumeral) := by
  obtain rfl := eq_of_solve h
  have hclosed : ∀ t : Expr, t.direct?.isSome ↔ ∀ text ∈ t.operands, IsNumeric text :=
    fun t => (isSome_direct?_iff t).trans unknowns_eq_nil_iff
  refine ⟨hclosed, rfl, rfl, unknowns_folded e, ?_, fun _ _ _ hmem =>
    not_isNumeral_of_mem_subtrees_folded hmem⟩
  rw [isNumeral_iff, value?_folded]
  exact hclosed e

/-- The intermediate value is negative, so the text in which it is handed on has a sign, as no
operand of a source text has. -/
theorem solution_of_solve_negative :
    let e : Expr := .binary (.binary (.binary (.operand "2") .subtract (.operand "3")) .multiply
      (.operand "4")) .add (.operand "y")
    let s : Solution := ⟨.binary (.operand "-4.0") .add (.operand "y"), ["y"]⟩
    e.solve = .ok s ∧ s.expr = e.folded ∧
      s.unbound = e.operands.filter fun text => ¬IsNumeric text := by
  intro e s
  have h : e.solve = .ok s := solve_eq_ok_of_toOption (by decide +kernel)
  obtain ⟨-, hexpr, hunbound, -⟩ := solution_of_solve h
  exact ⟨h, hexpr, hunbound⟩

end Reckon.Expr
