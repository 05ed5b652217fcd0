import Reckon.Expr.Postfix
import Reckon.Proofs.Expr.Folding

/-!
# Evaluation as a stack machine sees it

A walk gives the elements of a tree one at a time, and a machine with a stack of doubles
calculates with them.  Once every variable has a value, the machine finds the value of the
tree, and it finds the same for what an evaluation has left of the tree.  It sees texts alone,
so an operand must not look like an operator.

## Main definitions

* `Expr.Walk.drain` — all elements that a walk gives, until it gives none.
* `Expr.valueUnder env` — the value of a tree when `env` says what the variables are.
* `Expr.calculate env` — what the machine makes of a row of elements.

## Main results

* `Expr.Walk.drain_ofExpr` — a walk gives the elements in the order of postfix notation.
* `Expr.foldlM_calculateStep` — the machine puts the value of a tree on any stack.
* `Expr.valueUnder_folded` — folding keeps the value, whatever the variables are.
* `Expr.calculate_of_solve` — **a tree and what an evaluation leaves of it have one value**.
-/

namespace Reckon.Expr

/-! ### Walking through a tree -/

namespace Walk

/-- What a walk has still to give. -/
def ahead : Walk → List Item
  | [] => []
  | .inl e :: later => e.items ++ ahead later
  | .inr op :: later => .operator op :: ahead later

theorem ahead_descend : ∀ (e : Expr) (later : Walk),
    .operand (descend e later).1 :: ahead (descend e later).2 = e.items ++ ahead later := by
  intro e
  induction e with
  | operand text => exact fun later => rfl
  | binary lhs op rhs ihl _ =>
    intro later
    rw [descend, ihl]
    simp [ahead, items]

/-- A step gives the first of what is ahead. -/
theorem ahead_of_next? {walk after : Walk} {item : Item} (h : walk.next? = some (item, after)) :
    walk.ahead = item :: after.ahead := by
  match walk with
  | [] => cases h
  | .inl e :: later =>
    cases h
    exact (ahead_descend e later).symm
  | .inr op :: later =>
    cases h
    rfl

/-- No step is left only when nothing is ahead. -/
theorem ahead_of_next?_none {walk : Walk} (h : walk.next? = none) : walk.ahead = [] := by
  match walk with
  | [] => rfl
  | .inl _ :: _ => cases h
  | .inr _ :: _ => cases h

/-- All elements that a walk gives. -/
def drain (walk : Walk) : List Item :=
  match _h : walk.next? with
  | none => []
  | some (item, after) => item :: after.drain
termination_by walk.ahead.length
decreasing_by simp [ahead_of_next? _h]

theorem drain_eq_ahead (walk : Walk) : walk.drain = walk.ahead := by
  induction walk using drain.induct with
  | case1 walk h =>
    rw [drain, ahead_of_next?_none h]
    split
    · rfl
    · next hsome => rw [h] at hsome; cases hsome
  | case2 walk item after h ih =>
    rw [drain, ahead_of_next? h]
    split
    · next hnone => rw [h] at hnone; cases hnone
    · next hsome => rw [h] at hsome; cases hsome; rw [ih]

/-- **A walk gives the elements in the order of postfix notation.** -/
theorem drain_ofExpr (e : Expr) : (ofExpr e).drain = e.items := by
  rw [drain_eq_ahead]
  exact List.append_nil _

end Walk

/-! ### The machine -/

/-- The value of a tree, when `env` says what the variables are. -/
def valueUnder (env : String → Float) : Expr → Float
  | operand text => (Numeral.read? text).getD (env text)
  | binary lhs op rhs => op.apply (lhs.valueUnder env) (rhs.valueUnder env)

/-- One step of the machine.  An element that is the symbol of an operator takes its right side
from the stack and then its left side; any other element is an operand. -/
def calculateStep (env : String → Float) (stack : List Float) (element : String) :
    Option (List Float) :=
  match Operator.ofSymbol? element, stack with
  | none, stack => some ((Numeral.read? element).getD (env element) :: stack)
  | some op, y :: x :: stack => some (op.apply x y :: stack)
  | some _, _ => none

/-- What the machine makes of a row of elements, starting from nothing; `none` when an operator
finds less than two values. -/
def calculate (env : String → Float) (elements : List String) : Option (List Float) :=
  elements.foldlM (calculateStep env) []

/-- The elements of a tree as texts, one after the other. -/
def elements (e : Expr) : List String := (Walk.ofExpr e).drain.map Item.text

/-- No operand looks like an operator. -/
def Readable (e : Expr) : Prop := ∀ text ∈ e.operands, Operator.ofSymbol? text = none

theorem foldlM_calculateStep (env : String → Float) : ∀ (e : Expr), e.Readable →
    ∀ stack, (e.items.map Item.text).foldlM (calculateStep env) stack =
      some (e.valueUnder env :: stack) := by
  intro e
  induction e with
  | operand text =>
    intro h stack
    have hsymbol : Operator.ofSymbol? text = none := h text (by simp)
    simp [items, Item.text, calculateStep, hsymbol, valueUnder]
  | binary lhs op rhs ihl ihr =>
    intro h stack
    have hl : lhs.Readable := fun text ht => h text (by simp [ht])
    have hr : rhs.Readable := fun text ht => h text (by simp [ht])
    simp [items, Item.text, List.foldlM_append, ihl hl, ihr hr, calculateStep, valueUnder]

theorem calculate_elements (env : String → Float) {e : Expr} (h : e.Readable) :
    calculate env e.elements = some [e.valueUnder env] := by
  rw [calculate, elements, Walk.drain_ofExpr, foldlM_calculateStep env e h]

/-! ### What folding keeps -/

theorem valueUnder_of_direct? (env : String → Float) : ∀ {e : Expr} {v : Float},
    e.direct? = some v → e.valueUnder env = v := by
  intro e
  induction e with
  | operand text =>
    intro v h
    rw [valueUnder, show Numeral.read? text = some v from h, Option.getD_some]
  | binary lhs op rhs ihl ihr =>
    intro v h
    rw [direct?] at h
    split at h
    · next x y hx hy =>
      cases h
      rw [valueUnder, ihl hx, ihr hy]
    · cases h

/-- **Folding keeps the value**, whatever the variables are. -/
theorem valueUnder_folded (env : String → Float) (e : Expr) :
    e.folded.valueUnder env = e.valueUnder env := by
  induction e with
  | operand text => rfl
  | binary lhs op rhs ihl ihr =>
    rw [folded]
    cases hvalue : (binary lhs op rhs).direct? with
    | some v => rw [valueUnder_of_direct? env hvalue, valueUnder, Numeral.read?_write,
        Option.getD_some]
    | none => rw [valueUnder, ihl, ihr, valueUnder]

/-- No number looks like an operator. -/
theorem ofSymbol?_of_isNumeric {text : String} (h : IsNumeric text) :
    Operator.ofSymbol? text = none := by
  cases hop : Operator.ofSymbol? text with
  | none => rfl
  | some op =>
    rw [Operator.ofSymbol?_eq_some_iff.mp hop] at h
    exact absurd h (by cases op <;> decide)

theorem Readable.folded {e : Expr} (h : e.Readable) : e.folded.Readable := by
  intro text htext
  rcases mem_operands_folded text htext with hmem | ⟨v, rfl⟩
  · exact h text hmem
  · exact ofSymbol?_of_isNumeric (isNumeric_write v)

/-- **A tree and what an evaluation leaves of it have one value**, whatever the variables are,
and the machine finds it for both. -/
theorem calculate_of_solve {e : Expr} {s : Solution} (env : String → Float)
    (hreadable : ∀ text ∈ e.operands, Operator.ofSymbol? text = none) (h : e.solve = .ok s) :
    ∃ v, calculate env e.elements = some [v] ∧ calculate env s.expr.elements = some [v] := by
  obtain rfl := eq_of_solve h
  refine ⟨e.valueUnder env, calculate_elements env hreadable, ?_⟩
  rw [calculate_elements env (Readable.folded hreadable), valueUnder_folded]

/-- A tree whose right side is evaluated, while the left one waits for a value. -/
theorem calculate_of_solve_quotient :
    let e : Expr := .binary (.operand "x") .subtract
      (.binary (.operand "7") .divide (.operand "2"))
    let s : Solution := ⟨.binary (.operand "x") .subtract (.operand "3.5"), ["x"]⟩
    let env : String → Float := fun _ => 10
    (∀ text ∈ e.operands, Operator.ofSymbol? text = none) ∧ e.solve = .ok s ∧
      ∃ v, calculate env e.elements = some [v] ∧ calculate env s.expr.elements = some [v] := by
  intro e s env
  have hreadable : ∀ text ∈ e.operands, Operator.ofSymbol? text = none := by decide
  have h : e.solve = .ok s := solve_eq_ok_of_toOption (by decide +kernel)
  exact ⟨hreadable, h, calculate_of_solve env hreadable h⟩

end Reckon.Expr
