/-!
# Operators and how they bind

The five binary operators of arithmetic, their symbols, and the rule that decides which of
two neighbouring operators is applied first.

## Main definitions

* `Operator` — the operators; `Operator.symbol` writes one, `Operator.ofSymbol?` reads it.
* `Fixity` — a precedence together with the side to which equals group.
* `Fixity.precedes` — whether an operator is applied before the one to its right.

## Main results

* `Operator.ofSymbol?_eq_some_iff` — a text names an operator exactly when it is its symbol.
* `Operator.precedes_iff` — all five operators group to the left, so the left one of two
  is applied first unless the right one binds more tightly.
-/

namespace Reckon

/-- A binary operator of arithmetic. -/
inductive Operator where
  | add
  | subtract
  | multiply
  | divide
  | power
  deriving DecidableEq, Repr, Inhabited

/-- The side to which a row of operators of one precedence groups. -/
inductive Grouping where
  | left
  | right
  deriving DecidableEq, Repr

/-- How tightly an operator binds, and to which side equals group. -/
structure Fixity where
  grouping : Grouping
  precedence : Nat
  deriving DecidableEq, Repr

/-- Whether an operator of fixity `lhs` is applied before an operator of fixity `rhs` that
stands to its right: it binds more tightly, or as tightly and groups to the left. -/
def Fixity.precedes (lhs rhs : Fixity) : Bool :=
  rhs.precedence < lhs.precedence
    || lhs.precedence == rhs.precedence && lhs.grouping == .left

namespace Operator

/-- The symbol of an operator. -/
def symbol : Operator → String
  | add => "+"
  | subtract => "-"
  | multiply => "*"
  | divide => "/"
  | power => "^"

/-- The operator that a text is the symbol of. -/
def ofSymbol? : String → Option Operator
  | "+" => some add
  | "-" => some subtract
  | "*" => some multiply
  | "/" => some divide
  | "^" => some power
  | _ => none

/-- How an operator binds.  Every operator groups to the left, powers included:
`2 ^ 3 ^ 2` is `(2 ^ 3) ^ 2`. -/
def fixity : Operator → Fixity
  | add | subtract => ⟨.left, 1⟩
  | multiply | divide => ⟨.left, 2⟩
  | power => ⟨.left, 3⟩

@[simp] theorem ofSymbol?_symbol (op : Operator) : ofSymbol? op.symbol = some op := by
  cases op <;> rfl

theorem ofSymbol?_eq_some_iff {s : String} {op : Operator} :
    ofSymbol? s = some op ↔ s = op.symbol := by
  constructor
  · unfold ofSymbol?
    split <;> rintro ⟨⟩ <;> rfl
  · rintro rfl
    exact ofSymbol?_symbol op

theorem precedes_iff (lhs rhs : Operator) :
    lhs.fixity.precedes rhs.fixity ↔ rhs.fixity.precedence ≤ lhs.fixity.precedence := by
  cases lhs <;> cases rhs <;> decide

end Operator

end Reckon
