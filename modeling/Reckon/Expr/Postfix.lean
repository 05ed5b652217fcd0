import Reckon.Expr.Basic

/-!
# Postfix notation

In postfix notation an operator follows its two sides, so no parentheses are needed.  The
elements of a tree in this order can be listed all at once or one at a time, and a stack
turns such a list back into a tree.

## Main definitions

* `Expr.Item` — an element of the notation: an operand or an operator.
* `Expr.items` — the elements of a tree: left side, right side, operator.
* `Expr.postorder e` — the nodes of a tree: those of the left side, those of the right side, then
  the tree itself.
* `Expr.postfixText` — the elements written with single spaces between them.
* `Expr.Walk` — a walk through a tree that gives one element at each step.
* `Expr.ofItems?` — the tree that a list of elements denotes.

## Main results

* `Expr.mem_items` — the elements of a tree are its operands, and operators.
* `Expr.map_item_postorder` — they are what stands at its nodes.
* `Expr.foldlM_push_items` — reading the elements of a tree puts that tree on the stack.
* `Expr.ofItems?_items` — so listing a tree and reading the list back gives the tree.
-/

namespace Reckon.Expr

/-- An element of postfix notation. -/
inductive Item where
  | operand (text : String)
  | operator (op : Operator)
  deriving DecidableEq, Repr

/-- The text of an element. -/
def Item.text : Item → String
  | .operand text => text
  | .operator op => op.symbol

/-- The elements of a tree: those of the left side, those of the right side, then the
operator. -/
def items : Expr → List Item
  | operand text => [.operand text]
  | binary lhs op rhs => lhs.items ++ rhs.items ++ [.operator op]

theorem mem_items {e : Expr} {item : Item} (h : item ∈ e.items) :
    (∃ text ∈ e.operands, item = .operand text) ∨ ∃ op, item = .operator op := by
  induction e with
  | operand text => exact .inl ⟨text, List.mem_singleton_self text, List.mem_singleton.mp h⟩
  | binary lhs op rhs ihl ihr =>
    simp only [items, List.mem_append, List.mem_singleton] at h
    rcases h with (h | h) | h
    · exact (ihl h).imp_left fun ⟨text, hmem, heq⟩ => ⟨text, List.mem_append_left _ hmem, heq⟩
    · exact (ihr h).imp_left fun ⟨text, hmem, heq⟩ => ⟨text, List.mem_append_right _ hmem, heq⟩
    · exact .inr ⟨op, h⟩

/-- The nodes of a tree in the order in which an evaluation is done with them. -/
def postorder : Expr → List Expr
  | operand text => [operand text]
  | binary lhs op rhs => lhs.postorder ++ rhs.postorder ++ [binary lhs op rhs]

/-- The element that stands at a node. -/
def item : Expr → Item
  | operand text => .operand text
  | binary _ op _ => .operator op

theorem map_item_postorder (e : Expr) : e.postorder.map item = e.items := by
  induction e with
  | operand text => rfl
  | binary lhs op rhs ihl ihr =>
    rw [postorder, List.map_append, List.map_append, ihl, ihr]
    rfl

/-- The elements of a tree with a single space between neighbours. -/
def postfixText (e : Expr) : String :=
  " ".intercalate (e.items.map Item.text)

/-! ### One element at a time -/

/-- A walk through a tree: what is still to be visited, nearest first.  An operator waits
there by itself once its two sides are scheduled before it. -/
abbrev Walk := List (Expr ⊕ Operator)

namespace Walk

/-- The walk through a tree, before its first step. -/
def ofExpr (e : Expr) : Walk := [.inl e]

/-- Goes down to the leftmost leaf of a tree and schedules what lies beside the path. -/
def descend : Expr → Walk → String × Walk
  | .operand text, later => (text, later)
  | .binary lhs op rhs, later => descend lhs (.inl rhs :: .inr op :: later)

/-- The next element and the walk behind it, or `none` when all were given. -/
def next? : Walk → Option (Item × Walk)
  | [] => none
  | .inl e :: later => let (text, walk) := descend e later; some (.operand text, walk)
  | .inr op :: later => some (.operator op, later)

/-- The answers to a number of steps: each is an element, or `none` once all were given. -/
def steps : Nat → Walk → List (Option Item)
  | 0, _ => []
  | n + 1, walk =>
    match walk.next? with
    | none => none :: steps n walk
    | some (item, walk) => some item :: steps n walk

end Walk

/-! ### Reading the notation -/

/-- Reads one element: an operand goes on the stack as a leaf, and an operator takes its
right side and then its left side from the stack. -/
def push : List Expr → Item → Option (List Expr)
  | stack, .operand text => some (.operand text :: stack)
  | rhs :: lhs :: stack, .operator op => some (.binary lhs op rhs :: stack)
  | _, .operator _ => none

/-- The tree that a list of elements denotes.  The answer is `none` when an operator lacks
a side, or when the elements are not one tree. -/
def ofItems? (items : List Item) : Option Expr :=
  match items.foldlM push [] with
  | some [e] => some e
  | _ => none

theorem foldlM_push_items (e : Expr) (stack : List Expr) :
    e.items.foldlM push stack = some (e :: stack) := by
  induction e generalizing stack with
  | operand text => rfl
  | binary lhs op rhs ihl ihr =>
    simp [items, List.foldlM_append, ihl, ihr, push]

@[simp] theorem ofItems?_items (e : Expr) : ofItems? e.items = some e := by
  simp [ofItems?, foldlM_push_items]

end Reckon.Expr
