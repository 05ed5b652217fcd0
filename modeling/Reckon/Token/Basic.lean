import Reckon.Operator
import Reckon.Span

/-!
# Tokens

A token is a piece of source text together with the place it was read from.  What a token
means is not stored in it: the role follows from the text alone.

## Main definitions

* `Token` — a text and its span.
* `Token.Role` — operand, operator or parenthesis.
* `Token.role` — the role of a token.

## Main results

* `Token.role_eq_opening_iff`, `Token.role_eq_closing_iff`, `Token.role_eq_operator_iff` —
  which texts have which role; all others are operands.
-/

namespace Reckon

/-- A piece of text and the place it was read from. -/
structure Token where
  text : String
  span : Span
  deriving DecidableEq, Repr, Inhabited

namespace Token

/-- What a token is for. -/
inductive Role where
  /-- A number or a name. -/
  | operand
  /-- An operator between two operands. -/
  | operator (op : Operator)
  /-- An opening parenthesis. -/
  | opening
  /-- A closing parenthesis. -/
  | closing
  deriving DecidableEq, Repr

/-- A token that was not read from any source. -/
def unplaced (text : String) : Token := ⟨text, .nowhere⟩

/-- The role of a token.  Any text that is neither a parenthesis nor the symbol of an
operator is an operand, the empty text and texts such as `**` included. -/
def role (t : Token) : Role :=
  match t.text with
  | "(" => .opening
  | ")" => .closing
  | text =>
    match Operator.ofSymbol? text with
    | some op => .operator op
    | none => .operand

/-- The text between single quotes; nothing in it is escaped. -/
def quoted (t : Token) : String := "'" ++ t.text ++ "'"

theorem role_eq_opening_iff {t : Token} : t.role = .opening ↔ t.text = "(" := by
  unfold role
  split
  · simp_all
  · simp_all
  · split <;> simp_all

theorem role_eq_closing_iff {t : Token} : t.role = .closing ↔ t.text = ")" := by
  unfold role
  split
  · simp_all
  · simp_all
  · split <;> simp_all

theorem role_eq_operator_iff {t : Token} {op : Operator} :
    t.role = .operator op ↔ t.text = op.symbol := by
  rw [← Operator.ofSymbol?_eq_some_iff]
  unfold role
  split
  · rename_i h
    rw [h]
    simp [Operator.ofSymbol?]
  · rename_i h
    rw [h]
    simp [Operator.ofSymbol?]
  · split <;> simp_all

end Token

end Reckon
