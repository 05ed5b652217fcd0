import Reckon.Proofs.Grammar.Derivation
import Reckon.Proofs.Scan.Basic

/-!
# The printed form is a sentence

The infix form of a tree puts every application in parentheses, so it does not lean on
precedence at all: as a row of tokens it is an atom of the grammar, inside any other text.
The blanks around an operator and the parentheses keep the operands apart.

## Main results

* `Grammar.exists_scanFrom_infixText` — the tokens of a printed tree derive that tree.
* `Grammar.ofTokens_scan_infixText` — **reading undoes printing**.
-/

namespace Reckon.Grammar

open Token (isPlain isSymbol scanFrom scanFrom_blank scanFrom_symbol scanFrom_run)

/-- Two atoms with an operator between them are a sum, whatever the operator is. -/
theorem Derives.sum_of_atoms {t : Token} {op : Operator} {ls rs : List Token} {l r : Expr}
    (hl : Derives .atom ls l) (ht : t.role = .operator op) (hr : Derives .atom rs r) :
    Derives .sum (ls ++ t :: rs) (.binary l op r) := by
  have hproduct : Derives .product ls l := .ofPower (.ofAtom hl)
  cases op with
  | add => exact .sum (.inl rfl) (.ofProduct hproduct) ht (.ofPower (.ofAtom hr))
  | subtract => exact .sum (.inr rfl) (.ofProduct hproduct) ht (.ofPower (.ofAtom hr))
  | multiply => exact .ofProduct (.product (.inl rfl) hproduct ht (.ofAtom hr))
  | divide => exact .ofProduct (.product (.inr rfl) hproduct ht (.ofAtom hr))
  | power => exact .ofProduct (.ofPower (.power (.ofAtom hl) ht hr))

theorem scanFrom_opening (rest : List Char) (position : Nat) :
    scanFrom ⟨'(' :: rest, position⟩ =
      ⟨"(", ⟨position, position + 1⟩⟩ :: scanFrom ⟨rest, position + 1⟩ :=
  scanFrom_symbol rfl rest position

theorem scanFrom_closing (rest : List Char) (position : Nat) :
    scanFrom ⟨')' :: rest, position⟩ =
      ⟨")", ⟨position, position + 1⟩⟩ :: scanFrom ⟨rest, position + 1⟩ :=
  scanFrom_symbol rfl rest position

theorem scanFrom_space (rest : List Char) (position : Nat) :
    scanFrom ⟨' ' :: rest, position⟩ = scanFrom ⟨rest, position + 1⟩ :=
  scanFrom_blank rfl rest position

theorem scanFrom_operator (op : Operator) (rest : List Char) (position : Nat) :
    scanFrom ⟨op.symbol.toList ++ rest, position⟩ =
      ⟨op.symbol, ⟨position, position + 1⟩⟩ :: scanFrom ⟨rest, position + 1⟩ := by
  cases op with
  | add => exact scanFrom_symbol rfl rest position
  | subtract => exact scanFrom_symbol rfl rest position
  | multiply => exact scanFrom_symbol rfl rest position
  | divide => exact scanFrom_symbol rfl rest position
  | power => exact scanFrom_symbol rfl rest position

theorem toList_infixText_binary (lhs rhs : Expr) (op : Operator) (rest : List Char) :
    (Expr.binary lhs op rhs).infixText.toList ++ rest =
      '(' :: (lhs.infixText.toList ++ ' ' :: (op.symbol.toList ++
        ' ' :: (rhs.infixText.toList ++ ')' :: rest))) := by
  rw [Expr.infixText_binary]
  simp

/-- **The tokens of a printed tree derive that tree**, in any text that does not go on with a
plain character. -/
theorem exists_scanFrom_infixText : ∀ (e : Expr),
    (∀ text ∈ e.operands, text ≠ "" ∧ ∀ c ∈ text.toList, isPlain c) →
      ∀ (rest : List Char), (∀ c ∈ rest.head?, ¬isPlain c) → ∀ position : Nat,
        ∃ tokens position', Derives .atom tokens e ∧
          scanFrom ⟨e.infixText.toList ++ rest, position⟩ =
            tokens ++ scanFrom ⟨rest, position'⟩ := by
  intro e
  induction e with
  | operand text =>
    intro h rest hrest position
    obtain ⟨hne, hplain⟩ := h text (by simp)
    have hne' : text.toList ≠ [] := by simpa using hne
    have htoken : Derives .atom
        [⟨text, ⟨position, position + Text.byteLength text.toList⟩⟩] (.operand text) :=
      .operand (Token.role_eq_operand_of_plain hplain)
    refine ⟨_, position + Text.byteLength text.toList, htoken, ?_⟩
    rw [Expr.infixText_operand, scanFrom_run hne' hplain hrest, String.ofList_toList]
    rfl
  | binary lhs op rhs ihl ihr =>
    intro h rest hrest position
    -- the text goes on with a blank behind the left side, and with `)` behind the right one
    obtain ⟨ls, pl, hl, hls⟩ := ihl (fun text ht => h text (by simp [ht]))
      (' ' :: (op.symbol.toList ++ ' ' :: (rhs.infixText.toList ++ ')' :: rest)))
      (by simp [isPlain, show Text.isBlank ' ' from rfl]) (position + 1)
    obtain ⟨rs, pr, hr, hrs⟩ := ihr (fun text ht => h text (by simp [ht])) (')' :: rest)
      (by simp [isPlain, show isSymbol ')' from rfl]) (pl + 1 + 1 + 1)
    have hop : (⟨op.symbol, ⟨pl + 1, pl + 1 + 1⟩⟩ : Token).role = .operator op :=
      Token.role_eq_operator_iff.mpr rfl
    have hgroup : Derives .atom (⟨"(", ⟨position, position + 1⟩⟩ ::
        ((ls ++ ⟨op.symbol, ⟨pl + 1, pl + 1 + 1⟩⟩ :: rs) ++ [⟨")", ⟨pr, pr + 1⟩⟩]))
        (.binary lhs op rhs) :=
      .group rfl (hl.sum_of_atoms hop hr) rfl
    refine ⟨_, pr + 1, hgroup, ?_⟩
    rw [toList_infixText_binary, scanFrom_opening, hls, scanFrom_space, scanFrom_operator,
      scanFrom_space, hrs, scanFrom_closing]
    simp

/-- **Reading undoes printing**: a tree comes back from its infix form, if its operands are
texts that the scanner reads as one token. -/
theorem ofTokens_scan_infixText (e : Expr)
    (h : ∀ text ∈ e.operands, text ≠ "" ∧ ∀ c ∈ text.toList,
      ¬Text.isBlank c ∧ c ∉ ['+', '-', '*', '/', '^', '(', ')']) :
    Expr.ofTokens (Token.scan e.infixText) = .ok e := by
  have hplain : ∀ text ∈ e.operands, text ≠ "" ∧ ∀ c ∈ text.toList, isPlain c :=
    fun text ht => ⟨(h text ht).1, fun c hc => Token.isPlain_iff.mpr ((h text ht).2 c hc)⟩
  obtain ⟨tokens, position, he, hscan⟩ :=
    exists_scanFrom_infixText e hplain [] (by simp) 0
  have htokens : Token.scan e.infixText = tokens := by
    rw [List.append_nil, Token.scanFrom_nil, List.append_nil] at hscan
    exact hscan
  rw [htokens]
  exact Expr.ofTokens_eq_ok_iff.mpr (Derives.fuse_run (.ofProduct (.ofPower (.ofAtom he))))

/-- A tree whose right side needs its parentheses, with an operand that takes more bytes than
characters. -/
theorem ofTokens_scan_infixText_power :
    let e : Expr := .binary (.operand "größe") .power
      (.binary (.operand "2.5") .power (.operand "x_1"))
    (∀ text ∈ e.operands, text ≠ "" ∧ ∀ c ∈ text.toList,
      ¬Text.isBlank c ∧ c ∉ ['+', '-', '*', '/', '^', '(', ')']) ∧
      Expr.ofTokens (Token.scan e.infixText) = .ok e := by
  intro e
  have hall : ∀ text ∈ e.operands, text ≠ "" ∧ text.toList.all isPlain = true := by
    decide
  have h : ∀ text ∈ e.operands, text ≠ "" ∧ ∀ c ∈ text.toList,
      ¬Text.isBlank c ∧ c ∉ ['+', '-', '*', '/', '^', '(', ')'] := fun text ht =>
    ⟨(hall text ht).1, fun c hc =>
      Token.isPlain_iff.mp (List.all_eq_true.mp (hall text ht).2 c hc)⟩
  exact ⟨h, ofTokens_scan_infixText e h⟩

end Reckon.Grammar
