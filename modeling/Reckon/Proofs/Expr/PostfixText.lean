import Reckon.Proofs.Expr.Machine
import Reckon.Proofs.Grammar.Contents
import Reckon.Proofs.Numeral.Characters
import Reckon.Proofs.Scan.Layout

/-!
# Reading postfix notation from a text

The postfix text of a tree is a row of words with spaces between them.  It has no parentheses, and
it says of no word whether it is an operand, but the tree can be read from it again: the words are
told apart by the spaces, and operators by their symbols.  For this the operands have to be words
that are no symbols.  Those of a tree that comes from a source text are, and an evaluation does
not change this.

## Main definitions

* `Expr.words text` — the pieces of a text between single spaces.
* `Expr.readPostfix text` — the stack that is left when the words of a text are read in order.
* `Expr.IsWord text` — the text can be an operand in a row of words.
* `Expr.Arises source e` — `e` is the tree of a source text, or what evaluations leave of it.

## Main results

* `Expr.words_postfixText` — the words of the postfix text are the elements of the tree.
* `Expr.Arises.isWord` — operands are words in every tree that arises from a source text.
* `Expr.readPostfix_postfixText` — **the postfix text determines the tree**.
-/

namespace Reckon.Expr

/-! ### Words on a stack -/

/-- The pieces of a text between single spaces. -/
def words (text : String) : List String := (text.toList.splitOn ' ').map String.ofList

/-- Reads one word: the symbol of an operator takes its right side and then its left side from the
stack, and any other word goes on the stack as a leaf. -/
def readWord (stack : List Expr) (word : String) : Option (List Expr) :=
  match Operator.ofSymbol? word with
  | some op => push stack (.operator op)
  | none => push stack (.operand word)

/-- The stack that is left when the words of a text are read in order, or `none` when an operator
finds less than two trees on it. -/
def readPostfix (text : String) : Option (List Expr) := (words text).foldlM readWord []

/-- The text can be an operand in a row of words: it is not empty, has no space in it and is not
the symbol of an operator. -/
structure IsWord (text : String) : Prop where
  ne_empty : text ≠ ""
  space_notMem : ' ' ∉ text.toList
  ofSymbol?_eq_none : Operator.ofSymbol? text = none

theorem items_ne_nil (e : Expr) : e.items ≠ [] := by
  cases e <;> simp [items]

theorem space_notMem_symbol (op : Operator) : ' ' ∉ op.symbol.toList := by
  cases op <;> decide

theorem space_notMem_items {e : Expr} (h : ∀ text ∈ e.operands, IsWord text) :
    ∀ item ∈ e.items, ' ' ∉ item.text.toList := by
  intro item hitem
  rcases mem_items hitem with ⟨text, hmem, rfl⟩ | ⟨op, rfl⟩
  · exact (h text hmem).space_notMem
  · exact space_notMem_symbol op

/-- **The words of the postfix text are the elements of the tree.** -/
theorem words_postfixText {e : Expr} (h : ∀ text ∈ e.operands, IsWord text) :
    words e.postfixText = e.items.map Item.text := by
  have hwords : ∀ word ∈ (e.items.map Item.text).map String.toList, ' ' ∉ word := by
    simpa using space_notMem_items h
  have hne : (e.items.map Item.text).map String.toList ≠ [] := by
    simpa using items_ne_nil e
  have htext : e.postfixText.toList =
      [' '].intercalate ((e.items.map Item.text).map String.toList) :=
    String.toList_intercalate
  rw [words, htext, List.splitOn_intercalate ' ' hwords hne, List.map_map]
  simp [Function.comp_def]

/-- Reading the words of a tree puts that tree on any stack. -/
theorem foldlM_readWord : ∀ {e : Expr}, e.Readable → ∀ stack,
    (e.items.map Item.text).foldlM readWord stack = some (e :: stack) := by
  intro e
  induction e with
  | operand text =>
    intro h stack
    have hsymbol : Operator.ofSymbol? text = none := h text (by simp)
    simp [items, Item.text, readWord, hsymbol, push]
  | binary lhs op rhs ihl ihr =>
    intro h stack
    obtain ⟨hl, hr⟩ := List.forall_mem_append.mp h
    simp [items, Item.text, List.foldlM_append, ihl hl, ihr hr, readWord, push]

/-! ### Trees that arise from a source text -/

/-- The trees that arise from a source text: its own, and what any number of evaluations leave. -/
inductive Arises (source : String) : Expr → Prop where
  | assembled {e : Expr} (h : Expr.ofTokens (Token.scan source) = .ok e) : Arises source e
  | evaluated {e : Expr} {s : Solution} (h : Arises source e) (hs : e.solve = .ok s) :
      Arises source s.expr

/-- An operand of a source text is a run of characters. -/
theorem isRun_of_ofTokens_scan {source : String} {e : Expr}
    (h : Expr.ofTokens (Token.scan source) = .ok e) :
    ∀ text ∈ e.operands, Token.IsRun text.toList := by
  intro text htext
  rw [(operands_and_operators_of_ofTokens h).1] at htext
  obtain ⟨t, ht, rfl⟩ := List.mem_map.mp htext
  obtain ⟨hmem, hrole⟩ := Token.mem_operands.mp ht
  obtain ⟨before, after, -, hlexeme⟩ := (Token.tokenizes_scan source).lexeme t hmem
  generalize hpiece : t.text.toList = piece at hlexeme ⊢
  cases hlexeme with
  | symbol hc => exact absurd hrole (Token.role_ne_operand_of_symbol hc hpiece)
  | run hne hrun _ _ => exact ⟨hne, hrun⟩

/-- A run of characters is no symbol, and no space is in it. -/
theorem IsWord.of_isRun {text : String} (h : Token.IsRun text.toList) : IsWord text := by
  obtain ⟨hne, hrun⟩ := h
  refine ⟨fun hempty => hne (by rw [hempty]; rfl), fun hspace => ?_, ?_⟩
  · exact hrun ' ' hspace (.inl (by decide))
  · cases hop : Operator.ofSymbol? text with
    | none => rfl
    | some op =>
      rw [Operator.ofSymbol?_eq_some_iff.mp hop] at hrun
      cases op <;> exact absurd (.inr (by decide)) (hrun _ (List.mem_singleton_self _))

/-- A number is no symbol either, though it may start with one. -/
theorem IsWord.of_isNumeric {text : String} (h : IsNumeric text) : IsWord text := by
  obtain ⟨v, hread⟩ := Option.isSome_iff_exists.mp h
  refine ⟨?_, fun hspace => ?_, ofSymbol?_of_isNumeric h⟩
  · rintro rfl
    cases hread
  · exact absurd (Numeral.isGraphic_of_read? hread ' ' hspace) (by decide)

/-- What is so of runs of characters and of numbers is so of every operand of a tree that arises
from a source text. -/
theorem Arises.forall_operands {source : String} {e : Expr} (h : Arises source e)
    {P : String → Prop} (hrun : ∀ text : String, Token.IsRun text.toList → P text)
    (hnumeric : ∀ text, IsNumeric text → P text) : ∀ text ∈ e.operands, P text := by
  induction h with
  | assembled h => exact fun text htext => hrun text (isRun_of_ofTokens_scan h text htext)
  | evaluated _ hs ih =>
    intro text htext
    obtain rfl := eq_of_solve hs
    rcases mem_operands_folded text htext with hmem | ⟨v, rfl⟩
    · exact ih text hmem
    · exact hnumeric _ (isNumeric_write v)

/-- **Operands are words** in every tree that arises from a source text. -/
theorem Arises.isWord {source : String} {e : Expr} (h : Arises source e) :
    ∀ text ∈ e.operands, IsWord text :=
  h.forall_operands (fun _ => IsWord.of_isRun) (fun _ => IsWord.of_isNumeric)

/-! ### Reading the text -/

/-- **The postfix text determines the tree.**  It is what a walk through the tree gives, with single
spaces between.  If the operands are words, reading the words of the text meets no operator that
lacks a side, and leaves the tree alone.  The operands are words in every tree that comes from a
source text, and in all that evaluations leave of it. -/
theorem readPostfix_postfixText :
    (∀ e : Expr, (∀ text ∈ e.operands, IsWord text) →
        e.postfixText = " ".intercalate e.elements ∧ readPostfix e.postfixText = some [e]) ∧
      ∀ source e, Arises source e → ∀ text ∈ e.operands, IsWord text := by
  refine ⟨fun e h => ⟨?_, ?_⟩, fun source e => Arises.isWord⟩
  · rw [postfixText, elements, Walk.drain_ofExpr]
  · rw [readPostfix, words_postfixText h, foldlM_readWord fun text ht => (h text ht).3]

/-- The number that is left has the sign of a subtraction, and reads as an operand all the same. -/
theorem readPostfix_postfixText_negative :
    let e : Expr := .binary (.operand "-1e-7") .subtract (.operand "x")
    (∃ e' s, Expr.ofTokens (Token.scan "(.0000001-.0000002)-x") = .ok e' ∧
        e'.solve = .ok s ∧ s.expr = e) ∧
      (∀ text ∈ e.operands, IsWord text) ∧ e.postfixText = "-1e-7 x -" ∧
        readPostfix "-1e-7 x -" = some [e] := by
  intro e
  let e' : Expr := .binary
    (.binary (.operand ".0000001") .subtract (.operand ".0000002")) .subtract (.operand "x")
  have he' : Expr.ofTokens (Token.scan "(.0000001-.0000002)-x") = .ok e' := by decide +kernel
  have hs : e'.solve = .ok ⟨e, ["x"]⟩ := by decide +kernel
  have hwords := readPostfix_postfixText.2 _ e (.evaluated (.assembled he') hs)
  have htext : e.postfixText = "-1e-7 x -" := by decide
  exact ⟨⟨e', _, he', hs, rfl⟩, hwords, htext, htext ▸ (readPostfix_postfixText.1 e hwords).2⟩

end Reckon.Expr
