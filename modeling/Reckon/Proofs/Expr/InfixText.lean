import Reckon.Proofs.Expr.PostfixText
import Reckon.Proofs.Grammar.Printed

/-!
# The infix form tells trees apart

A printed tree cannot always be read again: an evaluation leaves operands such as `-2.0` and
`1e-7`, which the scanner takes apart.  All the same no two trees are printed alike.  An operand
ends where a space, a closing parenthesis or the text ends, and only an application starts with a
parenthesis, so each side of an operator is found where it stands, whatever the signs in its
operands are.

## Main definitions

* `Expr.IsBare text` — the text has no space and no parenthesis in it.
* `Expr.Closes rest` — what can follow a printed tree.

## Main results

* `Expr.infixText_append_inj` — a printed tree, and what follows it, are found in a text.
* `Expr.Arises.isBare` — operands are bare in every tree that arises from a source text.
* `Expr.eq_of_infixText_eq` — **trees with one infix form are equal**.
-/

namespace Reckon.Expr

open Grammar (toList_infixText_binary)

/-- The text has no space and no parenthesis in it.  It can be empty, and it can be the symbol of
an operator. -/
def IsBare (text : String) : Prop := ∀ c ∈ text.toList, c ∉ [' ', '(', ')']

/-- What can follow a printed tree: nothing, the space before an operator or the end of an
application. -/
def Closes (rest : List Char) : Prop := ∀ c ∈ rest.head?, c ∈ [' ', ')']

namespace Closes

theorem nil : Closes [] := by simp [Closes]

theorem space (rest : List Char) : Closes (' ' :: rest) := by simp [Closes]

theorem closing (rest : List Char) : Closes (')' :: rest) := by simp [Closes]

end Closes

/-! ### Where an operand ends -/

/-- No part of a bare text is there before what closes it. -/
theorem Closes.eq_nil_of_bare {part rest : List Char} (h : Closes (part ++ rest))
    (hbare : ∀ c ∈ part, c ∉ [' ', '(', ')']) : part = [] := by
  cases part with
  | nil => rfl
  | cons c part =>
    have hc : c ∈ [' ', ')'] := h c rfl
    exact absurd (by grind) (hbare c (List.mem_cons_self ..))

/-- An operand reaches up to what closes it, so only one fits. -/
theorem IsBare.append_inj {text text' : String} (ht : IsBare text) (ht' : IsBare text')
    {rest rest' : List Char} (hrest : Closes rest) (hrest' : Closes rest')
    (h : text.toList ++ rest = text'.toList ++ rest') : text = text' ∧ rest = rest' := by
  rcases List.append_eq_append_iff.mp h with ⟨part, htext, hpart⟩ | ⟨part, htext, hpart⟩
  · rw [hpart] at hrest
    have hnil : part = [] := hrest.eq_nil_of_bare fun c hc => ht' c (by simp [htext, hc])
    subst hnil
    exact ⟨String.toList_inj.mp (by simpa using htext.symm), by simpa using hpart⟩
  · rw [hpart] at hrest'
    have hnil : part = [] := hrest'.eq_nil_of_bare fun c hc => ht c (by simp [htext, hc])
    subst hnil
    exact ⟨String.toList_inj.mp (by simpa using htext), by simpa using hpart.symm⟩

/-- An operand and what closes it do not start as an application does. -/
theorem IsBare.append_ne_opening {text : String} (ht : IsBare text) {rest : List Char}
    (hrest : Closes rest) (rest' : List Char) : text.toList ++ rest ≠ '(' :: rest' := by
  intro h
  cases htext : text.toList with
  | nil =>
    rw [htext, List.nil_append] at h
    exact absurd (hrest '(' (by rw [h]; rfl)) (by decide)
  | cons c cs =>
    rw [htext] at h
    obtain ⟨rfl, -⟩ := List.cons.inj h
    exact absurd (by decide) (ht '(' (by simp [htext]))

/-- Symbols have one character each, so of two texts that start with one only one symbol is the
first. -/
theorem symbol_append_inj {op op' : Operator} {rest rest' : List Char}
    (h : op.symbol.toList ++ rest = op'.symbol.toList ++ rest') : op = op' ∧ rest = rest' := by
  have hlength : op.symbol.toList.length = op'.symbol.toList.length := by
    cases op <;> cases op' <;> rfl
  obtain ⟨hsymbol, hrest⟩ := List.append_inj h hlength
  have hop : Operator.ofSymbol? op.symbol = some op' :=
    Operator.ofSymbol?_eq_some_iff.mpr (String.toList_inj.mp hsymbol)
  exact ⟨by simpa using hop, hrest⟩

/-! ### Where a tree ends -/

/-- **A printed tree, and what follows it, are found in a text** that starts with the tree. -/
theorem infixText_append_inj : ∀ {e e' : Expr}, (∀ text ∈ e.operands, IsBare text) →
    (∀ text ∈ e'.operands, IsBare text) → ∀ {rest rest' : List Char}, Closes rest → Closes rest' →
      e.infixText.toList ++ rest = e'.infixText.toList ++ rest' → e = e' ∧ rest = rest' := by
  intro e
  induction e with
  | operand text =>
    intro e' h h' rest rest' hrest hrest' heq
    have ht : IsBare text := h text (by simp)
    rw [infixText_operand] at heq
    cases e' with
    | operand text' =>
      rw [infixText_operand] at heq
      obtain ⟨rfl, rfl⟩ := ht.append_inj (h' text' (by simp)) hrest hrest' heq
      exact ⟨rfl, rfl⟩
    | binary lhs' op' rhs' =>
      rw [toList_infixText_binary] at heq
      exact absurd heq (ht.append_ne_opening hrest _)
  | binary lhs op rhs ihl ihr =>
    intro e' h h' rest rest' hrest hrest' heq
    rw [toList_infixText_binary] at heq
    cases e' with
    | operand text' =>
      rw [infixText_operand] at heq
      exact absurd heq.symm ((h' text' (by simp)).append_ne_opening hrest' _)
    | binary lhs' op' rhs' =>
      obtain ⟨hl, hr⟩ := List.forall_mem_append.mp h
      obtain ⟨hl', hr'⟩ := List.forall_mem_append.mp h'
      rw [toList_infixText_binary] at heq
      -- the left sides end at the spaces before the operators, the right sides at parentheses
      obtain ⟨rfl, hleft⟩ := ihl hl hl' (.space _) (.space _) (List.cons.inj heq).2
      obtain ⟨rfl, hop⟩ := symbol_append_inj (List.cons.inj hleft).2
      obtain ⟨rfl, hright⟩ := ihr hr hr' (.closing _) (.closing _) (List.cons.inj hop).2
      exact ⟨rfl, (List.cons.inj hright).2⟩

/-! ### Trees that arise from a source text -/

theorem mem_marks_iff {c : Char} : c ∈ [' ', '(', ')'] ↔ c = ' ' ∨ c = '(' ∨ c = ')' := by
  simp

/-- A run of characters is bare, since each of the three ends a run. -/
theorem IsBare.of_isRun {text : String} (h : Token.IsRun text.toList) : IsBare text := by
  intro c hc hmem
  refine h.2 c hc ?_
  rcases mem_marks_iff.mp hmem with rfl | rfl | rfl
  · exact .inl (by decide)
  · exact .inr (by decide)
  · exact .inr (by decide)

/-- A number is bare, though the scanner may take it apart. -/
theorem IsBare.of_isNumeric {text : String} (h : IsNumeric text) : IsBare text := by
  obtain ⟨v, hread⟩ := Option.isSome_iff_exists.mp h
  intro c hc hmem
  have hgraphic : Numeral.IsGraphic c := Numeral.isGraphic_of_read? hread c hc
  rcases mem_marks_iff.mp hmem with rfl | rfl | rfl <;> exact absurd hgraphic (by decide)

/-- **Operands are bare** in every tree that arises from a source text. -/
theorem Arises.isBare {source : String} {e : Expr} (h : Arises source e) :
    ∀ text ∈ e.operands, IsBare text :=
  h.forall_operands (fun _ => IsBare.of_isRun) (fun _ => IsBare.of_isNumeric)

/-! ### Trees with one infix form -/

/-- **Trees with one infix form are equal**, if their operands are bare.  The operands are bare in
every tree that comes from a source text, and in all that evaluations leave of it. -/
theorem eq_of_infixText_eq :
    (∀ e e' : Expr, (∀ text ∈ e.operands, IsBare text) → (∀ text ∈ e'.operands, IsBare text) →
        e.infixText = e'.infixText → e = e') ∧
      ∀ source e, Arises source e → ∀ text ∈ e.operands, IsBare text := by
  refine ⟨fun e e' h h' heq => ?_, fun source e => Arises.isBare⟩
  exact (infixText_append_inj h h' .nil .nil (by rw [heq])).1

/-- Two sources whose trees differ, until an evaluation makes one difference of each. -/
theorem eq_of_infixText_eq_difference :
    ∃ e e' s s', Expr.ofTokens (Token.scan "(2-4)-x") = .ok e ∧ e.solve = .ok s ∧
      Expr.ofTokens (Token.scan "(.5-2.5) - x") = .ok e' ∧ e'.solve = .ok s' ∧ e ≠ e' ∧
        (∀ text ∈ s.expr.operands, IsBare text) ∧ (∀ text ∈ s'.expr.operands, IsBare text) ∧
          s.expr.infixText = "(-2.0 - x)" ∧ s'.expr.infixText = "(-2.0 - x)" ∧
            s.expr = s'.expr := by
  let difference (x y : String) : Expr :=
    .binary (.binary (.operand x) .subtract (.operand y)) .subtract (.operand "x")
  let left : Solution := ⟨.binary (.operand "-2.0") .subtract (.operand "x"), ["x"]⟩
  have he : Expr.ofTokens (Token.scan "(2-4)-x") = .ok (difference "2" "4") := by decide +kernel
  have he' : Expr.ofTokens (Token.scan "(.5-2.5) - x") = .ok (difference ".5" "2.5") := by
    decide +kernel
  have hs : (difference "2" "4").solve = .ok left := by decide +kernel
  have hs' : (difference ".5" "2.5").solve = .ok left := by decide +kernel
  have hbare := eq_of_infixText_eq.2 _ _ (.evaluated (.assembled he) hs)
  have htext : left.expr.infixText = "(-2.0 - x)" := by decide
  exact ⟨_, _, left, left, he, hs, he', hs', by decide, hbare, hbare, htext, htext,
    eq_of_infixText_eq.1 _ _ hbare hbare rfl⟩

end Reckon.Expr
