import Mathlib.Order.Bounds.Basic
import Reckon.Proofs.Yard.Reached

/-!
# What the machine stacks up

The machine puts the operands that it reads on its stack and joins neighbours, so the operands
can be read off the stack, from its bottom to its top, in the order in which they came.  Each
piece covers the source of its own operands and no more.  Nothing below the pieces that a row of
outputs is about is ever touched, so the machine may run on top of any stack.

## Main definitions

* `Span` is ordered by containment; `Span.cover` is the join.
* `Piece.Of piece own` — the leaves of the piece are the operands `own`, and it spans just them.
* `Yard.Stacked stack tokens` — `tokens` are the operands of a stack from the bottom to the top.

## Main results

* `Yard.Stacked.build` — **no operand is lost in the machine**, and every span is exact.
* `Yard.build_append_base` — a run of the machine does not touch what is below its operands.
* `Yard.mem_operatorTokens_of_build`, `Yard.eq_nil_of_build` — where the machine stops, and when
  it has nothing on its stack.
-/

namespace Reckon

/-! ### Spans by containment -/

/-- One span is at most another if it lies within it. -/
instance : SemilatticeSup Span where
  le a b := b.start ≤ a.start ∧ a.stop ≤ b.stop
  le_refl a := ⟨Nat.le_refl _, Nat.le_refl _⟩
  le_trans a b c hab hbc := ⟨Nat.le_trans hbc.1 hab.1, Nat.le_trans hab.2 hbc.2⟩
  le_antisymm a b hab hba := by
    obtain ⟨start, stop⟩ := a
    obtain ⟨start', stop'⟩ := b
    rw [Span.mk.injEq]
    exact ⟨Nat.le_antisymm hba.1 hab.1, Nat.le_antisymm hab.2 hba.2⟩
  sup := Span.cover
  le_sup_left a b := ⟨Nat.min_le_left _ _, Nat.le_max_left _ _⟩
  le_sup_right a b := ⟨Nat.min_le_right _ _, Nat.le_max_right _ _⟩
  sup_le a b c hac hbc := ⟨Nat.le_min.mpr ⟨hac.1, hbc.1⟩, Nat.max_le.mpr ⟨hac.2, hbc.2⟩⟩

/-- The spans of a row of tokens. -/
def Token.spans (tokens : List Token) : Set Span := {s | ∃ t ∈ tokens, t.span = s}

@[simp] theorem Token.spans_singleton (t : Token) : Token.spans [t] = {t.span} := by
  ext s
  simp [Token.spans, eq_comm]

@[simp] theorem Token.spans_append (as bs : List Token) :
    Token.spans (as ++ bs) = Token.spans as ∪ Token.spans bs := by
  ext s
  simp only [Token.spans, List.mem_append, or_and_right, exists_or, Set.mem_union,
    Set.mem_ofPred_eq]

/-- The leaves of a piece are the operands `own`, and its span is the smallest that holds them. -/
structure Piece.Of (piece : Piece) (own : List Token) : Prop where
  operands : piece.expr.operands = own.map Token.text
  span : IsLUB (Token.spans own) piece.span

theorem Piece.of_operand (t : Token) : Piece.Of ⟨.operand t.text, t.span⟩ [t] :=
  ⟨rfl, by rw [Token.spans_singleton]; exact isLUB_singleton⟩

theorem Piece.Of.binary {lhs rhs : Piece} {ls rs : List Token} (hl : lhs.Of ls) (hr : rhs.Of rs)
    (op : Operator) :
    Piece.Of ⟨.binary lhs.expr op rhs.expr, lhs.span.cover rhs.span⟩ (ls ++ rs) := by
  refine ⟨?_, ?_⟩
  · rw [Expr.operands_binary, hl.operands, hr.operands, List.map_append]
  · rw [Token.spans_append]
    exact hl.span.union hr.span

namespace Yard

/-! ### One output at a time -/

theorem build_cons_eq_ok {stack after : List Piece} {o : Output} {os : List Output}
    (h : build stack (o :: os) = .ok after) :
    ∃ middle, push stack o = .ok middle ∧ build middle os = .ok after := by
  rw [build_cons] at h
  cases hpush : push stack o with
  | error operator => rw [hpush] at h; cases h
  | ok middle =>
    rw [hpush] at h
    exact ⟨middle, rfl, h⟩

/-- What the machine does with an output that does not stop it. -/
inductive Pushed : Output → List Piece → List Piece → Prop where
  | operand (token : Token) (stack : List Piece) :
      Pushed (.operand token) stack (⟨.operand token.text, token.span⟩ :: stack)
  | operator (op : Operator) (token : Token) (lhs rhs : Piece) (stack : List Piece) :
      Pushed (.operator op token) (rhs :: lhs :: stack)
        (⟨.binary lhs.expr op rhs.expr, lhs.span.cover rhs.span⟩ :: stack)

theorem push_eq_ok_iff {stack after : List Piece} {o : Output} :
    push stack o = .ok after ↔ Pushed o stack after := by
  constructor
  · intro h
    match o, stack with
    | .operand token, stack => cases h; exact .operand token stack
    | .operator op token, rhs :: lhs :: stack => cases h; exact .operator op token lhs rhs stack
    | .operator op token, [] => cases h
    | .operator op token, [_] => cases h
  · rintro (⟨token, stack⟩ | ⟨op, token, lhs, rhs, stack⟩) <;> rfl

/-! ### The operands on the stack -/

/-- The operands of a stack of pieces, from its bottom to its top. -/
inductive Stacked : List Piece → List Token → Prop where
  | nil : Stacked [] []
  | cons {stack : List Piece} {tokens own : List Token} {piece : Piece} (h : Stacked stack tokens)
      (hp : piece.Of own) : Stacked (piece :: stack) (tokens ++ own)

theorem Pushed.stacked {stack after : List Piece} {o : Output} {tokens : List Token}
    (h : Pushed o stack after) (hs : Stacked stack tokens) :
    Stacked after (tokens ++ operandTokens [o]) := by
  cases h with
  | operand token => exact hs.cons (Piece.of_operand token)
  | operator op token lhs rhs stack =>
    -- two neighbours become one piece, which has the operands of both
    obtain _ | ⟨_ | ⟨hs, hl⟩, hr⟩ := hs
    change Stacked _ (_ ++ [])
    rw [List.append_nil, List.append_assoc]
    exact hs.cons (hl.binary hr op)

/-- **No operand is lost in the machine**, and the operands keep their order. -/
theorem Stacked.build : ∀ {outputs : List Output} {stack after : List Piece} {tokens : List Token},
    Stacked stack tokens → build stack outputs = .ok after →
      Stacked after (tokens ++ operandTokens outputs) := by
  intro outputs
  induction outputs with
  | nil =>
    intro stack after tokens hs h
    cases h
    rwa [operandTokens, List.filterMap_nil, List.append_nil]
  | cons o os ih =>
    intro stack after tokens hs h
    obtain ⟨middle, hpush, h⟩ := build_cons_eq_ok h
    have hmiddle := ih ((push_eq_ok_iff.mp hpush).stacked hs) h
    rwa [List.append_assoc, ← operandTokens_append] at hmiddle

/-- The leaves of the pieces are texts of the operands. -/
theorem Stacked.exists_text {stack : List Piece} {tokens : List Token} (h : Stacked stack tokens)
    {piece : Piece} (hp : piece ∈ stack) {text : String} (ht : text ∈ piece.expr.operands) :
    ∃ t ∈ tokens, t.text = text := by
  induction h with
  | nil => cases hp
  | cons _ hown ih =>
    rcases List.mem_cons.mp hp with rfl | hp
    · rw [hown.operands] at ht
      obtain ⟨t, hmem, rfl⟩ := List.mem_map.mp ht
      exact ⟨t, List.mem_append_right _ hmem, rfl⟩
    · obtain ⟨t, hmem, htext⟩ := ih hp
      exact ⟨t, List.mem_append_left _ hmem, htext⟩

/-! ### Where the machine looks -/

/-- A run of the machine does not touch what is below its operands. -/
theorem build_append_base (base : List Piece) : ∀ {outputs : List Output}
    {stack after : List Piece}, build stack outputs = .ok after →
      build (stack ++ base) outputs = .ok (after ++ base) := by
  intro outputs
  induction outputs with
  | nil =>
    intro stack after h
    cases h
    rfl
  | cons o os ih =>
    intro stack after h
    obtain ⟨middle, hpush, h⟩ := build_cons_eq_ok h
    have hbase : push (stack ++ base) o = .ok (middle ++ base) := by
      cases push_eq_ok_iff.mp hpush <;> rfl
    rw [build_cons, hbase]
    exact ih h

theorem mem_operatorTokens_of_push {stack : List Piece} {o : Output} {t : Token}
    (h : push stack o = .error t) : t ∈ operatorTokens [o] := by
  match o, stack with
  | .operand token, stack => cases h
  | .operator op token, _ :: _ :: _ => cases h
  | .operator op token, [] => cases h; exact List.mem_singleton_self t
  | .operator op token, [_] => cases h; exact List.mem_singleton_self t

/-- The machine stops at an operator that it reads. -/
theorem mem_operatorTokens_of_build : ∀ {outputs : List Output} {stack : List Piece} {t : Token},
    build stack outputs = .error t → t ∈ operatorTokens outputs := by
  intro outputs
  induction outputs with
  | nil => intro stack t h; cases h
  | cons o os ih =>
    intro stack t h
    rw [build_cons] at h
    change t ∈ operatorTokens ([o] ++ os)
    rw [operatorTokens_append, List.mem_append]
    cases hpush : push stack o with
    | ok middle =>
      rw [hpush] at h
      exact .inr (ih h)
    | error operator =>
      rw [hpush] at h
      cases h
      exact .inl (mem_operatorTokens_of_push hpush)

/-- Nothing is left on the stack only if nothing was read. -/
theorem eq_nil_of_build {outputs : List Output} {stack : List Piece}
    (h : build stack outputs = .ok []) : outputs = [] := by
  induction outputs generalizing stack with
  | nil => rfl
  | cons o os ih =>
    obtain ⟨middle, hpush, h⟩ := build_cons_eq_ok h
    rw [ih h] at h
    cases h
    cases push_eq_ok_iff.mp hpush

end Yard

end Reckon
