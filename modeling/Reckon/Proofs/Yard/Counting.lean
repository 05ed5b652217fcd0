import Reckon.Proofs.Yard.Fusion

/-!
# Counting operands, operators and parentheses

Neither the yard nor the machine loses a token, and the machine trades two pieces for one
with each operator.  So of an accepted row of tokens three numbers are known without a look
at the stacks: the parentheses match, and there is one operand more than operators.

## Main definitions

* `Token.weight`, `Yard.surplus` — operands less operators, of a token and of a row.
* `Yard.Balanced depth tokens` — the parentheses in `tokens` match when `depth` of them were
  open before.

## Main results

* `Yard.length_build` — the height of the machine's stack.
* `Yard.balanced_and_surplus_of_run` — what a run of the yard to its end has counted.
* `Yard.balanced_and_surplus_of_ofTokens` — **so of every accepted row of tokens**.
-/

namespace Reckon

/-- Operands less operators. -/
def Token.weight (t : Token) : Int :=
  match t.role with
  | .operand => 1
  | .operator _ => -1
  | .opening | .closing => 0

theorem Token.weight_operand {t : Token} (ht : t.role = .operand) : t.weight = 1 := by
  rw [weight, ht]

theorem Token.weight_operator {t : Token} {op : Operator} (ht : t.role = .operator op) :
    t.weight = -1 := by
  rw [weight, ht]

theorem Token.weight_opening {t : Token} (ht : t.role = .opening) : t.weight = 0 := by
  rw [weight, ht]

theorem Token.weight_closing {t : Token} (ht : t.role = .closing) : t.weight = 0 := by
  rw [weight, ht]

namespace Yard

/-! ### Counting tokens -/

/-- The number of operands in a row of tokens, less the number of operators. -/
def surplus : List Token → Int
  | [] => 0
  | t :: ts => t.weight + surplus ts

@[simp] theorem surplus_nil : surplus [] = 0 := rfl

@[simp] theorem surplus_cons (t : Token) (ts : List Token) :
    surplus (t :: ts) = t.weight + surplus ts := rfl

/-- The parentheses match, if `depth` of them are open at the start and none at the end. -/
def Balanced : Nat → List Token → Prop
  | depth, [] => depth = 0
  | depth, t :: ts =>
    match t.role with
    | .opening => Balanced (depth + 1) ts
    | .closing => 0 < depth ∧ Balanced (depth - 1) ts
    | .operand | .operator _ => Balanced depth ts

theorem balanced_operand {t : Token} (ht : t.role = .operand) (depth : Nat)
    (ts : List Token) : Balanced depth (t :: ts) ↔ Balanced depth ts := by
  rw [Balanced, ht]

theorem balanced_operator {t : Token} {op : Operator} (ht : t.role = .operator op)
    (depth : Nat) (ts : List Token) : Balanced depth (t :: ts) ↔ Balanced depth ts := by
  rw [Balanced, ht]

theorem balanced_opening {t : Token} (ht : t.role = .opening) (depth : Nat)
    (ts : List Token) : Balanced depth (t :: ts) ↔ Balanced (depth + 1) ts := by
  rw [Balanced, ht]

theorem balanced_closing {t : Token} (ht : t.role = .closing) (depth : Nat)
    (ts : List Token) : Balanced depth (t :: ts) ↔ 0 < depth ∧ Balanced (depth - 1) ts := by
  rw [Balanced, ht]

/-! ### Counting what waits and what is sent on -/

/-- The number of operands among the elements of postfix notation, less the number of
operators. -/
def balance : List Output → Int
  | [] => 0
  | .operand _ :: os => balance os + 1
  | .operator _ _ :: os => balance os - 1

@[simp] theorem balance_append (as bs : List Output) :
    balance (as ++ bs) = balance as + balance bs := by
  induction as with
  | nil => simp [balance]
  | cons o as ih => cases o <;> simp only [List.cons_append, balance, ih] <;> omega

@[simp] theorem balance_outputs (ps : Pending) : balance ps.outputs = -ps.length := by
  induction ps with
  | nil => rfl
  | cons p ps ih =>
    change balance (Pending.outputs ps) - 1 = _
    rw [ih, List.length_cons]
    omega

/-- The number of operators that wait. -/
def operators : List Entry → Nat
  | [] => 0
  | .opening _ :: stack => operators stack
  | .operator _ _ :: stack => operators stack + 1

/-- The number of parentheses that are open. -/
def openings : List Entry → Nat
  | [] => 0
  | .opening _ :: stack => openings stack + 1
  | .operator _ _ :: stack => openings stack

@[simp] theorem operators_entries_append (ps : Pending) (stack : List Entry) :
    operators (ps.entries ++ stack) = ps.length + operators stack := by
  induction ps with
  | nil => simp [Pending.entries]
  | cons p ps ih =>
    change operators (Pending.entries ps ++ stack) + 1 = _
    rw [ih, List.length_cons]
    omega

@[simp] theorem openings_entries_append (ps : Pending) (stack : List Entry) :
    openings (ps.entries ++ stack) = openings stack := by
  induction ps with
  | nil => rfl
  | cons p ps ih => exact ih

/-- The machine's stack grows by one with an operand and shrinks by one with an operator. -/
theorem length_build : ∀ (outputs : List Output) (stack after : List Piece),
    build stack outputs = .ok after → (after.length : Int) = stack.length + balance outputs := by
  intro outputs
  induction outputs with
  | nil =>
    intro stack after h
    cases h
    simp [balance]
  | cons o os ih =>
    intro stack after h
    rw [build_cons] at h
    match o, stack with
    | .operand token, stack =>
      have := ih _ _ h
      simp only [List.length_cons, balance] at this ⊢
      omega
    | .operator op token, rhs :: lhs :: stack =>
      have := ih _ _ h
      simp only [List.length_cons, balance] at this ⊢
      omega
    -- an operator that lacks a side stops the machine
    | .operator op token, [] => cases h
    | .operator op token, [_] => cases h

/-- What one step changes: nothing, counted over what is sent on and what waits. -/
theorem Shift.counts {token : Token} {stack after : List Entry} {sent : List Output}
    (h : Shift token stack sent after) :
    balance sent - operators after = token.weight - operators stack ∧
      ∀ ts, Balanced (openings after) ts → Balanced (openings stack) (token :: ts) := by
  cases h with
  | operand ht =>
    refine ⟨by simp [balance, Token.weight_operand ht], fun ts hts => ?_⟩
    rwa [balanced_operand ht]
  | opening ht =>
    refine ⟨by simp [balance, operators, Token.weight_opening ht], fun ts hts => ?_⟩
    rwa [balanced_opening ht]
  | closing ht ps opened =>
    refine ⟨?_, fun ts hts => ?_⟩
    · simp only [balance_outputs, operators_entries_append, operators,
        Token.weight_closing ht]
      omega
    · rw [openings_entries_append, openings, balanced_closing ht]
      exact ⟨Nat.succ_pos _, hts⟩
  | operator ht ps hps hbase =>
    refine ⟨?_, fun ts hts => ?_⟩
    · -- the incoming operator waits in place of those that gave way
      simp only [balance_outputs, operators_entries_append, operators,
        Token.weight_operator ht]
      omega
    · rw [openings_entries_append, balanced_operator ht]
      exact hts

/-- What a run to the end has counted, from any stack on. -/
theorem balanced_and_surplus_of_run : ∀ (tokens : List Token) (stack : List Entry)
    (sent : List Output), tokens.foldlM step stack >>= finish = ⟨sent, .ok ()⟩ →
      Balanced (openings stack) tokens ∧ balance sent = surplus tokens - operators stack := by
  intro tokens
  induction tokens with
  | nil =>
    intro stack sent h
    rw [List.foldlM_nil, pure_bind] at h
    -- a parenthesis that is still open would have stopped the yard: operators alone wait
    obtain ⟨ps, rfl, rfl⟩ := eq_entries_of_finish h
    have hopen := openings_entries_append ps []
    have hoperators := operators_entries_append ps []
    rw [List.append_nil] at hopen hoperators
    rw [hopen, hoperators, balance_outputs]
    exact ⟨rfl, by simp [operators]⟩
  | cons token tokens ih =>
    intro stack sent h
    rw [List.foldlM_cons, bind_assoc] at h
    obtain ⟨after, front, back, hstep, hrest, rfl⟩ := Traced.bind_eq_ok h
    obtain ⟨hbalanced, hbalance⟩ := ih after back hrest
    obtain ⟨hcount, hopen⟩ := (shift_of_step hstep).counts
    refine ⟨hopen tokens hbalanced, ?_⟩
    rw [balance_append, hbalance, surplus_cons]
    omega

/-- **In an accepted row of tokens the parentheses match, and there is one operand more than
operators.** -/
theorem balanced_and_surplus_of_ofTokens {tokens : List Token} {e : Expr}
    (h : Expr.ofTokens tokens = .ok e) : Balanced 0 tokens ∧ surplus tokens = 1 := by
  obtain ⟨span, hfuse⟩ := Expr.ofTokens_eq_ok_iff.mp h
  obtain ⟨hbuild, hrun⟩ := fuse_eq_ok hfuse
  have hok : tokens.foldlM step [] >>= finish = ⟨(run tokens).trace, .ok ()⟩ := by
    rw [← hrun]
    rfl
  obtain ⟨hbalanced, hbalance⟩ := balanced_and_surplus_of_run tokens [] _ hok
  -- the one piece that is left counts what was sent on, and that counts the tokens
  have hlength := length_build _ _ _ hbuild
  refine ⟨hbalanced, ?_⟩
  simp only [List.length_cons, List.length_nil, operators] at hlength hbalance
  omega

end Yard

end Reckon
