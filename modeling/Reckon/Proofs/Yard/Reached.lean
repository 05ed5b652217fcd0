import Mathlib.Data.List.Perm.Basic
import Reckon.Proofs.Yard.Counting

/-!
# Where the yard comes to

The yard takes one token after the other until one of them stops it or none is left.  What it
has sent on and what waits in it then are made of the tokens that it took: none of them is lost
on the way, none is there twice, and the operands have kept their order.

## Main definitions

* `Token.operands`, `Token.operators` — the operands and the operators of a row of tokens.
* `Yard.Reached base tokens sent stack` — behind `tokens`, `sent` was sent on and `stack` waits,
  when `base` waited at first.
* `Yard.Ends base tokens x` — the three ways in which a run over `tokens` can end.

## Main results

* `Yard.step_of_shift`, `Yard.exists_shift` — a token is taken, unless it closes a parenthesis
  and none is open.
* `Yard.ends_foldlM_step`, `Yard.ends_run` — **how a run ends**, for every row of tokens.
* `Yard.Reached.append_opening` — what waits below an open parenthesis makes no difference.
* `Yard.Reached.operands`, `Yard.Reached.operators` — **no token is lost**.
-/

namespace Reckon

/-! ### The operands and the operators of a row of tokens -/

/-- The operands of a row of tokens, in their order. -/
def Token.operands (tokens : List Token) : List Token :=
  tokens.filter fun t => t.role = .operand

/-- The operators of a row of tokens, in their order. -/
def Token.operators (tokens : List Token) : List Token :=
  tokens.filter fun t => t.role matches .operator _

namespace Token

@[simp] theorem operands_append (as bs : List Token) :
    operands (as ++ bs) = operands as ++ operands bs := List.filter_append as bs

@[simp] theorem operators_append (as bs : List Token) :
    operators (as ++ bs) = operators as ++ operators bs := List.filter_append as bs

theorem mem_operands {t : Token} {tokens : List Token} :
    t ∈ operands tokens ↔ t ∈ tokens ∧ t.role = .operand := by
  simp [operands]

theorem mem_operators {t : Token} {tokens : List Token} :
    t ∈ operators tokens ↔ t ∈ tokens ∧ ∃ op, t.role = .operator op := by
  rw [operators, List.mem_filter]
  cases t.role <;> simp

theorem operands_operand {t : Token} (ht : t.role = .operand) : operands [t] = [t] := by
  simp [operands, ht]

theorem operands_of_ne {t : Token} (ht : t.role ≠ .operand) : operands [t] = [] := by
  simp [operands, ht]

theorem operators_operator {t : Token} {op : Operator} (ht : t.role = .operator op) :
    operators [t] = [t] := by
  simp [operators, ht]

theorem operators_of_ne {t : Token} (ht : ∀ op, t.role ≠ .operator op) : operators [t] = [] := by
  rw [List.eq_nil_iff_forall_not_mem]
  intro u hu
  obtain ⟨hmem, op, hop⟩ := mem_operators.mp hu
  rw [List.mem_singleton.mp hmem] at hop
  exact ht op hop

end Token

namespace Yard

/-- The operand that an output is. -/
def Output.operand? : Output → Option Token
  | .operand token => some token
  | .operator _ _ => none

/-- The operator that an output is. -/
def Output.operator? : Output → Option Token
  | .operand _ => none
  | .operator _ token => some token

/-- The operator that an entry is. -/
def Entry.operator? : Entry → Option Token
  | .opening _ => none
  | .operator _ token => some token

/-- The operands that were sent on, in their order. -/
def operandTokens (outputs : List Output) : List Token := outputs.filterMap Output.operand?

/-- The operators that were sent on. -/
def operatorTokens (outputs : List Output) : List Token := outputs.filterMap Output.operator?

/-- The operators that wait. -/
def waitingOperators (stack : List Entry) : List Token := stack.filterMap Entry.operator?

@[simp] theorem operandTokens_append (as bs : List Output) :
    operandTokens (as ++ bs) = operandTokens as ++ operandTokens bs := List.filterMap_append

@[simp] theorem operatorTokens_append (as bs : List Output) :
    operatorTokens (as ++ bs) = operatorTokens as ++ operatorTokens bs := List.filterMap_append

@[simp] theorem waitingOperators_append (as bs : List Entry) :
    waitingOperators (as ++ bs) = waitingOperators as ++ waitingOperators bs :=
  List.filterMap_append

@[simp] theorem waitingOperators_opening (paren : Token) (stack : List Entry) :
    waitingOperators (.opening paren :: stack) = waitingOperators stack := rfl

@[simp] theorem operandTokens_outputs (ps : Pending) : operandTokens ps.outputs = [] := by
  simp [operandTokens, Pending.outputs, Output.operand?]

@[simp] theorem operatorTokens_outputs (ps : Pending) :
    operatorTokens ps.outputs = ps.map Prod.snd := by
  simp [operatorTokens, Pending.outputs, List.filterMap_map, Output.operator?,
    Function.comp_def]

@[simp] theorem waitingOperators_entries (ps : Pending) :
    waitingOperators ps.entries = ps.map Prod.snd := by
  simp [waitingOperators, Pending.entries, List.filterMap_map, Entry.operator?,
    Function.comp_def]

/-- The machine counts operands and operators, and nothing else. -/
theorem balance_eq (outputs : List Output) :
    balance outputs = (operandTokens outputs).length - (operatorTokens outputs).length := by
  induction outputs with
  | nil => rfl
  | cons o os ih =>
    cases o with
    | operand token =>
      change balance os + 1 = ((operandTokens os).length + 1 : Nat) - (operatorTokens os).length
      omega
    | operator op token =>
      change balance os - 1 = (operandTokens os).length - ((operatorTokens os).length + 1 : Nat)
      omega

/-! ### Which tokens are taken -/

/-- A step does what `Shift` says. -/
theorem step_of_shift {token : Token} {stack after : List Entry} {sent : List Output}
    (h : Shift token stack sent after) : step stack token = ⟨sent, .ok after⟩ := by
  cases h with
  | operand ht =>
    rw [step, ht]
    rfl
  | opening ht =>
    rw [step, ht]
    rfl
  | closing ht ps opened =>
    rw [step, ht]
    exact close_entries_opening ps token opened after
  | operator ht ps hps hbase =>
    rw [step, ht]
    change unwind _ _ >>= _ = _
    rw [unwind_pending hbase ps hps, Traced.mk_ok_bind]
    simp

/-- Every token is taken, except a closing parenthesis while operators alone wait. -/
theorem exists_shift (stack : List Entry) (token : Token) :
    (∃ sent after, Shift token stack sent after) ∨
      token.role = .closing ∧ ∃ ps : Pending, stack = ps.entries := by
  cases ht : token.role with
  | operand => exact .inl ⟨_, _, .operand ht⟩
  | opening => exact .inl ⟨_, _, .opening ht⟩
  | operator op =>
    obtain ⟨ps, base, rfl, hps, hbase, -⟩ := exists_unwind_eq op.fixity.precedence stack
    exact .inl ⟨_, _, .operator ht ps hps hbase⟩
  | closing =>
    obtain ⟨ps, rfl | ⟨opened, below, rfl⟩⟩ := exists_pending stack
    · exact .inr ⟨rfl, ps, rfl⟩
    · exact .inl ⟨_, _, .closing ht ps opened⟩

theorem step_unmatched {token : Token} (ht : token.role = .closing) (ps : Pending) :
    step ps.entries token = ⟨ps.outputs, .error ⟨.group, .unmatchedClosing token⟩⟩ := by
  rw [step, ht]
  exact close_entries ps token

/-! ### The course of a run -/

/-- What the yard comes to when `base` waits in it at first: the tokens that it took, what it
sent on and what waits in it then. -/
inductive Reached (base : List Entry) : List Token → List Output → List Entry → Prop where
  | start : Reached base [] [] base
  | shift {tokens : List Token} {sent more : List Output} {stack after : List Entry}
      {token : Token} (h : Reached base tokens sent stack) (hs : Shift token stack more after) :
      Reached base (tokens ++ [token]) (sent ++ more) after

/-- How a run over a row of tokens ends.  In each case the operators on top of the stack are the
last that is sent on. -/
inductive Ends (base : List Entry) (tokens : List Token) : Shunting Unit → Prop where
  /-- All tokens were taken, and operators alone wait. -/
  | finished {sent : List Output} {ps : Pending} (h : Reached base tokens sent ps.entries) :
      Ends base tokens ⟨sent ++ ps.outputs, .ok ()⟩
  /-- All tokens were taken, and a parenthesis is open. -/
  | unclosed {sent : List Output} {ps : Pending} {paren : Token} {below : List Entry}
      (h : Reached base tokens sent (ps.entries ++ .opening paren :: below)) :
      Ends base tokens ⟨sent ++ ps.outputs, .error ⟨.whole, .unclosedOpening paren⟩⟩
  /-- A parenthesis closes, and none is open. -/
  | unmatched {before after : List Token} {token : Token} {sent : List Output} {ps : Pending}
      (htokens : tokens = before ++ token :: after) (ht : token.role = .closing)
      (h : Reached base before sent ps.entries) :
      Ends base tokens ⟨sent ++ ps.outputs, .error ⟨.group, .unmatchedClosing token⟩⟩

variable {base stack : List Entry} {tokens : List Token} {sent : List Output}

theorem Reached.foldlM_step (h : Reached base tokens sent stack) :
    tokens.foldlM step base = ⟨sent, .ok stack⟩ := by
  induction h with
  | start => rfl
  | shift _ hs ih =>
    rw [List.foldlM_append, ih, Traced.mk_ok_bind, List.foldlM_cons, step_of_shift hs,
      Traced.mk_ok_bind]
    simp

theorem Reached.append_of_foldlM_step : ∀ {rest tokens : List Token} {sent more : List Output}
    {stack after : List Entry}, Reached base tokens sent stack →
      rest.foldlM step stack = ⟨more, .ok after⟩ →
        Reached base (tokens ++ rest) (sent ++ more) after := by
  intro rest
  induction rest with
  | nil =>
    intro tokens sent more stack after h hrest
    cases hrest
    rwa [List.append_nil, List.append_nil]
  | cons token rest ih =>
    intro tokens sent more stack after h hrest
    rw [List.foldlM_cons] at hrest
    obtain ⟨middle, front, back, hstep, hback, rfl⟩ := Traced.bind_eq_ok hrest
    have hreached := ih (h.shift (shift_of_step hstep)) hback
    rwa [List.append_assoc, List.append_assoc] at hreached

/-- A state is reached when the steps over the tokens come to it. -/
theorem reached_iff : Reached base tokens sent stack ↔
    tokens.foldlM step base = ⟨sent, .ok stack⟩ :=
  ⟨Reached.foldlM_step, Reached.start.append_of_foldlM_step⟩

/-- How a run goes on behind what it has reached. -/
theorem Reached.ends : ∀ {rest tokens : List Token} {sent : List Output} {stack : List Entry},
    Reached base tokens sent stack →
      Ends base (tokens ++ rest)
        ⟨sent ++ (rest.foldlM step stack >>= finish).trace,
          (rest.foldlM step stack >>= finish).result⟩ := by
  intro rest
  induction rest with
  | nil =>
    intro tokens sent stack h
    rw [List.append_nil, List.foldlM_nil, pure_bind]
    obtain ⟨ps, rfl | ⟨paren, below, rfl⟩⟩ := exists_pending stack
    · rw [finish_entries]
      exact .finished h
    · rw [finish_entries_opening]
      exact .unclosed h
  | cons token rest ih =>
    intro tokens sent stack h
    rw [List.foldlM_cons, bind_assoc]
    rcases exists_shift stack token with ⟨more, after, hs⟩ | ⟨ht, ps, rfl⟩
    · -- the token is taken, and the rest goes on behind it
      have hrest := ih (h.shift hs)
      rw [step_of_shift hs, Traced.mk_ok_bind]
      rwa [List.append_assoc, List.append_assoc] at hrest
    · rw [step_unmatched ht]
      exact .unmatched rfl ht h

/-- **How a run ends**, from any stack. -/
theorem ends_foldlM_step (base : List Entry) (tokens : List Token) :
    Ends base tokens (tokens.foldlM step base >>= finish) := by
  have hstart : Reached base [] [] base := .start
  exact hstart.ends

theorem ends_run (tokens : List Token) : Ends [] tokens (run tokens) := ends_foldlM_step [] tokens

/-- A run that comes to its end has taken every token, and operators alone were left. -/
theorem Ends.exists_reached {x : Shunting Unit} (h : Ends base tokens x)
    (hok : x.result = .ok ()) : ∃ (sent : List Output) (ps : Pending),
      Reached base tokens sent ps.entries ∧ x.trace = sent ++ ps.outputs := by
  cases h with
  | finished h => exact ⟨_, _, h, rfl⟩
  | unclosed _ => cases hok
  | unmatched _ _ _ => cases hok

/-! ### Below an open parenthesis -/

theorem Settled.append_opening {least : Nat} {stack : List Entry} (h : Settled least stack)
    (paren : Token) (below : List Entry) : Settled least (stack ++ .opening paren :: below) := by
  match stack with
  | [] => trivial
  | .opening _ :: _ => trivial
  | .operator _ _ :: _ => exact h

/-- A step does not reach below an open parenthesis, unless it closes it. -/
theorem Shift.append_opening {token : Token} {stack after : List Entry} {sent : List Output}
    (h : Shift token stack sent after) (paren : Token) (below : List Entry) :
    Shift token (stack ++ .opening paren :: below) sent (after ++ .opening paren :: below) := by
  cases h with
  | operand ht => exact .operand ht
  | opening ht => exact .opening ht
  | closing ht ps opened =>
    rw [List.append_assoc, List.cons_append]
    exact .closing ht ps opened
  | operator ht ps hps hbase =>
    rw [List.append_assoc]
    exact .operator ht ps hps (hbase.append_opening paren below)

theorem Reached.append_opening (h : Reached base tokens sent stack) (paren : Token)
    (below : List Entry) :
    Reached (base ++ .opening paren :: below) tokens sent (stack ++ .opening paren :: below) := by
  induction h with
  | start => exact .start
  | shift _ hs ih => exact ih.shift (hs.append_opening paren below)

/-! ### No token is lost -/

theorem Shift.operands {token : Token} {stack after : List Entry} {sent : List Output}
    (h : Shift token stack sent after) : operandTokens sent = Token.operands [token] := by
  cases h with
  | operand ht =>
    rw [Token.operands_operand ht]
    rfl
  | opening ht =>
    rw [Token.operands_of_ne (by simp [ht])]
    rfl
  | closing ht ps opened => rw [Token.operands_of_ne (by simp [ht]), operandTokens_outputs]
  | operator ht ps hps hbase => rw [Token.operands_of_ne (by simp [ht]), operandTokens_outputs]

/-- What a step sends on was waiting, and what waits behind it was waiting or is the token. -/
theorem Shift.operators {token : Token} {stack after : List Entry} {sent : List Output}
    (h : Shift token stack sent after) :
    (operatorTokens sent ++ waitingOperators after).Perm
      (waitingOperators stack ++ Token.operators [token]) := by
  cases h with
  | operand ht =>
    rw [Token.operators_of_ne (by simp [ht]), List.append_nil]
    exact .refl _
  | opening ht =>
    rw [Token.operators_of_ne (by simp [ht]), List.append_nil]
    exact .refl _
  | closing ht ps opened =>
    rw [Token.operators_of_ne (by simp [ht]), List.append_nil]
    simp
  | operator ht ps hps hbase =>
    rw [Token.operators_operator ht, operatorTokens_outputs, waitingOperators_append,
      waitingOperators_entries, List.append_assoc]
    exact (List.perm_append_singleton token _).symm.append_left _

/-- **No operand is lost**, and the operands keep their order. -/
theorem Reached.operands (h : Reached base tokens sent stack) :
    operandTokens sent = Token.operands tokens := by
  induction h with
  | start => rfl
  | shift _ hs ih => rw [operandTokens_append, ih, hs.operands, Token.operands_append]

/-- **No operator is lost**: each was sent on or waits. -/
theorem Reached.operators (h : Reached base tokens sent stack) :
    (operatorTokens sent ++ waitingOperators stack).Perm
      (waitingOperators base ++ Token.operators tokens) := by
  induction h with
  | start => rw [Token.operators, List.filter_nil, List.append_nil]; exact .refl _
  | shift _ hs ih =>
    rw [operatorTokens_append, List.append_assoc, Token.operators_append, ← List.append_assoc _ _
      (Token.operators [_])]
    refine (hs.operators.append_left _).trans ?_
    rw [← List.append_assoc]
    exact ih.append_right _

/-- A run that comes to its end has sent everything on. -/
theorem Ends.sent_of_ok {x : Shunting Unit} (h : Ends base tokens x) (hok : x.result = .ok ()) :
    operandTokens x.trace = Token.operands tokens ∧
      (operatorTokens x.trace).Perm (waitingOperators base ++ Token.operators tokens) := by
  obtain ⟨sent, ps, hreached, htrace⟩ := h.exists_reached hok
  have hoperators := hreached.operators
  rw [waitingOperators_entries] at hoperators
  rw [htrace, operandTokens_append, operandTokens_outputs, List.append_nil, hreached.operands,
    operatorTokens_append, operatorTokens_outputs]
  exact ⟨rfl, hoperators⟩

/-- However a run ends, the operands that it sent on are operands of the row. -/
theorem Ends.mem_operands {x : Shunting Unit} (h : Ends base tokens x) {t : Token}
    (ht : t ∈ operandTokens x.trace) : t ∈ Token.operands tokens := by
  cases h with
  | finished h => simpa [h.operands] using ht
  | unclosed h => simpa [h.operands] using ht
  | unmatched htokens _ h =>
    rw [htokens, Token.operands_append]
    exact List.mem_append_left _ (by simpa [h.operands] using ht)

/-- However a run ends, the operators that it sent on were waiting at first or are operators of
the row. -/
theorem Ends.mem_operators {x : Shunting Unit} (h : Ends base tokens x) {t : Token}
    (ht : t ∈ operatorTokens x.trace) : t ∈ waitingOperators base ++ Token.operators tokens := by
  cases h with
  | finished h => exact h.operators.subset (by simpa using ht)
  | unclosed h =>
    refine h.operators.subset ?_
    simp only [operatorTokens_append, operatorTokens_outputs, List.mem_append] at ht
    simp only [waitingOperators_append, waitingOperators_entries, List.mem_append]
    exact ht.imp_right .inl
  | unmatched htokens _ h =>
    rw [htokens, Token.operators_append, ← List.append_assoc]
    exact List.mem_append_left _ (h.operators.subset (by simpa using ht))

end Yard

end Reckon
