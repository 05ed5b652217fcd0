import Reckon.Assembly

/-!
# The shunting yard and the postfix machine

The textbook construction of an expression has two phases, one after the other.  The *yard*
turns the tokens into postfix notation with a single stack, on which operators and opening
parentheses wait: an operand is sent on at once, an operator when something makes it give way.
The *machine* reads postfix notation with a single stack of finished pieces.

The yard is written in the same monad as `Assembly`: what it sends on is its record, so it
is known also when a parenthesis stops the yard.

## Main definitions

* `Yard.Entry`, `Yard.Output` — what waits in the yard, and what leaves it.
* `Yard.unwind least stack` — sends on the operators on top of the stack, down to the first
  entry that is a parenthesis or binds less tightly than `least`.
* `Yard.step`, `Yard.finish`, `Yard.run` — one token, the end of the tokens, the first phase.
* `Yard.push`, `Yard.build` — one step of the machine, and the second phase.

## Main results

* `Yard.build_append` — the machine may be stopped and set going again.
* `Yard.unwind_pending`, `Yard.exists_unwind_eq` — what gives way, of any stack.
* `Yard.shift_of_step` — everything that a step can do.
-/

namespace Reckon.Yard

/-- What waits in the yard. -/
inductive Entry where
  /-- An opening parenthesis that is not closed yet. -/
  | opening (paren : Token)
  /-- An operator that nothing has made give way yet. -/
  | operator (op : Operator) (token : Token)
  deriving DecidableEq, Repr

/-- What leaves the yard: the elements of postfix notation, as the tokens that they were. -/
inductive Output where
  | operand (token : Token)
  | operator (op : Operator) (token : Token)
  deriving DecidableEq, Repr

/-- A computation of the yard: it records what is sent on, and a parenthesis may stop it. -/
abbrev Shunting := Traced Output SyntaxError

/-! ### The first phase -/

/-- Sends on the operators on top of the stack, as long as they bind at least as tightly as
`least`.  An opening parenthesis never gives way. -/
def unwind (least : Nat) : List Entry → Shunting (List Entry)
  | .operator op token :: stack =>
    if least ≤ op.fixity.precedence then do
      Traced.note (.operator op token)
      unwind least stack
    else pure (.operator op token :: stack)
  | stack => pure stack

/-- Sends on every operator above the nearest opening parenthesis, and removes that. -/
def close (paren : Token) (stack : List Entry) : Shunting (List Entry) := do
  match ← unwind 0 stack with
  | .opening _ :: stack => pure stack
  | _ => Traced.fail ⟨.group, .unmatchedClosing paren⟩

/-- Takes one token. -/
def step (stack : List Entry) (token : Token) : Shunting (List Entry) :=
  match token.role with
  | .operand => do
    Traced.note (.operand token)
    pure stack
  | .opening => pure (.opening token :: stack)
  | .closing => close token stack
  | .operator op => do
    let stack ← unwind op.fixity.precedence stack
    pure (.operator op token :: stack)

/-- The end of the tokens: sends on what still waits, unless a parenthesis is open. -/
def finish (stack : List Entry) : Shunting Unit := do
  match ← unwind 0 stack with
  | .opening paren :: _ => Traced.fail ⟨.whole, .unclosedOpening paren⟩
  | _ => pure ()

/-- The first phase, from an empty stack. -/
def run (tokens : List Token) : Shunting Unit := do
  let stack ← tokens.foldlM step []
  finish stack

/-! ### The second phase -/

/-- One step of the machine.  An operator takes its right side from the stack and then its
left side; the answer is the operator itself when they are not both there. -/
def push : List Piece → Output → Except Token (List Piece)
  | stack, .operand token => .ok (⟨.operand token.text, token.span⟩ :: stack)
  | rhs :: lhs :: stack, .operator op _ =>
    .ok (⟨.binary lhs.expr op rhs.expr, lhs.span.cover rhs.span⟩ :: stack)
  | _, .operator _ token => .error token

/-- The second phase.  It stops at the first operator that lacks a side. -/
def build (stack : List Piece) (outputs : List Output) : Except Token (List Piece) :=
  outputs.foldlM push stack

@[simp] theorem build_cons (stack : List Piece) (o : Output) (os : List Output) :
    build stack (o :: os) = (push stack o).bind fun stack => build stack os := rfl

theorem build_append (stack : List Piece) (as bs : List Output) :
    build stack (as ++ bs) = (build stack as).bind fun stack => build stack bs := by
  simp only [build, List.foldlM_append]
  rfl

/-! ### What gives way -/

theorem unwind_operator_of_le {least : Nat} {op : Operator}
    (h : least ≤ op.fixity.precedence) (token : Token) (stack : List Entry) :
    unwind least (.operator op token :: stack) =
      Traced.note (.operator op token) >>= fun _ => unwind least stack := by
  rw [unwind, if_pos h]

theorem unwind_operator_of_lt {least : Nat} {op : Operator}
    (h : op.fixity.precedence < least) (token : Token) (stack : List Entry) :
    unwind least (.operator op token :: stack) = pure (.operator op token :: stack) := by
  rw [unwind, if_neg (Nat.not_le.mpr h)]

@[simp] theorem unwind_zero_operator (op : Operator) (token : Token) (stack : List Entry) :
    unwind 0 (.operator op token :: stack) =
      Traced.note (.operator op token) >>= fun _ => unwind 0 stack :=
  unwind_operator_of_le (Nat.zero_le _) token stack

/-- A row of operators with the tokens that they were, nearest first. -/
abbrev Pending := List (Operator × Token)

/-- A row of operators as they wait in the yard. -/
def Pending.entries (ps : Pending) : List Entry := ps.map fun p => .operator p.1 p.2

/-- A row of operators as they leave the yard. -/
def Pending.outputs (ps : Pending) : List Output := ps.map fun p => .operator p.1 p.2

/-- Nothing on top of a stack gives way to an operator of precedence `least`. -/
def Settled (least : Nat) : List Entry → Prop
  | .operator op _ :: _ => op.fixity.precedence < least
  | _ => True

theorem Settled.mono {m n : Nat} (h : m ≤ n) : ∀ {stack : List Entry},
    Settled m stack → Settled n stack
  | [], _ => trivial
  | .opening _ :: _, _ => trivial
  | .operator _ _ :: _, hm => Nat.lt_of_lt_of_le hm h

theorem unwind_of_settled {least : Nat} : ∀ {stack : List Entry},
    Settled least stack → unwind least stack = pure stack
  | [], _ => rfl
  | .opening _ :: _, _ => rfl
  | .operator _ token :: stack, h => unwind_operator_of_lt h token stack

/-- **What gives way**: the operators on top that bind tightly enough, and nothing below the
first entry that does not. -/
theorem unwind_pending {least : Nat} {stack : List Entry} (hstack : Settled least stack)
    (ps : Pending) (hps : ∀ p ∈ ps, least ≤ p.1.fixity.precedence) :
    unwind least (ps.entries ++ stack) = ⟨ps.outputs, .ok stack⟩ := by
  induction ps with
  | nil => exact unwind_of_settled hstack
  | cons p ps ih =>
    obtain ⟨hp, hps⟩ := List.forall_mem_cons.mp hps
    change unwind least (.operator p.1 p.2 :: (Pending.entries ps ++ stack)) = _
    rw [unwind_operator_of_le hp, ih hps]
    rfl

/-- Every stack parts into the operators that give way and a rest that does not. -/
theorem exists_unwind_eq (least : Nat) : ∀ stack : List Entry,
    ∃ (ps : Pending) (base : List Entry), stack = ps.entries ++ base ∧
      (∀ p ∈ ps, least ≤ p.1.fixity.precedence) ∧ Settled least base ∧
        unwind least stack = ⟨ps.outputs, .ok base⟩ := by
  -- at an entry that does not give way no operator is parted off
  have hstop : ∀ stack : List Entry, Settled least stack →
      ∃ (ps : Pending) (base : List Entry), stack = ps.entries ++ base ∧
        (∀ p ∈ ps, least ≤ p.1.fixity.precedence) ∧ Settled least base ∧
          unwind least stack = ⟨ps.outputs, .ok base⟩ :=
    fun stack h => ⟨[], stack, rfl, by simp, h, unwind_of_settled h⟩
  intro stack
  induction stack with
  | nil => exact hstop [] trivial
  | cons entry stack ih =>
    cases entry with
    | opening paren => exact hstop (.opening paren :: stack) trivial
    | operator op token =>
      rcases Nat.lt_or_ge op.fixity.precedence least with h | h
      · exact hstop (.operator op token :: stack) h
      · -- the operator on top gives way, and joins those that the rest parts off
        obtain ⟨ps, base, rfl, hps, hbase, -⟩ := ih
        have hps' : ∀ p ∈ (op, token) :: ps, least ≤ p.1.fixity.precedence :=
          List.forall_mem_cons.mpr ⟨h, hps⟩
        exact ⟨(op, token) :: ps, base, rfl, hps', hbase, unwind_pending hbase _ hps'⟩

@[simp] theorem close_operator (paren : Token) (op : Operator) (token : Token)
    (stack : List Entry) :
    close paren (.operator op token :: stack) =
      Traced.note (.operator op token) >>= fun _ => close paren stack := by
  simp only [close, unwind_zero_operator, bind_assoc]

@[simp] theorem finish_operator (op : Operator) (token : Token) (stack : List Entry) :
    finish (.operator op token :: stack) =
      Traced.note (.operator op token) >>= fun _ => finish stack := by
  simp only [finish, unwind_zero_operator, bind_assoc]

/-- A stack is a row of operators, with or without an opening parenthesis below it. -/
theorem exists_pending (stack : List Entry) : ∃ ps : Pending,
    stack = ps.entries ∨ ∃ paren below, stack = ps.entries ++ .opening paren :: below := by
  obtain ⟨ps, base, rfl, -, hbase, -⟩ := exists_unwind_eq 0 stack
  match base, hbase with
  | [], _ => exact ⟨ps, .inl (List.append_nil _)⟩
  | .opening paren :: below, _ => exact ⟨ps, .inr ⟨paren, below, rfl⟩⟩

theorem unwind_zero_entries (ps : Pending) : unwind 0 ps.entries = ⟨ps.outputs, .ok []⟩ := by
  have h : unwind 0 (ps.entries ++ []) = _ :=
    unwind_pending (by trivial) ps fun _ _ => Nat.zero_le _
  rwa [List.append_nil] at h

theorem unwind_zero_opening (ps : Pending) (paren : Token) (below : List Entry) :
    unwind 0 (ps.entries ++ .opening paren :: below) =
      ⟨ps.outputs, .ok (.opening paren :: below)⟩ :=
  unwind_pending (by trivial) ps fun _ _ => Nat.zero_le _

/-! ### What a step does -/

theorem close_entries_opening (ps : Pending) (paren opened : Token) (below : List Entry) :
    close paren (ps.entries ++ .opening opened :: below) = ⟨ps.outputs, .ok below⟩ := by
  rw [close, unwind_zero_opening, Traced.mk_ok_bind]
  simp

theorem close_entries (ps : Pending) (paren : Token) :
    close paren ps.entries = ⟨ps.outputs, .error ⟨.group, .unmatchedClosing paren⟩⟩ := by
  rw [close, unwind_zero_entries, Traced.mk_ok_bind]
  simp

theorem finish_entries (ps : Pending) : finish ps.entries = ⟨ps.outputs, .ok ()⟩ := by
  rw [finish, unwind_zero_entries, Traced.mk_ok_bind]
  simp

theorem finish_entries_opening (ps : Pending) (paren : Token) (below : List Entry) :
    finish (ps.entries ++ .opening paren :: below) =
      ⟨ps.outputs, .error ⟨.whole, .unclosedOpening paren⟩⟩ := by
  rw [finish, unwind_zero_opening, Traced.mk_ok_bind]
  simp

/-- What an accepted token does: what it sends on, and what waits before and behind it. -/
inductive Shift (token : Token) : List Entry → List Output → List Entry → Prop where
  | operand {stack : List Entry} (ht : token.role = .operand) :
      Shift token stack [.operand token] stack
  | opening {stack : List Entry} (ht : token.role = .opening) :
      Shift token stack [] (.opening token :: stack)
  | closing {stack : List Entry} (ht : token.role = .closing) (ps : Pending)
      (opened : Token) : Shift token (ps.entries ++ .opening opened :: stack) ps.outputs stack
  | operator {base : List Entry} {op : Operator} (ht : token.role = .operator op)
      (ps : Pending) (hps : ∀ p ∈ ps, op.fixity.precedence ≤ p.1.fixity.precedence)
      (hbase : Settled op.fixity.precedence base) :
      Shift token (ps.entries ++ base) ps.outputs (.operator op token :: base)

theorem shift_of_close {token : Token} {stack after : List Entry} {sent : List Output}
    (ht : token.role = .closing) (h : close token stack = ⟨sent, .ok after⟩) :
    Shift token stack sent after := by
  obtain ⟨ps, rfl | ⟨opened, below, rfl⟩⟩ := exists_pending stack
  · -- without an open parenthesis the yard would have stopped
    rw [close_entries] at h
    cases h
  · rw [close_entries_opening] at h
    cases h
    exact .closing ht ps opened

/-- The tokens may end only where no parenthesis is open. -/
theorem eq_entries_of_finish {stack : List Entry} {sent : List Output}
    (h : finish stack = ⟨sent, .ok ()⟩) :
    ∃ ps : Pending, stack = ps.entries ∧ sent = ps.outputs := by
  obtain ⟨ps, rfl | ⟨paren, below, rfl⟩⟩ := exists_pending stack
  · rw [finish_entries] at h
    cases h
    exact ⟨ps, rfl, rfl⟩
  · rw [finish_entries_opening] at h
    cases h

/-- **What a step does**, when no parenthesis stops it. -/
theorem shift_of_step {token : Token} {stack after : List Entry} {sent : List Output}
    (h : step stack token = ⟨sent, .ok after⟩) : Shift token stack sent after := by
  unfold step at h
  split at h
  · next ht => cases h; exact .operand ht
  · next ht => cases h; exact .opening ht
  · next ht => exact shift_of_close ht h
  · next op ht =>
    -- the stack parts into what gives way to `op` and the `base` on which `op` then waits
    obtain ⟨ps, base, rfl, hps, hbase, hunwind⟩ :=
      exists_unwind_eq op.fixity.precedence stack
    rw [hunwind, Traced.mk_ok_bind] at h
    cases h
    simp only [Traced.trace_pure, List.append_nil]
    exact .operator ht ps hps hbase

end Reckon.Yard
