import Reckon.Proofs.Yard.Basic

/-!
# The assembly is the yard and the machine at once

`Assembly` applies an operator at the moment when the yard would send it on.  So it runs the
two phases in step: its operands are the stack of the machine, and what waits in it is the
stack of the yard above the start of the expression.

The two phases notice errors in another order than the assembly, which stops at the first.
The bridge is `fuse`: it lets the machine read what a computation of the yard recorded, and
asks for the outcome of the yard only if the machine did not stop.  It respects sequencing,
so the simulation has to be shown for single operations alone.

## Main definitions

* `Yard.fuse stack x` — the machine on the record of `x`, then the result of `x`.
* `Yard.assembly` — the assembly that stands for the two stacks.
* `Assembly.leftover` — the pieces that the assembly of a row of tokens leaves.

## Main results

* `Yard.fuse_bind` — `fuse` respects sequencing.
* `Yard.result_foldlM_step` — the assembly of a row of tokens is the fused run.
* `Yard.leftover_eq_fuse` — it leaves the same pieces.
* `Expr.ofTokens_eq_fuse` — so is the whole construction.
* `Expr.ofTokens_eq_phases` — **the outcome, in terms of one phase after the other**.
-/

namespace Reckon.Yard

open Assembly (applyTop yieldTo)

variable {α β : Type}

/-- Lets the machine read what a computation of the yard sent on, and then takes the result
of that computation.  An operator that lacks a side comes before an unmatched parenthesis,
because all that was sent on was sent on before the parenthesis was noticed. -/
def fuse (stack : List Piece) (x : Shunting α) : Except SyntaxError (List Piece × α) :=
  match build stack x.trace with
  | .error operator => .error ⟨.application, .missingOperand operator⟩
  | .ok stack => x.result.map fun a => (stack, a)

/-- Sending an operator on is applying it. -/
@[simp] theorem fuse_note_operator (stack : List Piece) (op : Operator) (token : Token) :
    fuse stack (Traced.note (.operator op token)) =
      (applyTop op token stack).result.map fun stack => (stack, ()) := by
  match stack with
  | [] => rfl
  | [_] => rfl
  | _ :: _ :: _ => rfl

theorem fuse_eq_ok {stack after : List Piece} {x : Shunting α} {a : α}
    (h : fuse stack x = .ok (after, a)) : build stack x.trace = .ok after ∧ x.result = .ok a := by
  unfold fuse at h
  cases hbuild : build stack x.trace with
  | error operator => rw [hbuild] at h; cases h
  | ok pieces =>
    cases hresult : x.result with
    | error e => rw [hbuild, hresult] at h; cases h
    | ok b =>
      rw [hbuild, hresult] at h
      cases h
      exact ⟨rfl, rfl⟩

/-- **Fusing respects sequencing.**  The second computation starts on the stack that the
machine has reached behind the first. -/
theorem fuse_bind (stack : List Piece) (x : Shunting α) (f : α → Shunting β) :
    fuse stack (x >>= f) = (fuse stack x).bind fun r => fuse r.1 (f r.2) := by
  unfold fuse
  rw [Traced.trace_bind, Traced.result_bind, build_append]
  cases build stack x.trace with
  | error operator => rfl
  | ok stack =>
    cases x.result with
    | error e => rfl
    | ok a => rfl

/-! ### The simulation -/

/-- What waits in an assembly while `stack` waits in the yard: the same, above the start. -/
def waiting : List Entry → List Waiting
  | [] => [.opening none]
  | .opening paren :: stack => .opening (some paren) :: waiting stack
  | .operator op token :: stack => .operator op token :: waiting stack

/-- The assembly that stands for a stack of the machine and a stack of the yard. -/
def assembly (r : List Piece × List Entry) : Assembly := ⟨r.1, waiting r.2⟩

/-- An operator that is applied, and one that is sent on, with any two ways to go on that
agree on every stack. -/
theorem result_applyTop_bind {k : List Piece → Assembly.Recorded Assembly}
    {f : Unit → Shunting α} {g : List Piece × α → Assembly}
    (h : ∀ pieces, (k pieces).result = (fuse pieces (f ())).map g)
    (op : Operator) (token : Token) (pieces : List Piece) :
    (applyTop op token pieces >>= k).result =
      (fuse pieces (Traced.note (.operator op token) >>= f)).map g := by
  rw [Traced.result_bind, fuse_bind, fuse_note_operator]
  cases (applyTop op token pieces).result with
  | error e => rfl
  | ok pieces => exact h pieces

theorem result_yieldTo (op : Operator) : ∀ (stack : List Entry) (pieces : List Piece),
    (yieldTo op.fixity (waiting stack) pieces).result =
      (fuse pieces (unwind op.fixity.precedence stack)).map assembly := by
  intro stack
  induction stack with
  | nil => intro pieces; rfl
  | cons entry stack ih =>
    intro pieces
    cases entry with
    | opening paren => rfl
    | operator top token =>
      rw [waiting, yieldTo]
      rcases Nat.lt_or_ge top.fixity.precedence op.fixity.precedence with h | h
      · -- the operator on top stays: both sides end here
        rw [unwind_operator_of_lt h, if_neg fun hp => Nat.not_le.mpr h
          ((Operator.precedes_iff top op).mp hp)]
        rfl
      · -- it gives way: one side applies it, the other sends it on
        rw [unwind_operator_of_le h, if_pos ((Operator.precedes_iff top op).mpr h)]
        exact result_applyTop_bind ih top token pieces

theorem result_close_some (paren : Token) : ∀ (stack : List Entry) (pieces : List Piece),
    (Assembly.close (some paren) (waiting stack) pieces).result =
      (fuse pieces (close paren stack)).map assembly := by
  intro stack
  induction stack with
  | nil => intro pieces; rfl
  | cons entry stack ih =>
    intro pieces
    cases entry with
    | opening opened => rfl
    | operator top token =>
      rw [waiting, Assembly.close, close_operator]
      exact result_applyTop_bind ih top token pieces

/-- At the end nothing waits any more, the start of the expression included. -/
theorem result_close_none : ∀ (stack : List Entry) (pieces : List Piece),
    (Assembly.close none (waiting stack) pieces).result =
      (fuse pieces (finish stack)).map fun r => ⟨r.1, []⟩ := by
  intro stack
  induction stack with
  | nil => intro pieces; rfl
  | cons entry stack ih =>
    intro pieces
    cases entry with
    | opening paren => rfl
    | operator top token =>
      rw [waiting, Assembly.close, finish_operator]
      exact result_applyTop_bind ih top token pieces

theorem result_step (token : Token) (r : List Piece × List Entry) :
    ((assembly r).step token).result = (fuse r.1 (step r.2 token)).map assembly := by
  obtain ⟨pieces, stack⟩ := r
  unfold Assembly.step step
  cases token.role with
  | operand => rfl
  | opening => rfl
  | closing => exact result_close_some token stack pieces
  | operator op =>
    -- once the operators on top have given way, both sides only put `op` on their stacks
    simp only [assembly, Traced.result_bind, fuse_bind, result_yieldTo]
    cases fuse pieces (unwind op.fixity.precedence stack) <;> rfl

/-- **The assembly of a row of tokens is the fused run**, from any two stacks on. -/
theorem result_foldlM_step (tokens : List Token) : ∀ r : List Piece × List Entry,
    (tokens.foldlM Assembly.step (assembly r)).result =
      (fuse r.1 (tokens.foldlM step r.2)).map assembly := by
  induction tokens with
  | nil => intro r; rfl
  | cons token tokens ih =>
    intro r
    rw [List.foldlM_cons, List.foldlM_cons, Traced.result_bind, fuse_bind, result_step]
    cases fuse r.1 (step r.2 token) with
    | error e => rfl
    | ok r => exact ih r

end Reckon.Yard

namespace Reckon

/-- The pieces that are left of a row of tokens once nothing waits any more. -/
def Assembly.leftover (tokens : List Token) : Except SyntaxError (List Piece) :=
  (ofTokens tokens >>= fun a =>
    close none a.waiting a.operands >>= fun a => pure a.operands).result

/-- The construction ends with the pieces that are left, of which there should be one. -/
theorem Expr.ofTokens_eq_leftover (tokens : List Token) :
    Expr.ofTokens tokens =
      (Assembly.leftover tokens).bind fun pieces => (Assembly.conclude pieces).result := by
  rw [Expr.ofTokens, Expr.assemble, Assembly.leftover, Traced.result_bind, Traced.result_bind]
  cases (Assembly.ofTokens tokens).result with
  | error e => rfl
  | ok a =>
    change (Assembly.close none a.waiting a.operands >>= _).result =
      (Assembly.close none a.waiting a.operands >>= _).result.bind _
    rw [Traced.result_bind, Traced.result_bind]
    cases (Assembly.close none a.waiting a.operands).result <;> rfl

/-- **The pieces that are left are those of the fused run.** -/
theorem Yard.leftover_eq_fuse (tokens : List Token) :
    Assembly.leftover tokens = (fuse [] (run tokens)).map Prod.fst := by
  have hstart : Assembly.start = assembly ([], []) := rfl
  rw [Assembly.leftover, Assembly.ofTokens, hstart, Traced.result_bind, result_foldlM_step, run,
    fuse_bind]
  cases fuse [] (tokens.foldlM step []) with
  | error e => rfl
  | ok r =>
    obtain ⟨pieces, stack⟩ := r
    -- behind the last token the assembly closes the start of the expression, and the yard
    -- finishes; both leave the same pieces
    change ((Assembly.close none (waiting stack) pieces) >>= _).result =
      (fuse pieces (finish stack)).map _
    rw [Traced.result_bind, result_close_none]
    cases fuse pieces (finish stack) <;> rfl

open Yard in
/-- **The whole construction is the fused run**, and the expression is the one piece that it
leaves. -/
theorem Expr.ofTokens_eq_fuse (tokens : List Token) :
    Expr.ofTokens tokens =
      (fuse [] (run tokens)).bind fun r => (Assembly.conclude r.1).result := by
  rw [Expr.ofTokens_eq_leftover, Yard.leftover_eq_fuse]
  cases fuse [] (run tokens) <;> rfl

open Yard in
/-- An expression comes out when no parenthesis stops the yard and the machine leaves one
piece. -/
theorem Expr.ofTokens_eq_ok_iff {tokens : List Token} {e : Expr} :
    Expr.ofTokens tokens = .ok e ↔ ∃ span, fuse [] (run tokens) = .ok ([⟨e, span⟩], ()) := by
  rw [Expr.ofTokens_eq_fuse]
  constructor
  · intro h
    -- only one piece is concluded without an error
    match hr : fuse [] (run tokens) with
    | .error error => rw [hr] at h; cases h
    | .ok ([], _) => rw [hr] at h; cases h
    | .ok (_ :: _ :: _, _) => rw [hr] at h; cases h
    | .ok ([⟨whole, span⟩], _) =>
      rw [hr] at h
      cases h
      exact ⟨span, rfl⟩
  · rintro ⟨span, h⟩
    rw [h]
    rfl

open Yard in
/-- **The expression is the one that the two phases build one after the other.**  An operator
that the machine finds without a side is the error, whatever became of the yard; behind it
comes the parenthesis that stopped the yard; and only then the pieces are counted. -/
theorem Expr.ofTokens_eq_phases (tokens : List Token) :
    Expr.ofTokens tokens =
      match build [] (run tokens).trace, (run tokens).result with
      | .error operator, _ => .error ⟨.application, .missingOperand operator⟩
      | .ok _, .error e => .error e
      | .ok [whole], .ok () => .ok whole.expr
      | .ok [], .ok () => .error ⟨.whole, .emptyExpression⟩
      | .ok (last :: _ :: _), .ok () => .error ⟨.whole, .missingOperator last.span⟩ := by
  rw [Expr.ofTokens_eq_fuse, fuse]
  cases build [] (run tokens).trace with
  | error operator => rfl
  | ok pieces =>
    cases (run tokens).result with
    | error e => rfl
    | ok _ =>
      match pieces with
      | [] => rfl
      | [_] => rfl
      | _ :: _ :: _ => rfl

end Reckon
