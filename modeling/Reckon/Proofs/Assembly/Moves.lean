import Mathlib.Logic.Relation
import Reckon.Proofs.Yard.Fusion

/-!
# The moves of the construction

The construction of an expression is told here move by move.  A move puts one token on a stack,
takes an opening parenthesis off again, or applies the operator on top, and the moves that put an
operand or an operator aside and those that apply one leave a record.  Which move comes next is
known from the tops of the stacks and the next token, and where no move is left the construction
stops, with an expression or with an error.

## Main definitions

* `Traced.Leads` — what a computation comes to, behind a record that was kept so far.
* `Assembly.GivesWay op rest` — an operator on top is applied before the next token is taken.
* `Assembly.Move a rest record a' rest'` — one move and the record of it.
* `Assembly.Stops a rest result` — no move is left, and this is how the construction ends.
* `Assembly.Course tokens a rest records` — the moves from the start to `a`, with their records.

## Main results

* `Assembly.Move.unique`, `Assembly.Stops.not_move` — there is one course, and it has one end.
* `Assembly.Course.waiting_ne_nil` — the stack of what waits is never empty.
* `Assembly.leads_step`, `Assembly.course_of_ofTokens` — taking a token is a series of moves, up to
  the one that fails.
* `Assembly.exists_course` — **the construction is its course**: the record that it keeps is that of
  the moves, and it ends as the last state has it.
-/

namespace Reckon

/-! ### What a computation leads to -/

namespace Traced

variable {ρ ε α β : Type} {stopped : ε → List ρ → Prop} {records : List ρ}

/-- A computation that goes on behind `records` leads to `post` if it comes to its end, and to
`stopped` otherwise.  Both speak of the whole record. -/
def Leads (stopped : ε → List ρ → Prop) (records : List ρ) (x : Traced ρ ε α)
    (post : α → List ρ → Prop) : Prop :=
  match x.result with
  | .ok a => post a (records ++ x.trace)
  | .error e => stopped e (records ++ x.trace)

theorem leads_pure {a : α} {post : α → List ρ → Prop} (h : post a records) :
    Leads stopped records (pure a) post := by
  change post a (records ++ [])
  rwa [List.append_nil]

theorem leads_note {r : ρ} {post : Unit → List ρ → Prop} (h : post () (records ++ [r])) :
    Leads stopped records (note r) post := h

theorem leads_fail {e : ε} {post : α → List ρ → Prop} (h : stopped e records) :
    Leads stopped records (fail e) post := by
  change stopped e (records ++ [])
  rwa [List.append_nil]

/-- The second computation goes on behind the record of the first. -/
theorem Leads.bind {x : Traced ρ ε α} {f : α → Traced ρ ε β} {mid : α → List ρ → Prop}
    {post : β → List ρ → Prop} (hx : Leads stopped records x mid)
    (hf : ∀ a records, mid a records → Leads stopped records (f a) post) :
    Leads stopped records (x >>= f) post := by
  obtain ⟨trace, result⟩ := x
  cases result with
  | error e => exact hx
  | ok a =>
    have hnext := hf a _ hx
    unfold Leads at hnext ⊢
    rw [mk_ok_bind]
    rwa [List.append_assoc] at hnext

theorem Leads.mono {x : Traced ρ ε α} {mid post : α → List ρ → Prop}
    (hx : Leads stopped records x mid) (h : ∀ a records, mid a records → post a records) :
    Leads stopped records x post := by
  obtain ⟨trace, result⟩ := x
  cases result with
  | error e => exact hx
  | ok a => exact h a _ hx

end Traced

namespace Assembly

open Traced (Leads leads_pure leads_note leads_fail)
open Yard (Entry)

/-! ### Moves -/

/-- An operator on top is applied before the next token is taken: that closes a parenthesis, or is
an operator that does not bind more tightly, or there is none. -/
def GivesWay (op : Operator) : List Token → Prop
  | [] => True
  | token :: _ => token.role = .closing ∨
      ∃ next, token.role = .operator next ∧ next.fixity.precedence ≤ op.fixity.precedence

/-- One move, from the stacks and the tokens that are left to those behind it, and its record. -/
inductive Move : Assembly → List Token → Option Record → Assembly → List Token → Prop where
  /-- An operand is put aside. -/
  | operand {operands : List Piece} {ws : List Waiting} {token : Token} {rest : List Token}
      (ht : token.role = .operand) :
      Move ⟨operands, ws⟩ (token :: rest) (some (.operand token))
        ⟨⟨.operand token.text, token.span⟩ :: operands, ws⟩ rest
  /-- A parenthesis is opened. -/
  | opening {operands : List Piece} {ws : List Waiting} {token : Token} {rest : List Token}
      (ht : token.role = .opening) :
      Move ⟨operands, ws⟩ (token :: rest) none ⟨operands, .opening (some token) :: ws⟩ rest
  /-- A parenthesis is closed. -/
  | closing {operands : List Piece} {ws : List Waiting} {paren token : Token} {rest : List Token}
      (ht : token.role = .closing) :
      Move ⟨operands, .opening (some paren) :: ws⟩ (token :: rest) none ⟨operands, ws⟩ rest
  /-- An operator is put aside, once nothing on top gives way to it. -/
  | operator {operands : List Piece} {ws : List Waiting} {op : Operator} {token : Token}
      {rest : List Token} (ht : token.role = .operator op)
      (hstays : ∀ top t below, ws = .operator top t :: below → ¬GivesWay top (token :: rest)) :
      Move ⟨operands, ws⟩ (token :: rest) (some (.operator token))
        ⟨operands, .operator op token :: ws⟩ rest
  /-- The operator on top is applied to the two topmost operands. -/
  | apply {operands : List Piece} {ws : List Waiting} {op : Operator} {token : Token}
      {rest : List Token} (lhs rhs : Piece) (hgives : GivesWay op rest) :
      Move ⟨rhs :: lhs :: operands, .operator op token :: ws⟩ rest
        (some (.apply lhs.expr op rhs.expr))
        ⟨⟨.binary lhs.expr op rhs.expr, lhs.span.cover rhs.span⟩ :: operands, ws⟩ rest

/-- The construction stops here, and how it ends. -/
inductive Stops : Assembly → List Token → Except SyntaxError Expr → Prop where
  /-- The operator on top is to be applied and lacks a side. -/
  | missingOperand {operands : List Piece} {ws : List Waiting} {op : Operator} {token : Token}
      {rest : List Token} (hgives : GivesWay op rest) (hlt : operands.length < 2) :
      Stops ⟨operands, .operator op token :: ws⟩ rest
        (.error ⟨.application, .missingOperand token⟩)
  /-- A parenthesis is closed and none is open. -/
  | unmatched {operands : List Piece} {token : Token} {rest : List Token}
      (ht : token.role = .closing) :
      Stops ⟨operands, [.opening none]⟩ (token :: rest)
        (.error ⟨.group, .unmatchedClosing token⟩)
  /-- A parenthesis is open at the end. -/
  | unclosed {operands : List Piece} {ws : List Waiting} {paren : Token} :
      Stops ⟨operands, .opening (some paren) :: ws⟩ []
        (.error ⟨.whole, .unclosedOpening paren⟩)
  /-- There is no operand at the end. -/
  | nothing : Stops ⟨[], [.opening none]⟩ [] (.error ⟨.whole, .emptyExpression⟩)
  /-- There are several operands at the end. -/
  | missingOperator {operands : List Piece} {last other : Piece} :
      Stops ⟨last :: other :: operands, [.opening none]⟩ []
        (.error ⟨.whole, .missingOperator last.span⟩)
  /-- There is one operand at the end. -/
  | whole {whole : Piece} : Stops ⟨[whole], [.opening none]⟩ [] (.ok whole.expr)

/-- What the moves from the start have come to, with their records. -/
inductive Course (tokens : List Token) : Assembly → List Token → List Record → Prop where
  | start : Course tokens Assembly.start tokens []
  | move {a a' : Assembly} {rest rest' : List Token} {records : List Record}
      {record : Option Record} (h : Course tokens a rest records)
      (hmove : Move a rest record a' rest') :
      Course tokens a' rest' (records ++ record.toList)

variable {tokens rest rest' rest₁ rest₂ : List Token} {a a' a₁ a₂ : Assembly}
  {record record₁ record₂ : Option Record} {records records' : List Record}
  {result result' : Except SyntaxError Expr} {op : Operator} {token : Token}

/-! ### One course -/

theorem not_givesWay_of_operand (ht : token.role = .operand) : ¬GivesWay op (token :: rest) := by
  simp [GivesWay, ht]

theorem not_givesWay_of_opening (ht : token.role = .opening) : ¬GivesWay op (token :: rest) := by
  simp [GivesWay, ht]

/-- What an operator on top gives way to, if it is an operator. -/
theorem givesWay_operator_iff {next : Operator} (ht : token.role = .operator next) :
    GivesWay op (token :: rest) ↔ next.fixity.precedence ≤ op.fixity.precedence := by
  simp [GivesWay, ht]

/-- **There is one move at most.** -/
theorem Move.unique (h₁ : Move a rest record₁ a₁ rest₁) (h₂ : Move a rest record₂ a₂ rest₂) :
    record₁ = record₂ ∧ a₁ = a₂ ∧ rest₁ = rest₂ := by
  -- two moves of different kinds would need a token of two roles, or a top that gives way and stays
  cases h₁ with
  | operand ht =>
    cases h₂ with
    | operand _ => exact ⟨rfl, rfl, rfl⟩
    | opening ht' | closing ht' | operator ht' _ => cases ht.symm.trans ht'
    | apply lhs rhs hgives => exact absurd hgives (not_givesWay_of_operand ht)
  | opening ht =>
    cases h₂ with
    | opening _ => exact ⟨rfl, rfl, rfl⟩
    | operand ht' | closing ht' | operator ht' _ => cases ht.symm.trans ht'
    | apply lhs rhs hgives => exact absurd hgives (not_givesWay_of_opening ht)
  | closing ht =>
    cases h₂ with
    | closing _ => exact ⟨rfl, rfl, rfl⟩
    | operand ht' | opening ht' | operator ht' _ => cases ht.symm.trans ht'
  | operator ht hstays =>
    cases h₂ with
    | operator ht' _ =>
      cases ht.symm.trans ht'
      exact ⟨rfl, rfl, rfl⟩
    | operand ht' | opening ht' | closing ht' => cases ht.symm.trans ht'
    | apply lhs rhs hgives => exact absurd hgives (hstays _ _ _ rfl)
  | apply lhs rhs hgives =>
    cases h₂ with
    | apply _ _ _ => exact ⟨rfl, rfl, rfl⟩
    | operand ht => exact absurd hgives (not_givesWay_of_operand ht)
    | opening ht => exact absurd hgives (not_givesWay_of_opening ht)
    | operator _ hstays => exact absurd hgives (hstays _ _ _ rfl)

/-- **Where the construction stops, there is no move.** -/
theorem Stops.not_move (h : Stops a rest result) : ¬Move a rest record a' rest' := by
  intro hmove
  cases h with
  | missingOperand hgives hlt =>
    cases hmove with
    | operand ht => exact not_givesWay_of_operand ht hgives
    | opening ht => exact not_givesWay_of_opening ht hgives
    | operator _ hstays => exact hstays _ _ _ rfl hgives
    | apply lhs rhs _ => exact absurd hlt (by simp)
  | unmatched ht =>
    cases hmove with
    | operand ht' | opening ht' | operator ht' _ => cases ht.symm.trans ht'
  | unclosed => cases hmove
  | nothing => cases hmove
  | missingOperator => cases hmove
  | whole => cases hmove

/-- It stops in one way. -/
theorem Stops.unique (h : Stops a rest result) (h' : Stops a rest result') : result = result' := by
  cases h <;> cases h' <;> rfl

/-- One move, with the record that is kept so far. -/
def Next (s s' : Assembly × List Token × List Record) : Prop :=
  ∃ record, Move s.1 s.2.1 record s'.1 s'.2.1 ∧ s'.2.2 = s.2.2 ++ record.toList

theorem next_rightUnique : Relator.RightUnique Next := by
  rintro ⟨a, rest, records⟩ ⟨a₁, rest₁, records₁⟩ ⟨a₂, rest₂, records₂⟩ ⟨record₁, h₁, heq₁⟩
    ⟨record₂, h₂, heq₂⟩
  obtain ⟨rfl, ha, hrest⟩ := h₁.unique h₂
  exact Prod.ext ha (Prod.ext hrest (heq₁.trans heq₂.symm))

theorem Course.reflTransGen (h : Course tokens a rest records) :
    Relation.ReflTransGen Next (Assembly.start, tokens, []) (a, rest, records) := by
  induction h with
  | start => exact .refl
  | move _ hmove ih => exact ih.tail ⟨_, hmove, rfl⟩

/-- From where the construction stops nothing else is reached. -/
theorem Stops.eq_of_reflTransGen {s : Assembly × List Token × List Record}
    (h : Stops a rest result) (hs : Relation.ReflTransGen Next (a, rest, records) s) :
    s = (a, rest, records) := by
  rcases hs.cases_head with heq | ⟨_, ⟨record, hmove, -⟩, -⟩
  · exact heq.symm
  · exact absurd hmove h.not_move

/-- **There is one course that stops.** -/
theorem Course.unique (h : Course tokens a rest records) (hs : Stops a rest result)
    (h' : Course tokens a' rest' records') (hs' : Stops a' rest' result') :
    a = a' ∧ rest = rest' ∧ records = records' ∧ result = result' := by
  have heq : (a, rest, records) = (a', rest', records') := by
    rcases h.reflTransGen.total_of_right_unique next_rightUnique h'.reflTransGen with hgo | hgo
    · exact (hs.eq_of_reflTransGen hgo).symm
    · exact hs'.eq_of_reflTransGen hgo
  rw [Prod.mk.injEq, Prod.mk.injEq] at heq
  obtain ⟨rfl, rfl, rfl⟩ := heq
  exact ⟨rfl, rfl, rfl, hs.unique hs'⟩

/-! ### The course of the construction -/

/-- What is below the top, where that is not the start of the expression, is again what waits. -/
theorem exists_waiting_of_cons {stack : List Entry} {w : Waiting} {ws : List Waiting}
    (h : Yard.waiting stack = w :: ws) (hw : w ≠ .opening none) :
    ∃ below, ws = Yard.waiting below := by
  cases stack with
  | nil => exact absurd (List.cons.inj h).1.symm hw
  | cons entry below => cases entry <;> exact ⟨below, (List.cons.inj h).2.symm⟩

/-- The stack of what waits is that of a yard above the start of the expression. -/
theorem Course.exists_stack (h : Course tokens a rest records) :
    ∃ stack, a.waiting = Yard.waiting stack := by
  induction h with
  | start => exact ⟨[], rfl⟩
  | move _ hmove ih =>
    obtain ⟨stack, hstack⟩ := ih
    cases hmove with
    | operand _ => exact ⟨stack, hstack⟩
    | @opening _ _ token _ _ => exact ⟨.opening token :: stack, by rw [Yard.waiting, ← hstack]⟩
    | @operator _ _ op token _ _ _ =>
      exact ⟨.operator op token :: stack, by rw [Yard.waiting, ← hstack]⟩
    | closing _ => exact exists_waiting_of_cons hstack.symm (by simp)
    | apply _ _ _ => exact exists_waiting_of_cons hstack.symm (by simp)

/-- Something waits in every state of a course, if only the start of the expression. -/
theorem Course.waiting_ne_nil (h : Course tokens a rest records) : a.waiting ≠ [] := by
  obtain ⟨stack, hstack⟩ := h.exists_stack
  rw [hstack]
  cases stack with
  | nil => exact List.cons_ne_nil _ _
  | cons entry below => cases entry <;> exact List.cons_ne_nil _ _

/-- What the construction comes to when it stops with an error behind some records. -/
def Fails (tokens : List Token) (e : SyntaxError) (records : List Record) : Prop :=
  ∃ a rest, Course tokens a rest records ∧ Stops a rest (.error e)

theorem leads_applyTop {operands : List Piece} {ws : List Waiting}
    (h : Course tokens ⟨operands, .operator op token :: ws⟩ rest records)
    (hgives : GivesWay op rest) :
    Leads (Fails tokens) records (applyTop op token operands)
      fun operands records => Course tokens ⟨operands, ws⟩ rest records := by
  match operands with
  | [] => exact leads_fail ⟨_, rest, h, .missingOperand hgives (by simp)⟩
  | [_] => exact leads_fail ⟨_, rest, h, .missingOperand hgives (by simp)⟩
  | rhs :: lhs :: operands =>
    exact (leads_note (h.move (.apply lhs rhs hgives))).bind fun _ _ h => leads_pure h

/-- Giving way to an operator is a series of moves, behind which nothing on top gives way. -/
theorem leads_yieldTo (ht : token.role = .operator op) : ∀ (stack : List Entry)
    (operands : List Piece) (records : List Record),
    Course tokens ⟨operands, Yard.waiting stack⟩ (token :: rest) records →
      Leads (Fails tokens) records (yieldTo op.fixity (Yard.waiting stack) operands)
        fun a records => Course tokens a (token :: rest) records ∧
          ∀ top t below, a.waiting = .operator top t :: below → ¬GivesWay top (token :: rest) := by
  intro stack
  induction stack with
  | nil =>
    intro operands records h
    exact leads_pure ⟨h, by rintro top t below ⟨⟩⟩
  | cons entry stack ih =>
    intro operands records h
    cases entry with
    | opening paren => exact leads_pure ⟨h, by rintro top t below ⟨⟩⟩
    | operator top t =>
      rw [Yard.waiting, yieldTo]
      by_cases hgives : top.fixity.precedes op.fixity
      · rw [if_pos hgives]
        have happly : GivesWay top (token :: rest) :=
          (givesWay_operator_iff ht).mpr ((Operator.precedes_iff top op).mp hgives)
        exact (leads_applyTop h happly).bind ih
      · rw [if_neg hgives]
        refine leads_pure ⟨h, ?_⟩
        rintro _ _ _ ⟨⟩ hstays
        exact hgives ((Operator.precedes_iff top op).mpr ((givesWay_operator_iff ht).mp hstays))

theorem leads_close_some (ht : token.role = .closing) : ∀ (stack : List Entry)
    (operands : List Piece) (records : List Record),
    Course tokens ⟨operands, Yard.waiting stack⟩ (token :: rest) records →
      Leads (Fails tokens) records (close (some token) (Yard.waiting stack) operands)
        fun a records => Course tokens a rest records := by
  intro stack
  induction stack with
  | nil =>
    intro operands records h
    exact leads_fail ⟨_, _, h, .unmatched ht⟩
  | cons entry stack ih =>
    intro operands records h
    cases entry with
    | opening paren =>
      have hmove := h.move (.closing ht)
      rw [Option.toList_none, List.append_nil] at hmove
      exact leads_pure hmove
    | operator top t =>
      rw [Yard.waiting, close]
      exact (leads_applyTop h (.inl ht)).bind ih

/-- At the end everything above the start of the expression is applied. -/
theorem leads_close_none : ∀ (stack : List Entry) (operands : List Piece) (records : List Record),
    Course tokens ⟨operands, Yard.waiting stack⟩ [] records →
      Leads (Fails tokens) records (close none (Yard.waiting stack) operands)
        fun a records => Course tokens ⟨a.operands, [.opening none]⟩ [] records := by
  intro stack
  induction stack with
  | nil =>
    intro operands records h
    exact leads_pure h
  | cons entry stack ih =>
    intro operands records h
    cases entry with
    | opening paren => exact leads_fail ⟨_, _, h, .unclosed⟩
    | operator top t =>
      rw [Yard.waiting, close]
      exact (leads_applyTop h trivial).bind ih

/-- **Taking a token is a series of moves**, up to the one that fails. -/
theorem leads_step (h : Course tokens a (token :: rest) records) :
    Leads (Fails tokens) records (a.step token) fun a records => Course tokens a rest records := by
  obtain ⟨stack, hstack⟩ := h.exists_stack
  obtain ⟨operands, ws⟩ := a
  obtain rfl : ws = Yard.waiting stack := hstack
  unfold step
  split
  · next ht => exact (leads_note (h.move (.operand ht))).bind fun _ _ h => leads_pure h
  · next ht =>
    have hmove := h.move (.opening ht)
    rw [Option.toList_none, List.append_nil] at hmove
    exact leads_pure hmove
  · next ht => exact leads_close_some ht stack operands records h
  · next op ht =>
    refine (leads_yieldTo ht stack operands records h).bind ?_
    rintro a records ⟨h, hstays⟩
    exact (leads_note (h.move (.operator ht hstays))).bind fun _ _ h => leads_pure h

theorem leads_foldlM_step : ∀ (rest : List Token) (a : Assembly) (records : List Record),
    Course tokens a rest records →
      Leads (Fails tokens) records (rest.foldlM step a)
        fun a records => Course tokens a [] records := by
  intro rest
  induction rest with
  | nil =>
    intro a records h
    exact leads_pure h
  | cons token rest ih =>
    intro a records h
    rw [List.foldlM_cons]
    exact (leads_step h).bind ih

/-- A state that an assembly comes to is on a course. -/
theorem course_of_ofTokens (h : (ofTokens tokens).result = .ok a) :
    Course tokens a [] (ofTokens tokens).trace := by
  have hleads : Leads (Fails tokens) [] (ofTokens tokens) fun a records =>
      Course tokens a [] records := leads_foldlM_step tokens Assembly.start [] .start
  unfold Leads at hleads
  rwa [h, List.nil_append] at hleads

/-- The record of an expression that is finished. -/
def Record.ofResult : Except SyntaxError Expr → List Record
  | .ok e => [.finished e]
  | .error _ => []

theorem leads_conclude {operands : List Piece}
    (h : Course tokens ⟨operands, [.opening none]⟩ [] records) :
    Leads (Fails tokens) records (conclude operands) fun e records' =>
      Stops ⟨operands, [.opening none]⟩ [] (.ok e) ∧ records' = records ++ [.finished e] := by
  match operands with
  | [] => exact leads_fail ⟨_, _, h, .nothing⟩
  | [whole] => exact ⟨.whole, rfl⟩
  | last :: other :: operands => exact leads_fail ⟨_, _, h, .missingOperator⟩

theorem leads_assemble (tokens : List Token) :
    Leads (Fails tokens) [] (Expr.assemble tokens) fun e records =>
      ∃ a rest steps, Course tokens a rest steps ∧ Stops a rest (.ok e) ∧
        records = steps ++ [.finished e] := by
  refine (leads_foldlM_step tokens Assembly.start [] .start).bind fun a records h => ?_
  obtain ⟨stack, hstack⟩ := h.exists_stack
  rw [hstack]
  obtain ⟨operands, ws⟩ := a
  obtain rfl : ws = Yard.waiting stack := hstack
  refine (leads_close_none stack operands records h).bind fun a steps h => ?_
  refine (leads_conclude h).mono ?_
  rintro e records ⟨hstops, rfl⟩
  exact ⟨_, _, _, h, hstops, rfl⟩

/-- **The construction is its course.**  It keeps the records of the moves up to the state in which
no move is left, and ends as that state has it. -/
theorem exists_course (tokens : List Token) : ∃ a rest steps, Course tokens a rest steps ∧
    Stops a rest (Expr.assemble tokens).result ∧
      (Expr.assemble tokens).trace = steps ++ Record.ofResult (Expr.assemble tokens).result := by
  have h := leads_assemble tokens
  unfold Leads at h
  rw [List.nil_append] at h
  cases hresult : (Expr.assemble tokens).result with
  | ok e =>
    rw [hresult] at h
    exact h
  | error e =>
    rw [hresult] at h
    obtain ⟨a, rest, hcourse, hstops⟩ := h
    exact ⟨a, rest, _, hcourse, hstops, (List.append_nil _).symm⟩

end Assembly

end Reckon
