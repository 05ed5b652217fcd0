import Reckon.Proofs.Grammar.Placement

/-!
# What an assembly holds

Whatever tokens an assembly has taken, each of them is in it, in one place.  The operands are the
leaves of the pieces, in their order; the operators are inside the pieces or wait; and a piece
covers the source of its own leaves and no more.  So an expression that comes out has all the
operands and all the operators that went in.

## Main definitions

* `Expr.operators`, `Token.operator?` — the operators of a tree, and the one that a token is.
* `Piece.MadeOf piece own` — the leaves of the piece are `own`, and it reaches from the first start
  among them to the last end.
* `Assembly.Holds a tokens` — `a` is made of `tokens`.

## Main results

* `Piece.Of.madeOf` — the smallest span that holds some tokens starts and ends with one of them.
* `Yard.Reached.genuine` — what waits, and what was sent on, is what its token says.
* `Yard.operators_build` — no operator is lost in the machine.
* `Assembly.holds_of_ofTokens` — **no token is lost**, in any state that an assembly comes to.
-/

namespace Reckon

/-! ### The operators of trees and of tokens -/

/-- The operators of a tree, from left to right. -/
def Expr.operators : Expr → List Operator
  | operand _ => []
  | binary lhs op rhs => lhs.operators ++ op :: rhs.operators

/-- The operator that a token is, if it is one. -/
def Token.operator? (t : Token) : Option Operator :=
  match t.role with
  | .operator op => some op
  | .operand | .opening | .closing => none

theorem Token.operator?_of_operator {t : Token} {op : Operator} (h : t.role = .operator op) :
    t.operator? = some op := by
  rw [operator?, h]

theorem Token.filterMap_operators (tokens : List Token) :
    (Token.operators tokens).filterMap Token.operator? = tokens.filterMap Token.operator? := by
  rw [Token.operators, List.filterMap_filter]
  refine List.filterMap_congr fun t _ => ?_
  cases h : t.role <;> simp [operator?, h]

/-! ### Where a piece starts and ends -/

/-- The leaves of the piece are the tokens `own`, and its span goes from the least of their starts
to the greatest of their ends. -/
structure Piece.MadeOf (piece : Piece) (own : List Token) : Prop where
  leaves : piece.expr.operands = own.map Token.text
  start : IsLeast {position | ∃ t ∈ own, t.span.start = position} piece.span.start
  stop : IsGreatest {position | ∃ t ∈ own, t.span.stop = position} piece.span.stop

/-- The smallest span that holds some tokens starts with one of them: otherwise a span that starts
later would hold them too. -/
theorem Piece.Of.exists_start {piece : Piece} {own : List Token} (h : piece.Of own) :
    ∃ t ∈ own, t.span.start = piece.span.start := by
  by_contra hnone
  have hbound : (⟨piece.span.start + 1, piece.span.stop⟩ : Span) ∈
      upperBounds (Token.spans own) := by
    rintro _ ⟨t, ht, rfl⟩
    obtain ⟨hstart, hstop⟩ := h.span.1 ⟨t, ht, rfl⟩
    exact ⟨Nat.lt_of_le_of_ne hstart fun heq => hnone ⟨t, ht, heq.symm⟩, hstop⟩
  exact Nat.not_succ_le_self _ (h.span.2 hbound).1

theorem Piece.Of.exists_stop {piece : Piece} {own : List Token} (h : piece.Of own) :
    ∃ t ∈ own, t.span.stop = piece.span.stop := by
  by_contra hnone
  have hlt : ∀ t ∈ own, t.span.stop < piece.span.stop := fun t ht =>
    Nat.lt_of_le_of_ne (h.span.1 ⟨t, ht, rfl⟩).2 fun heq => hnone ⟨t, ht, heq⟩
  have hbound : (⟨piece.span.start, piece.span.stop - 1⟩ : Span) ∈
      upperBounds (Token.spans own) := by
    rintro _ ⟨t, ht, rfl⟩
    exact ⟨(h.span.1 ⟨t, ht, rfl⟩).1, Nat.le_sub_one_of_lt (hlt t ht)⟩
  obtain ⟨t, ht, -⟩ := h.exists_start
  have hle := (h.span.2 hbound).2
  have hpos := hlt t ht
  dsimp only at hle
  omega

theorem Piece.Of.madeOf {piece : Piece} {own : List Token} (h : piece.Of own) :
    piece.MadeOf own := by
  refine ⟨h.operands, ⟨h.exists_start, ?_⟩, ⟨h.exists_stop, ?_⟩⟩
  · rintro _ ⟨t, ht, rfl⟩
    exact (h.span.1 ⟨t, ht, rfl⟩).1
  · rintro _ ⟨t, ht, rfl⟩
    exact (h.span.1 ⟨t, ht, rfl⟩).2

namespace Yard

/-! ### The pieces on the stack -/

theorem Stacked.leaves {stack : List Piece} {tokens : List Token} (h : Stacked stack tokens) :
    stack.reverse.flatMap (fun piece => piece.expr.operands) = tokens.map Token.text := by
  induction h with
  | nil => rfl
  | cons _ hp ih =>
    rw [List.reverse_cons, List.flatMap_append, ih, List.flatMap_singleton, hp.operands,
      List.map_append]

/-- The operands on a stack part into those of the pieces. -/
theorem Stacked.exists_parts {stack : List Piece} {tokens : List Token}
    (h : Stacked stack tokens) :
    ∃ parts : List (List Token), parts.flatten = tokens ∧
      List.Forall₂ Piece.MadeOf stack.reverse parts := by
  induction h with
  | nil => exact ⟨[], rfl, .nil⟩
  | @cons stack tokens own piece _ hp ih =>
    obtain ⟨parts, rfl, hparts⟩ := ih
    refine ⟨parts ++ [own], by simp, ?_⟩
    rw [List.reverse_cons]
    exact List.rel_append hparts (.cons hp.madeOf .nil)

theorem Stacked.exists_stop {stack : List Piece} {tokens : List Token} (h : Stacked stack tokens)
    {piece : Piece} (hp : piece ∈ stack) : ∃ t ∈ tokens, t.span.stop = piece.span.stop := by
  induction h with
  | nil => cases hp
  | cons _ hown ih =>
    rcases List.mem_cons.mp hp with rfl | hp
    · obtain ⟨t, ht, hstop⟩ := hown.exists_stop
      exact ⟨t, List.mem_append_right _ ht, hstop⟩
    · obtain ⟨t, ht, hstop⟩ := ih hp
      exact ⟨t, List.mem_append_left _ ht, hstop⟩

/-- Where tokens follow one another, no piece is empty. -/
theorem Stacked.start_lt {stack : List Piece} {tokens : List Token} (h : Stacked stack tokens)
    (horder : Token.InOrder tokens) {piece : Piece} (hp : piece ∈ stack) :
    piece.span.start < piece.span.stop := by
  induction h with
  | nil => cases hp
  | cons _ hown ih =>
    rcases List.mem_cons.mp hp with rfl | hp
    · obtain ⟨t, ht, hstart⟩ := hown.exists_start
      have hlt := horder.start_lt t (List.mem_append_right _ ht)
      have hle := (hown.span.1 ⟨t, ht, rfl⟩).2
      omega
    · exact ih (horder.sublist (List.sublist_append_left _ _)) hp

/-- Where tokens follow one another, the pieces do too. -/
theorem Stacked.pairwise {stack : List Piece} {tokens : List Token} (h : Stacked stack tokens)
    (horder : Token.InOrder tokens) :
    stack.reverse.Pairwise fun p q => p.span.stop ≤ q.span.start := by
  induction h with
  | nil => exact .nil
  | @cons stack tokens own piece hs hown ih =>
    rw [List.reverse_cons, List.pairwise_append]
    refine ⟨ih (horder.sublist (List.sublist_append_left _ _)), List.pairwise_singleton _ _, ?_⟩
    intro p hp q hq
    obtain rfl := List.mem_singleton.mp hq
    -- the piece below ends with a token that comes before all tokens of the piece on top
    obtain ⟨t, ht, hstop⟩ := hs.exists_stop (List.mem_reverse.mp hp)
    obtain ⟨u, hu, hstart⟩ := hown.exists_start
    rw [← hstop, ← hstart]
    exact (List.pairwise_append.mp horder.ordered).2.2 t ht u hu

/-! ### Operators are what their tokens say -/

/-- What was sent on is what its token says. -/
def Output.Genuine : Output → Prop
  | .operand token => token.role = .operand
  | .operator op token => token.role = .operator op

/-- What waits is what its token says. -/
def Entry.Genuine : Entry → Prop
  | .opening paren => paren.role = .opening
  | .operator op token => token.role = .operator op

/-- The operator that was sent on, if it is one. -/
def Output.op? : Output → Option Operator
  | .operand _ => none
  | .operator op _ => some op

theorem genuine_outputs {ps : Pending} (h : ∀ entry ∈ ps.entries, entry.Genuine) :
    ∀ o ∈ ps.outputs, o.Genuine := by
  intro o ho
  obtain ⟨p, hp, rfl⟩ := List.mem_map.mp ho
  exact h _ (List.mem_map_of_mem hp)

theorem Shift.genuine {token : Token} {stack after : List Entry} {sent : List Output}
    (h : Shift token stack sent after) (hs : ∀ entry ∈ stack, entry.Genuine) :
    (∀ o ∈ sent, o.Genuine) ∧ ∀ entry ∈ after, entry.Genuine := by
  cases h with
  | operand ht => exact ⟨List.forall_mem_singleton.mpr ht, hs⟩
  | opening ht => exact ⟨by simp, List.forall_mem_cons.mpr ⟨ht, hs⟩⟩
  | closing ht ps opened =>
    obtain ⟨hps, hbelow⟩ := List.forall_mem_append.mp hs
    exact ⟨genuine_outputs hps, (List.forall_mem_cons.mp hbelow).2⟩
  | operator ht ps hps hbase =>
    obtain ⟨hps, hbase⟩ := List.forall_mem_append.mp hs
    exact ⟨genuine_outputs hps, List.forall_mem_cons.mpr ⟨ht, hbase⟩⟩

theorem Reached.genuine {base stack : List Entry} {tokens : List Token} {sent : List Output}
    (h : Reached base tokens sent stack) (hbase : ∀ entry ∈ base, entry.Genuine) :
    (∀ o ∈ sent, o.Genuine) ∧ ∀ entry ∈ stack, entry.Genuine := by
  induction h with
  | start => exact ⟨by simp, hbase⟩
  | shift _ hs ih =>
    obtain ⟨hsent, hstack⟩ := ih
    obtain ⟨hmore, hafter⟩ := hs.genuine hstack
    exact ⟨List.forall_mem_append.mpr ⟨hsent, hmore⟩, hafter⟩

/-- The operators that were sent on are those of the tokens that were. -/
theorem filterMap_op?_eq {sent : List Output} (h : ∀ o ∈ sent, o.Genuine) :
    sent.filterMap Output.op? = (operatorTokens sent).filterMap Token.operator? := by
  rw [operatorTokens, List.filterMap_filterMap]
  refine List.filterMap_congr fun o ho => ?_
  cases o with
  | operand token => rfl
  | operator op token => exact (Token.operator?_of_operator (h _ ho)).symm

/-! ### Operators in the machine -/

/-- The operators inside the pieces of a stack. -/
def inside (stack : List Piece) : List Operator := stack.flatMap fun piece => piece.expr.operators

theorem Pushed.inside {o : Output} {stack after : List Piece} (h : Pushed o stack after) :
    (inside after).Perm ([o].filterMap Output.op? ++ inside stack) := by
  cases h with
  | operand token => exact .refl _
  | operator op token lhs rhs stack =>
    change ((lhs.expr.operators ++ op :: rhs.expr.operators) ++ Yard.inside stack).Perm
      (op :: (rhs.expr.operators ++ (lhs.expr.operators ++ Yard.inside stack)))
    rw [List.append_assoc, List.cons_append]
    exact List.perm_middle.trans ((List.perm_append_comm_assoc _ _ _).cons op)

/-- **No operator is lost in the machine.** -/
theorem operators_build : ∀ {outputs : List Output} {stack after : List Piece},
    build stack outputs = .ok after →
      (inside after).Perm (outputs.filterMap Output.op? ++ inside stack) := by
  intro outputs
  induction outputs with
  | nil =>
    intro stack after h
    cases h
    exact .refl _
  | cons o os ih =>
    intro stack after h
    obtain ⟨middle, hpush, h⟩ := build_cons_eq_ok h
    have hmiddle := (push_eq_ok_iff.mp hpush).inside
    change (inside after).Perm (([o] ++ os).filterMap Output.op? ++ inside stack)
    rw [List.filterMap_append, List.append_assoc]
    exact (ih h).trans ((hmiddle.append_left _).trans (List.perm_append_comm_assoc _ _ _))

end Yard

/-! ### What an assembly is made of -/

/-- The operator that waits, if it is one. -/
def Waiting.operator? : Waiting → Option Operator
  | .opening _ => none
  | .operator op _ => some op

/-- The token of an operator that waits. -/
def Waiting.token? : Waiting → Option Token
  | .opening _ => none
  | .operator _ token => some token

/-- The assembly is made of these tokens. -/
structure Assembly.Holds (a : Assembly) (tokens : List Token) : Prop where
  /-- From the bottom of the stack to its top, the leaves are the operands in their order. -/
  leaves : a.operands.reverse.flatMap (fun piece => piece.expr.operands) =
    (Token.operands tokens).map Token.text
  /-- The operators are inside the pieces or wait. -/
  operators : (a.operands.flatMap (fun piece => piece.expr.operators) ++
    a.waiting.filterMap Waiting.operator?).Perm (tokens.filterMap Token.operator?)
  /-- Each operator among the tokens is in one of these places, and is there once. -/
  places : ∃ applied : List Token,
    (a.operands.flatMap (fun piece => piece.expr.operators)).Perm
      (applied.filterMap Token.operator?) ∧
    (applied ++ a.waiting.filterMap Waiting.token?).Perm (Token.operators tokens)
  /-- What waits as an operator is one of the tokens, and that operator. -/
  waiting : ∀ op t, .operator op t ∈ a.waiting → t ∈ tokens ∧ t.role = .operator op
  /-- Each piece has operands of its own, and goes from the first start among them to the last
  end. -/
  parts : ∃ parts : List (List Token), parts.flatten = Token.operands tokens ∧
    List.Forall₂ Piece.MadeOf a.operands.reverse parts
  /-- The pieces of a text follow one another, and none is empty. -/
  inOrder : ∀ source, tokens <+: Token.scan source →
    (∀ piece ∈ a.operands, piece.span.start < piece.span.stop) ∧
      a.operands.reverse.Pairwise fun p q => p.span.stop ≤ q.span.start

namespace Yard

/-- What waits in an assembly is what waits in the yard. -/
theorem mem_waiting {op : Operator} {t : Token} {stack : List Entry} :
    .operator op t ∈ waiting stack ↔ .operator op t ∈ stack := by
  induction stack with
  | nil => simp [waiting]
  | cons entry stack ih => cases entry <;> simp [waiting, ih]

theorem filterMap_waiting {stack : List Entry} (h : ∀ entry ∈ stack, entry.Genuine) :
    (waiting stack).filterMap Waiting.operator? =
      (waitingOperators stack).filterMap Token.operator? := by
  induction stack with
  | nil => rfl
  | cons entry stack ih =>
    obtain ⟨hentry, hstack⟩ := List.forall_mem_cons.mp h
    cases entry with
    | opening paren => exact ih hstack
    | operator op token =>
      change op :: (waiting stack).filterMap Waiting.operator? =
        (token :: waitingOperators stack).filterMap Token.operator?
      rw [List.filterMap_cons_some (Token.operator?_of_operator hentry), ih hstack]

theorem filterMap_token?_waiting (stack : List Entry) :
    (waiting stack).filterMap Waiting.token? = waitingOperators stack := by
  induction stack with
  | nil => rfl
  | cons entry stack ih =>
    cases entry with
    | opening paren => exact ih
    | operator op token => exact congrArg (token :: ·) ih

/-- The state of an assembly is a state of the yard and one of the machine. -/
theorem exists_reached_of_ofTokens {tokens : List Token} {a : Assembly}
    (h : (Assembly.ofTokens tokens).result = .ok a) :
    ∃ sent stack, Reached [] tokens sent stack ∧ build [] sent = .ok a.operands ∧
      a.waiting = waiting stack := by
  have hrun := result_foldlM_step tokens ([], [])
  change (Assembly.ofTokens tokens).result = _ at hrun
  rw [h] at hrun
  cases hfuse : fuse [] (tokens.foldlM step []) with
  | error e => rw [hfuse] at hrun; cases hrun
  | ok r =>
    rw [hfuse] at hrun
    cases hrun
    obtain ⟨hbuild, hresult⟩ := fuse_eq_ok hfuse
    exact ⟨_, r.2, reached_iff.mpr (by rw [← hresult]), hbuild, rfl⟩

end Yard

open Yard in
/-- Every state that an assembly comes to is made of the tokens that were taken. -/
theorem Assembly.holds {tokens : List Token} {a : Assembly}
    (h : (Assembly.ofTokens tokens).result = .ok a) : a.Holds tokens := by
  obtain ⟨sent, stack, hreached, hbuild, hwaiting⟩ := exists_reached_of_ofTokens h
  obtain ⟨hsent, hstack⟩ := hreached.genuine (by simp)
  have hstacked := Stacked.nil.build hbuild
  rw [hreached.operands, List.nil_append] at hstacked
  have hoperators : (operatorTokens sent ++ waitingOperators stack).Perm
      (Token.operators tokens) := hreached.operators
  -- the operators in the pieces are those that were sent on
  have hinside : (inside a.operands).Perm _ := operators_build hbuild
  rw [filterMap_op?_eq hsent, inside, inside, List.flatMap_nil, List.append_nil] at hinside
  refine ⟨hstacked.leaves, ?_, ⟨operatorTokens sent, hinside, ?_⟩, ?_, hstacked.exists_parts, ?_⟩
  · rw [hwaiting, filterMap_waiting hstack, ← Token.filterMap_operators tokens]
    refine (hinside.append_right _).trans ?_
    rw [← List.filterMap_append]
    exact hoperators.filterMap _
  · rwa [hwaiting, filterMap_token?_waiting]
  · intro op t ht
    rw [hwaiting, mem_waiting] at ht
    have hmem : t ∈ operatorTokens sent ++ waitingOperators stack :=
      List.mem_append_right _ (List.mem_filterMap.mpr ⟨_, ht, rfl⟩)
    exact ⟨(Token.mem_operators.mp (hoperators.subset hmem)).1, hstack _ ht⟩
  · intro source hprefix
    have horder : Token.InOrder (Token.operands tokens) :=
      (SyntaxError.inOrder_scan source).sublist
        (List.filter_sublist.trans hprefix.sublist)
    exact ⟨fun piece hp => hstacked.start_lt horder hp, hstacked.pairwise horder⟩

open Yard in
/-- The expression that comes out has the operands and the operators that went in. -/
theorem Expr.operands_and_operators_of_ofTokens {tokens : List Token} {e : Expr}
    (h : Expr.ofTokens tokens = .ok e) :
    e.operands = (Token.operands tokens).map Token.text ∧
      e.operators.Perm (tokens.filterMap Token.operator?) := by
  obtain ⟨span, hfuse⟩ := Expr.ofTokens_eq_ok_iff.mp h
  obtain ⟨hbuild, hresult⟩ := fuse_eq_ok hfuse
  obtain ⟨sent, ps, hreached, htrace⟩ := (ends_run tokens).exists_reached hresult
  obtain ⟨hoperands, hoperators⟩ := (ends_run tokens).sent_of_ok hresult
  have hstacked := Stacked.nil.build hbuild
  rw [hoperands, List.nil_append] at hstacked
  have hgenuine : ∀ o ∈ (run tokens).trace, o.Genuine := by
    obtain ⟨hsent, hps⟩ := hreached.genuine (by simp)
    rw [htrace]
    exact List.forall_mem_append.mpr ⟨hsent, genuine_outputs hps⟩
  have hinside : (inside [⟨e, span⟩]).Perm _ := operators_build hbuild
  rw [filterMap_op?_eq hgenuine, inside, inside, List.flatMap_nil, List.append_nil,
    List.flatMap_singleton] at hinside
  refine ⟨by simpa using hstacked.leaves, ?_⟩
  rw [← Token.filterMap_operators]
  exact hinside.trans (hoperators.filterMap _)

/-- **No token is lost**, none is there twice, and no operand changes its place.  This holds in
every state that an assembly comes to without an error, of whichever row the tokens are the
beginning, and so it holds of the expression that comes out. -/
theorem Assembly.holds_of_ofTokens (tokens : List Token) :
    (∀ a, (Assembly.ofTokens tokens).result = .ok a → a.Holds tokens) ∧
      ∀ e, Expr.ofTokens tokens = .ok e →
        e.operands = (Token.operands tokens).map Token.text ∧
          e.operators.Perm (tokens.filterMap Token.operator?) :=
  ⟨fun _ => Assembly.holds, fun _ => Expr.operands_and_operators_of_ofTokens⟩

/-- In `a*é-(2` the product is one piece, and the difference waits below the parenthesis; the
tree of the closed text has both operators. -/
theorem Assembly.holds_of_ofTokens_group :
    (∃ a : Assembly, (Assembly.ofTokens (Token.scan "a*é-(2")).result = .ok a ∧
      a.operands = [⟨.operand "2", ⟨6, 7⟩⟩,
        ⟨.binary (.operand "a") .multiply (.operand "é"), ⟨0, 4⟩⟩] ∧
      a.waiting.filterMap Waiting.operator? = [.subtract] ∧
      a.Holds (Token.scan "a*é-(2")) ∧
    ∃ e, Expr.ofTokens (Token.scan "a*é-(2)") = .ok e ∧ e.operands = ["a", "é", "2"] ∧
      e.operators.Perm [.multiply, .subtract] := by
  constructor
  · let product : Expr := .binary (.operand "a") .multiply (.operand "é")
    let a : Assembly := ⟨[⟨.operand "2", ⟨6, 7⟩⟩, ⟨product, ⟨0, 4⟩⟩],
      [.opening (some ⟨"(", ⟨5, 6⟩⟩), .operator .subtract ⟨"-", ⟨4, 5⟩⟩, .opening none]⟩
    have h : (Assembly.ofTokens (Token.scan "a*é-(2")).result = .ok a := by decide +kernel
    exact ⟨a, h, rfl, rfl, (holds_of_ofTokens _).1 a h⟩
  · let product : Expr := .binary (.operand "a") .multiply (.operand "é")
    have h : Expr.ofTokens (Token.scan "a*é-(2)") =
        .ok (.binary product .subtract (.operand "2")) := by decide +kernel
    obtain ⟨hoperands, hoperators⟩ := (holds_of_ofTokens _).2 _ h
    exact ⟨_, h, hoperands.trans (by decide +kernel), hoperators.trans (by decide +kernel)⟩

end Reckon
