import Mathlib.Data.List.Chain
import Reckon.Proofs.Assembly.Moves
import Reckon.Proofs.Grammar.Contents

/-!
# What waits in an assembly

The start of the expression is at the bottom of the stack of what waits, and above it are the
parentheses that are open.  The operators between two of them bind the more tightly the later they
came, for one that does not bind more tightly than the one on top has that applied first.  So no
more than three operators wait in each scope, and an operator that gives way is always found on top.

## Main definitions

* `Token.unclosed` — the opening parentheses of a row that are never closed, in their order.
* `Waiting.Tighter` — of two neighbours that are operators, the upper one binds more tightly.
* `Assembly.YieldsTo a op token` — what an operator that comes next does to what waits.
* `Assembly.Ordered a tokens` — what waits in `a` behind `tokens`.

## Main results

* `Yard.Scoped.unclosed_eq` — the parentheses that are open are those that are never closed.
* `Assembly.Course.isChain_waiting` — no move puts an operator on one that binds as tightly.
* `Assembly.length_waiting_le` — how high the stack is at most.
* `Assembly.yieldTo_waiting_append` — the operators that give way are applied from the top.
* `Assembly.ordered_of_ofTokens` — **the order of what waits**, in every state of an assembly.
-/

namespace Reckon

/-! ### Parentheses that are never closed -/

namespace Token

variable {as bs tokens : List Token}

instance (tokens : List Token) : Decidable (Overclosed tokens) :=
  decidable_of_iff (∃ front ∈ tokens.inits, openings front < closings front)
    (by simp [Overclosed, List.mem_inits])

instance (after : List Token) : Decidable (IsClosed after) := decidable_of_iff _ isClosed_iff.symm

/-- The opening parentheses of a row that are never closed, in their order. -/
def unclosed : List Token → List Token
  | [] => []
  | t :: after =>
    if t.role = .opening ∧ ¬IsClosed after then t :: unclosed after else unclosed after

/-- Whether a parenthesis is closed is known where those that follow it close no more than they
open. -/
theorem isClosed_append_iff (h : ¬Overclosed bs) : IsClosed (as ++ bs) ↔ IsClosed as := by
  rw [isClosed_iff, isClosed_iff]
  constructor
  · intro hover
    by_contra hnot
    exact not_overclosed_append hnot h hover
  · rintro ⟨front, hfront, hlt⟩
    exact ⟨front, hfront.trans (List.prefix_append as bs), hlt⟩

theorem unclosed_append (h : ¬Overclosed bs) :
    unclosed (as ++ bs) = unclosed as ++ unclosed bs := by
  induction as with
  | nil => rfl
  | cons t as ih =>
    simp only [List.cons_append, unclosed, isClosed_append_iff h, ih]
    split <;> rfl

/-- Where the parentheses match, all are closed. -/
theorem Matched.unclosed_eq_nil (h : Matched tokens) : unclosed tokens = [] := by
  have hsuffix : ∀ after, after <:+ tokens → unclosed after = [] := by
    intro after
    induction after with
    | nil => exact fun _ => rfl
    | cons t after ih =>
      rintro ⟨front, rfl⟩
      have hclosed : ¬(t.role = .opening ∧ ¬IsClosed after) :=
        fun ⟨ht, hnot⟩ => hnot (h.isClosed ht)
      rw [unclosed, if_neg hclosed]
      exact ih ⟨front ++ [t], by simp⟩
  exact hsuffix tokens List.suffix_rfl

end Token

/-- **The parentheses that are open are those that are never closed.** -/
theorem Yard.Scoped.unclosed_eq {tokens opened : List Token} (h : Yard.Scoped tokens opened) :
    Token.unclosed tokens = opened.reverse := by
  induction h with
  | matched h => exact h.unclosed_eq_nil
  | @opening before inner opened t _ ht hi ih =>
    have hinner : ¬Token.Overclosed inner := hi.not_overclosed
    have hopen : ¬Token.Overclosed (t :: inner) :=
      Token.not_overclosed_append (Token.not_overclosed_singleton (by simp [ht])) hinner
    have hnot : ¬Token.IsClosed inner := fun hc => hinner (Token.isClosed_iff.mp hc)
    rw [Token.unclosed_append hopen, ih, Token.unclosed, if_pos ⟨ht, hnot⟩, hi.unclosed_eq_nil,
      List.reverse_cons]

/-! ### Operators that wait on one another -/

/-- Of two neighbours that both are operators, the upper one binds more tightly. -/
def Waiting.Tighter : Waiting → Waiting → Prop
  | .operator op _, .operator below _ => below.fixity.precedence < op.fixity.precedence
  | _, _ => True

/-- The parenthesis that waits, if it is one. -/
def Waiting.paren? : Waiting → Option Token
  | .opening paren => paren
  | .operator _ _ => none

/-- How tightly the operator on top binds, if it is one. -/
def Waiting.topPrecedence : List Waiting → Nat
  | .operator op _ :: _ => op.fixity.precedence
  | _ => 0

theorem Operator.precedence_pos (op : Operator) : 0 < op.fixity.precedence := by
  cases op <;> decide

theorem Operator.precedence_le (op : Operator) : op.fixity.precedence ≤ 3 := by
  cases op <;> decide

theorem Waiting.topPrecedence_le (ws : List Waiting) : topPrecedence ws ≤ 3 := by
  unfold topPrecedence
  split
  · exact Operator.precedence_le _
  · exact Nat.zero_le _

/-- A row of operators as they wait in an assembly. -/
def Yard.Pending.waiting (ps : Yard.Pending) : List Waiting :=
  ps.map fun p => .operator p.1 p.2

namespace Assembly

open Waiting (Tighter topPrecedence)
open Yard (Pending parens)

variable {tokens rest rest' : List Token} {a a' : Assembly} {record : Option Record}
  {records : List Record} {ws below : List Waiting} {op : Operator} {token : Token}

/-- A move keeps the operators in order: one is put on another only if that does not give way. -/
theorem Move.isChain_waiting (h : Move a rest record a' rest')
    (ha : List.IsChain Tighter a.waiting) : List.IsChain Tighter a'.waiting := by
  cases h with
  | operand _ => exact ha
  | opening _ => exact List.isChain_cons.mpr ⟨fun _ _ => trivial, ha⟩
  | closing _ => exact (List.isChain_cons.mp ha).2
  | @operator _ ws op token _ ht hstays =>
    refine List.isChain_cons.mpr ⟨fun lower hlower => ?_, ha⟩
    cases lower with
    | opening _ => trivial
    | operator top t =>
      obtain ⟨more, rfl⟩ := List.head?_eq_some_iff.mp hlower
      have hnot := hstays top t more rfl
      rw [givesWay_operator_iff ht] at hnot
      exact Nat.lt_of_not_le hnot
  | apply _ _ _ => exact (List.isChain_cons.mp ha).2

/-- **No operator waits on one that binds as tightly.** -/
theorem Course.isChain_waiting (h : Course tokens a rest records) :
    List.IsChain Tighter a.waiting := by
  induction h with
  | start => exact List.isChain_singleton _
  | move _ hmove ih => exact hmove.isChain_waiting ih

/-- Operators that wait side by side bind the more tightly the higher up they are. -/
theorem pairwise_of_isChain (h : List.IsChain Tighter ws) {ps : Pending}
    (hps : ps.waiting <:+: ws.reverse) :
    ps.Pairwise fun p q => p.1.fixity.precedence < q.1.fixity.precedence := by
  have hinfix : (Pending.waiting ps.reverse) <:+: ws := by
    rw [Pending.waiting, List.map_reverse, ← List.reverse_infix, List.reverse_reverse]
    exact hps
  obtain ⟨above, below, rfl⟩ := hinfix
  -- neighbours in order are in order all along, since the order is transitive
  have hchain := (List.isChain_map _).mp h.left_of_append.right_of_append
  have htrans : Trans
      (fun p q : Operator × Token => q.1.fixity.precedence < p.1.fixity.precedence)
      (fun p q : Operator × Token => q.1.fixity.precedence < p.1.fixity.precedence)
      (fun p q : Operator × Token => q.1.fixity.precedence < p.1.fixity.precedence) :=
    ⟨fun hpq hqr => Nat.lt_trans hqr hpq⟩
  exact List.pairwise_reverse.mp (List.isChain_iff_pairwise.mp hchain)

/-- **How high the stack is**: above each parenthesis, and above the start of the expression, three
operators wait at most. -/
theorem length_waiting_le : ∀ stack : List Yard.Entry,
    List.IsChain Tighter (Yard.waiting stack) → (Yard.waiting stack).length ≤
      topPrecedence (Yard.waiting stack) + 4 * (parens stack).length + 1 := by
  intro stack
  induction stack with
  | nil => exact fun _ => Nat.le_refl 1
  | cons entry stack ih =>
    intro h
    cases entry with
    | opening paren =>
      rw [Yard.waiting] at h ⊢
      have hstack := ih (List.isChain_cons.mp h).2
      have htop := Waiting.topPrecedence_le (Yard.waiting stack)
      rw [Yard.parens_opening, List.length_cons, List.length_cons]
      omega
    | operator op token =>
      rw [Yard.waiting] at h ⊢
      obtain ⟨htight, hrest⟩ := List.isChain_cons.mp h
      have hstack := ih hrest
      have htop : topPrecedence (Yard.waiting stack) < op.fixity.precedence := by
        unfold topPrecedence
        split
        · next heq => exact htight _ (by rw [heq]; rfl)
        · exact op.precedence_pos
      change _ ≤ op.fixity.precedence + 4 * (parens stack).length + 1
      rw [List.length_cons]
      omega

/-! ### What an operator does to what waits -/

theorem waiting_entries_append (ps : Pending) (base : List Yard.Entry) :
    Yard.waiting (ps.entries ++ base) = ps.waiting ++ Yard.waiting base := by
  induction ps with
  | nil => rfl
  | cons p ps ih =>
    change Waiting.operator p.1 p.2 :: Yard.waiting (Pending.entries ps ++ base) = _
    rw [ih]
    rfl

theorem topPrecedence_lt_of_settled {base : List Yard.Entry}
    (h : Yard.Settled op.fixity.precedence base) :
    topPrecedence (Yard.waiting base) < op.fixity.precedence := by
  match base, h with
  | [], _ => exact op.precedence_pos
  | .opening _ :: _, _ => exact op.precedence_pos
  | .operator _ _ :: _, h => exact h

theorem yieldTo_of_settled {base : List Yard.Entry} (h : Yard.Settled op.fixity.precedence base)
    (operands : List Piece) :
    yieldTo op.fixity (Yard.waiting base) operands = pure ⟨operands, Yard.waiting base⟩ := by
  match base, h with
  | [], _ => rfl
  | .opening _ :: _, _ => rfl
  | .operator top t :: base, h =>
    have hstays : ¬top.fixity.precedes op.fixity :=
      fun hp => Nat.not_le.mpr h ((Operator.precedes_iff top op).mp hp)
    rw [Yard.waiting, yieldTo, if_neg hstays]

/-- The operators that give way are applied one after the other, and each is found on top. -/
theorem yieldTo_waiting_append {base : List Yard.Entry}
    (hbase : Yard.Settled op.fixity.precedence base) : ∀ (ps : Pending) (operands : List Piece),
    (∀ p ∈ ps, op.fixity.precedence ≤ p.1.fixity.precedence) →
      yieldTo op.fixity (ps.waiting ++ Yard.waiting base) operands =
        ps.foldlM (fun operands p => applyTop p.1 p.2 operands) operands >>= fun operands =>
          pure ⟨operands, Yard.waiting base⟩ := by
  intro ps
  induction ps with
  | nil =>
    intro operands _
    rw [List.foldlM_nil, pure_bind]
    exact yieldTo_of_settled hbase operands
  | cons p ps ih =>
    intro operands hps
    obtain ⟨hp, hps⟩ := List.forall_mem_cons.mp hps
    change yieldTo op.fixity (.operator p.1 p.2 :: (Pending.waiting ps ++ Yard.waiting base)) _ = _
    rw [yieldTo, if_pos ((Operator.precedes_iff p.1 op).mpr hp), List.foldlM_cons, bind_assoc]
    congr 1
    funext operands
    exact ih operands hps

/-- An operator comes to what waits in an assembly: the operators `ps` on top do not bind less
tightly and are applied, one after the other, and it waits on what is below them. -/
def YieldsTo (a : Assembly) (op : Operator) (token : Token) : Prop :=
  ∃ (ps : Pending) (below : List Waiting), below ≠ [] ∧ a.waiting = ps.waiting ++ below ∧
    (∀ p ∈ ps, op.fixity.precedence ≤ p.1.fixity.precedence) ∧
      topPrecedence below < op.fixity.precedence ∧
        a.step token = (do
          let operands ← ps.foldlM (fun operands p => applyTop p.1 p.2 operands) a.operands
          Traced.note (.operator token)
          pure ⟨operands, .operator op token :: below⟩)

/-- **What an operator does to what waits.** -/
theorem yieldsTo_of_operator {stack : List Yard.Entry} (ha : a.waiting = Yard.waiting stack)
    (ht : token.role = .operator op) : a.YieldsTo op token := by
  obtain ⟨ps, base, rfl, hps, hbase, -⟩ := Yard.exists_unwind_eq op.fixity.precedence stack
  rw [waiting_entries_append] at ha
  refine ⟨ps, Yard.waiting base, ?_, ha, hps, topPrecedence_lt_of_settled hbase, ?_⟩
  · cases base with
    | nil => exact List.cons_ne_nil _ _
    | cons entry base => cases entry <;> exact List.cons_ne_nil _ _
  · unfold step
    rw [ht]
    change yieldTo op.fixity a.waiting a.operands >>= _ = _
    rw [ha, yieldTo_waiting_append hbase ps a.operands hps, bind_assoc]
    rfl

/-! ### The order of what waits -/

/-- What waits in an assembly that has taken these tokens. -/
structure Ordered (a : Assembly) (tokens : List Token) : Prop where
  /-- The start of the expression is at the bottom, and nowhere else. -/
  start : ∃ above, a.waiting = above ++ [.opening none] ∧ .opening none ∉ above
  /-- From the bottom to the top, the parentheses are those that are never closed, in their
  order. -/
  parens : a.waiting.reverse.filterMap Waiting.paren? = Token.unclosed tokens
  /-- From the bottom to the top, operators with no parenthesis between them bind more and more
  tightly. -/
  tighter : ∀ ps : Pending, ps.waiting <:+: a.waiting.reverse →
    ps.Pairwise fun p q => p.1.fixity.precedence < q.1.fixity.precedence
  length_le : a.waiting.length ≤ 4 * ((Token.unclosed tokens).length + 1)
  /-- What an operator that comes next has applied is on top. -/
  yieldsTo : ∀ token op, token.role = .operator op → a.YieldsTo op token

/-- The start of the expression waits below all entries. -/
theorem exists_above (stack : List Yard.Entry) :
    ∃ above, Yard.waiting stack = above ++ [.opening none] ∧ .opening none ∉ above := by
  induction stack with
  | nil => exact ⟨[], rfl, List.not_mem_nil⟩
  | cons entry stack ih =>
    obtain ⟨above, habove, hnot⟩ := ih
    cases entry with
    | opening paren =>
      exact ⟨.opening (some paren) :: above, by rw [Yard.waiting, habove]; rfl, by simp [hnot]⟩
    | operator op token =>
      exact ⟨.operator op token :: above, by rw [Yard.waiting, habove]; rfl, by simp [hnot]⟩

theorem filterMap_paren?_waiting (stack : List Yard.Entry) :
    (Yard.waiting stack).filterMap Waiting.paren? = parens stack := by
  induction stack with
  | nil => rfl
  | cons entry stack ih =>
    cases entry with
    | opening paren =>
      change paren :: (Yard.waiting stack).filterMap Waiting.paren? = paren :: parens stack
      rw [ih]
    | operator op token => exact ih

/-- **The order of what waits**, in every state that an assembly comes to without an error, of
whichever row the tokens are the beginning. -/
theorem ordered_of_ofTokens (h : (ofTokens tokens).result = .ok a) : a.Ordered tokens := by
  obtain ⟨sent, stack, hreached, -, hwaiting⟩ := Yard.exists_reached_of_ofTokens h
  have hchain : List.IsChain Tighter a.waiting := (course_of_ofTokens h).isChain_waiting
  have hopen : Token.unclosed tokens = (parens stack).reverse := hreached.scoped.unclosed_eq
  refine ⟨hwaiting ▸ exists_above stack, ?_, fun ps => pairwise_of_isChain hchain, ?_,
    fun token op ht => yieldsTo_of_operator hwaiting ht⟩
  · rw [List.filterMap_reverse, hwaiting, filterMap_paren?_waiting, hopen]
  · rw [hwaiting] at hchain
    have hlength := length_waiting_le stack hchain
    have htop := Waiting.topPrecedence_le (Yard.waiting stack)
    rw [hwaiting, hopen, List.length_reverse]
    omega

/-- In `(a)+((1+2*x^3` two parentheses are open.  The scope of the second is as high as it can be,
and a product that came next would have the power and the product on top applied. -/
theorem ordered_of_ofTokens_powers :
    let tokens := Token.scan "(a)+((1+2*x^3"
    ∃ a : Assembly, (ofTokens tokens).result = .ok a ∧
      a.waiting = [.operator .power ⟨"^", ⟨11, 12⟩⟩, .operator .multiply ⟨"*", ⟨9, 10⟩⟩,
        .operator .add ⟨"+", ⟨7, 8⟩⟩, .opening (some ⟨"(", ⟨5, 6⟩⟩),
        .opening (some ⟨"(", ⟨4, 5⟩⟩), .operator .add ⟨"+", ⟨3, 4⟩⟩, .opening none] ∧
      Token.unclosed tokens = [⟨"(", ⟨4, 5⟩⟩, ⟨"(", ⟨5, 6⟩⟩] ∧ a.Ordered tokens := by
  intro tokens
  let a : Assembly :=
    ⟨[⟨.operand "3", ⟨12, 13⟩⟩, ⟨.operand "x", ⟨10, 11⟩⟩, ⟨.operand "2", ⟨8, 9⟩⟩,
        ⟨.operand "1", ⟨6, 7⟩⟩, ⟨.operand "a", ⟨1, 2⟩⟩],
      [.operator .power ⟨"^", ⟨11, 12⟩⟩, .operator .multiply ⟨"*", ⟨9, 10⟩⟩,
        .operator .add ⟨"+", ⟨7, 8⟩⟩, .opening (some ⟨"(", ⟨5, 6⟩⟩),
        .opening (some ⟨"(", ⟨4, 5⟩⟩), .operator .add ⟨"+", ⟨3, 4⟩⟩, .opening none]⟩
  have h : (ofTokens tokens).result = .ok a := by decide +kernel
  exact ⟨a, h, rfl, by decide +kernel, ordered_of_ofTokens h⟩

end Assembly

end Reckon
