import Reckon.Proofs.Expr.Machine

/-!
# Walking through a tree in turns

A walk can go through a tree without going down a whole path at once.  It keeps the nodes that wait,
and takes the nearest of them in each turn.  A leaf gives its text, and an operator whose sides are
through gives its symbol.  Any other node goes back behind its own two sides, with a mark, and a
further turn has to find the element that was asked for.

## Main definitions

* `Expr.Agenda` — the nodes that wait, marked or not.
* `Expr.Agenda.turn` — one turn; `Expr.Agenda.next` — turns until there is an answer.
* `Expr.Agenda.Takes n agenda answer` — the answer comes in the `n`-th turn.
* `Expr.Agenda.answer i agenda` — the answer to the request after `i` others.
* `Expr.texts` — the texts of a tree in post-order.

## Main results

* `Expr.Agenda.exists_takes` — from any agenda the turns end with an answer.
* `Expr.Agenda.next?_toWalk` — a request to an agenda is a step of the walk that it stands for.
* `Expr.Agenda.answer_eq_ahead` — what an agenda has still to give comes one by one.
* `Expr.Agenda.answer_ofExpr` — **the answers are the texts of the tree in post-order**.
-/

namespace Reckon.Expr

/-! ### Turns -/

/-- The nodes that wait, nearest first.  A node is marked once its two sides wait before it. -/
abbrev Agenda := List (Expr × Bool)

namespace Agenda

/-- The agenda for a tree, before the first turn. -/
def ofExpr (e : Expr) : Agenda := [(e, false)]

/-- What a turn comes to. -/
inductive Outcome where
  /-- Nothing waits. -/
  | ended
  /-- An element is given. -/
  | given (item : Item) (rest : Agenda)
  /-- A node waits again, behind its two sides. -/
  | deferred (rest : Agenda)

/-- One turn, for the nearest node. -/
def turn : Agenda → Outcome
  | [] => .ended
  | (.operand text, _) :: rest => .given (.operand text) rest
  | (.binary _ op _, true) :: rest => .given (.operator op) rest
  | (.binary lhs op rhs, false) :: rest =>
    .deferred ((lhs, false) :: (rhs, false) :: (.binary lhs op rhs, true) :: rest)

/-- The turns that a tree needs, until nothing of it waits. -/
def turnsOf : Expr → Nat
  | .operand _ => 1
  | .binary lhs _ rhs => turnsOf lhs + turnsOf rhs + 2

/-- The turns that are left. -/
def turnsLeft : Agenda → Nat
  | [] => 0
  | (_, true) :: rest => turnsLeft rest + 1
  | (e, false) :: rest => turnsLeft rest + turnsOf e

variable {agenda rest : Agenda} {item : Item}

/-- The agenda grows by two nodes when one is put off, but a turn is gone. -/
theorem turnsLeft_of_deferred (h : agenda.turn = .deferred rest) :
    agenda.turnsLeft = rest.turnsLeft + 1 := by
  match agenda with
  | [] => cases h
  | (.operand _, _) :: _ => cases h
  | (.binary _ _ _, true) :: _ => cases h
  | (.binary lhs op rhs, false) :: later =>
    cases h
    simp only [turnsLeft, turnsOf]
    omega

/-- Turns until there is an answer: an element, or `none` when nothing waits. -/
def next (agenda : Agenda) : Option Item × Agenda :=
  match _h : agenda.turn with
  | .ended => (none, agenda)
  | .given item rest => (some item, rest)
  | .deferred rest => rest.next
termination_by agenda.turnsLeft
decreasing_by simp [turnsLeft_of_deferred _h]

theorem next_of_ended (h : agenda.turn = .ended) : agenda.next = (none, agenda) := by
  rw [next]
  split <;> simp_all

theorem next_of_given (h : agenda.turn = .given item rest) :
    agenda.next = (some item, rest) := by
  rw [next]
  split <;> simp_all

theorem next_of_deferred (h : agenda.turn = .deferred rest) : agenda.next = rest.next := by
  rw [next]
  split <;> simp_all

/-- The answer comes in the `n`-th turn, and the agenda is what is left then. -/
inductive Takes : Nat → Agenda → Option Item × Agenda → Prop where
  | ended {agenda : Agenda} (h : agenda.turn = .ended) : Takes 1 agenda (none, agenda)
  | given {agenda rest : Agenda} {item : Item} (h : agenda.turn = .given item rest) :
      Takes 1 agenda (some item, rest)
  | deferred {n : Nat} {agenda rest : Agenda} {answer : Option Item × Agenda}
      (h : agenda.turn = .deferred rest) (hrest : Takes n rest answer) :
      Takes (n + 1) agenda answer

/-- **From any agenda the turns end with an answer.** -/
theorem exists_takes (agenda : Agenda) :
    ∃ n ≤ agenda.turnsLeft + 1, Takes n agenda agenda.next := by
  induction agenda using next.induct with
  | case1 agenda h => exact ⟨1, by omega, next_of_ended h ▸ .ended h⟩
  | case2 agenda item rest h => exact ⟨1, by omega, next_of_given h ▸ .given h⟩
  | case3 agenda rest h ih =>
    obtain ⟨n, hn, htakes⟩ := ih
    have hleft : agenda.turnsLeft = rest.turnsLeft + 1 := turnsLeft_of_deferred h
    exact ⟨n + 1, by omega, next_of_deferred h ▸ .deferred h htakes⟩

/-! ### The walk that an agenda stands for -/

/-- A node as part of a walk: of a marked one, only the operator is left to give. -/
def toStop : Expr × Bool → Expr ⊕ Operator
  | (.binary _ op _, true) => .inr op
  | (e, _) => .inl e

@[simp] theorem toStop_unmarked (e : Expr) : toStop (e, false) = .inl e := by
  cases e <;> rfl

/-- The walk that an agenda stands for. -/
def toWalk (agenda : Agenda) : Walk := agenda.map toStop

@[simp] theorem toWalk_ofExpr (e : Expr) : (ofExpr e).toWalk = Walk.ofExpr e := by
  simp [ofExpr, toWalk, Walk.ofExpr]

theorem eq_nil_of_ended (h : agenda.turn = .ended) : agenda = [] := by
  match agenda with
  | [] => rfl
  | (.operand _, _) :: _ => cases h
  | (.binary _ _ _, true) :: _ => cases h
  | (.binary _ _ _, false) :: _ => cases h

theorem next?_toWalk_of_given (h : agenda.turn = .given item rest) :
    agenda.toWalk.next? = some (item, rest.toWalk) := by
  match agenda with
  | [] => cases h
  | (.operand _, false) :: _ => cases h; rfl
  | (.operand _, true) :: _ => cases h; rfl
  | (.binary _ _ _, true) :: _ => cases h; rfl
  | (.binary _ _ _, false) :: _ => cases h

/-- To put a node off is a part of the way down to its first leaf. -/
theorem next?_toWalk_of_deferred (h : agenda.turn = .deferred rest) :
    agenda.toWalk.next? = rest.toWalk.next? := by
  match agenda with
  | [] => cases h
  | (.operand _, _) :: _ => cases h
  | (.binary _ _ _, true) :: _ => cases h
  | (.binary lhs op rhs, false) :: later =>
    cases h
    simp only [toWalk, List.map_cons, toStop_unmarked]
    rfl

/-- **A request to an agenda is a step of the walk** that it stands for. -/
theorem next?_toWalk (agenda : Agenda) :
    agenda.toWalk.next? = agenda.next.1.map fun item => (item, agenda.next.2.toWalk) := by
  induction agenda using next.induct with
  | case1 agenda h => rw [next_of_ended h, eq_nil_of_ended h]; rfl
  | case2 agenda item rest h => rw [next_of_given h, next?_toWalk_of_given h]; rfl
  | case3 agenda rest h ih => rw [next_of_deferred h, next?_toWalk_of_deferred h, ih]

/-- An agenda that has nothing to give stays as it is. -/
theorem next_snd_of_none (h : agenda.next.1 = none) : agenda.next.2 = [] := by
  induction agenda using next.induct with
  | case1 agenda hturn => rw [next_of_ended hturn, eq_nil_of_ended hturn]
  | case2 agenda item rest hturn => rw [next_of_given hturn] at h; cases h
  | case3 agenda rest hturn ih =>
    rw [next_of_deferred hturn] at h ⊢
    exact ih h

/-! ### One request after the other -/

/-- What is left of an agenda after some requests. -/
def after : Nat → Agenda → Agenda
  | 0, agenda => agenda
  | n + 1, agenda => after n agenda.next.2

/-- The answer to the request after `i` others. -/
def answer (i : Nat) (agenda : Agenda) : Option Item := (agenda.after i).next.1

/-- An answer is the first of what is ahead, and the rest stays ahead. -/
theorem ahead_next (agenda : Agenda) :
    agenda.next.1 = agenda.toWalk.ahead.head? ∧
      agenda.next.2.toWalk.ahead = agenda.toWalk.ahead.tail := by
  have hwalk : agenda.toWalk.next? = agenda.next.1.map fun item => (item, agenda.next.2.toWalk) :=
    next?_toWalk agenda
  cases hanswer : agenda.next.1 with
  | none =>
    rw [hanswer] at hwalk
    rw [Walk.ahead_of_next?_none hwalk, next_snd_of_none hanswer]
    exact ⟨rfl, rfl⟩
  | some item =>
    rw [hanswer] at hwalk
    rw [Walk.ahead_of_next? hwalk]
    exact ⟨rfl, rfl⟩

/-- **What an agenda has still to give comes one by one.** -/
theorem answer_eq_ahead (i : Nat) (agenda : Agenda) :
    agenda.answer i = agenda.toWalk.ahead[i]? := by
  induction i generalizing agenda with
  | zero => rw [← List.head?_eq_getElem?]; exact (ahead_next agenda).1
  | succ i ih =>
    calc agenda.answer (i + 1)
      _ = agenda.next.2.answer i := rfl
      _ = agenda.toWalk.ahead.tail[i]? := by rw [ih, (ahead_next agenda).2]
      _ = agenda.toWalk.ahead[i + 1]? := List.getElem?_tail

end Agenda

/-- The answers of a walk are what is ahead of it, and then nothing. -/
theorem Walk.steps_eq_ahead (n : Nat) (walk : Walk) :
    walk.steps n = (List.range n).map fun i => walk.ahead[i]? := by
  induction n generalizing walk with
  | zero => rfl
  | succ n ih =>
    rw [List.range_succ_eq_map, List.map_cons, List.map_map, steps]
    split
    · next hnone => simp [ih, ahead_of_next?_none hnone, Function.comp_def]
    · next item after hsome => simp [ih, ahead_of_next? hsome, Function.comp_def]

/-! ### Post-order -/

/-- The texts of a tree in post-order: those of the left side, those of the right side, then the
symbol of the operator. -/
def texts : Expr → List String
  | operand text => [text]
  | binary lhs op rhs => lhs.texts ++ rhs.texts ++ [op.symbol]

theorem map_text_items (e : Expr) : e.items.map Item.text = e.texts := by
  induction e with
  | operand text => rfl
  | binary lhs op rhs ihl ihr => simp [items, texts, ihl, ihr, Item.text]

/-- A tree has one operator less than leaves. -/
theorem length_texts (e : Expr) : e.texts.length + 1 = 2 * e.operands.length := by
  induction e with
  | operand text => rfl
  | binary lhs op rhs ihl ihr =>
    simp only [texts, operands_binary, List.length_append, List.length_singleton]
    omega

namespace Agenda

/-- **The answers are the texts of the tree in post-order**, and there are twice as many as leaves,
less one; each later request finds nothing.  They are the answers of a walk through the tree.
Whatever waits, a request is answered after finitely many turns. -/
theorem answer_ofExpr (e : Expr) :
    (∀ i, ((ofExpr e).answer i).map Item.text = e.texts[i]?) ∧
      (∀ i, ((ofExpr e).answer i).isSome ↔ i < 2 * e.operands.length - 1) ∧
        (∀ n, (Walk.ofExpr e).steps n = (List.range n).map fun i => (ofExpr e).answer i) ∧
          ∀ agenda : Agenda, ∃ turns ≤ agenda.turnsLeft + 1, Takes turns agenda agenda.next := by
  have hahead : (Walk.ofExpr e).ahead = e.items := List.append_nil _
  have hanswer : ∀ i, (ofExpr e).answer i = e.items[i]? := fun i => by
    rw [answer_eq_ahead, toWalk_ofExpr, hahead]
  have hlength : e.items.length + 1 = 2 * e.operands.length := by
    rw [← length_texts, ← map_text_items, List.length_map]
  refine ⟨fun i => ?_, fun i => ?_, fun n => ?_, exists_takes⟩
  · rw [hanswer, ← map_text_items, List.getElem?_map]
  · rw [hanswer, isSome_getElem?]
    omega
  · simp only [hanswer, Walk.steps_eq_ahead, hahead]

end Agenda

end Reckon.Expr
