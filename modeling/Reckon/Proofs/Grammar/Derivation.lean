import Reckon.Proofs.Yard.Fusion

/-!
# The grammar of expressions

The grammar that says how an expression groups, one nonterminal for each level of precedence:

    Sum     ::= Product | Sum (+|-) Product
    Product ::= Power   | Product (*|/) Power
    Power   ::= Atom    | Power ^ Atom
    Atom    ::= operand | ( Sum )

All productions of operators are left recursive, so operators of one level group to the left.

## Main definitions

* `Grammar.Derives nt tokens e` — `nt` derives `tokens`, and `e` is the tree of the derivation.
* `Grammar.Denotes outputs e` — `outputs` is a postfix notation of `e`.
* `Grammar.Shunts level tokens e` — what the yard does with a derivation of some level.

## Main results

* `Grammar.Derives.shunts` — the yard turns a derivation into the postfix notation of its
  tree, whatever waits in the yard before it.
* `Grammar.Derives.fuse_run` — so the machine leaves that tree and nothing else.
* `Grammar.ofTokens_of_derives` — **every sentence is assembled, into the tree of its
  derivation**.
-/

namespace Reckon.Grammar

open Yard

/-- The nonterminals of the grammar. -/
inductive Nonterminal where
  | sum
  | product
  | power
  | atom
  deriving DecidableEq, Repr

/-- The derivations of the grammar, with the tokens that they spell and their trees.  The
parentheses leave no trace in the tree. -/
inductive Derives : Nonterminal → List Token → Expr → Prop where
  | operand {t : Token} (ht : t.role = .operand) : Derives .atom [t] (.operand t.text)
  | group {opened closed : Token} {tokens : List Token} {e : Expr}
      (ho : opened.role = .opening) (h : Derives .sum tokens e)
      (hc : closed.role = .closing) : Derives .atom (opened :: (tokens ++ [closed])) e
  | ofAtom {tokens : List Token} {e : Expr} (h : Derives .atom tokens e) :
      Derives .power tokens e
  | power {t : Token} {ls rs : List Token} {l r : Expr} (hl : Derives .power ls l)
      (ht : t.role = .operator .power) (hr : Derives .atom rs r) :
      Derives .power (ls ++ t :: rs) (.binary l .power r)
  | ofPower {tokens : List Token} {e : Expr} (h : Derives .power tokens e) :
      Derives .product tokens e
  | product {t : Token} {op : Operator} {ls rs : List Token} {l r : Expr}
      (hop : op = .multiply ∨ op = .divide) (hl : Derives .product ls l)
      (ht : t.role = .operator op) (hr : Derives .power rs r) :
      Derives .product (ls ++ t :: rs) (.binary l op r)
  | ofProduct {tokens : List Token} {e : Expr} (h : Derives .product tokens e) :
      Derives .sum tokens e
  | sum {t : Token} {op : Operator} {ls rs : List Token} {l r : Expr}
      (hop : op = .add ∨ op = .subtract) (hl : Derives .sum ls l)
      (ht : t.role = .operator op) (hr : Derives .product rs r) :
      Derives .sum (ls ++ t :: rs) (.binary l op r)

/-- The least precedence of the operators that a nonterminal derives outside parentheses. -/
def Nonterminal.level : Nonterminal → Nat
  | .sum => 1
  | .product => 2
  | .power => 3
  | .atom => 4

/-! ### Postfix notation of a tree -/

/-- Reading `outputs` puts the tree `e` on the stack of the machine, on any stack. -/
def Denotes (outputs : List Output) (e : Expr) : Prop :=
  ∀ pieces : List Piece, ∃ span, build pieces outputs = .ok (⟨e, span⟩ :: pieces)

theorem denotes_operand (token : Token) : Denotes [.operand token] (.operand token.text) :=
  fun _ => ⟨token.span, rfl⟩

theorem Denotes.binary {ls rs : List Output} {l r : Expr} (hl : Denotes ls l)
    (hr : Denotes rs r) (op : Operator) (token : Token) :
    Denotes (ls ++ (rs ++ [.operator op token])) (.binary l op r) := by
  intro pieces
  obtain ⟨lspan, hl⟩ := hl pieces
  obtain ⟨rspan, hr⟩ := hr (⟨l, lspan⟩ :: pieces)
  refine ⟨lspan.cover rspan, ?_⟩
  rw [build_append, hl]
  change build (⟨l, lspan⟩ :: pieces) (rs ++ [.operator op token]) = _
  rw [build_append, hr]
  rfl

/-! ### What the yard does with a derivation -/

/-- Behind anything that does not give way to operators of `level`, the yard sends on a part
of the postfix notation of `e`, and operators that bind at least as tightly as `level` stay
behind: the rest of that notation. -/
def Shunts (level : Nat) (tokens : List Token) (e : Expr) : Prop :=
  ∀ stack : List Entry, Settled level stack → ∃ (sent : List Output) (ps : Pending),
    tokens.foldlM step stack = ⟨sent, .ok (ps.entries ++ stack)⟩ ∧
      (∀ p ∈ ps, level ≤ p.1.fixity.precedence) ∧ Denotes (sent ++ ps.outputs) e

theorem Shunts.mono {m n : Nat} {tokens : List Token} {e : Expr} (hmn : m ≤ n)
    (h : Shunts n tokens e) : Shunts m tokens e := by
  intro stack hstack
  obtain ⟨sent, ps, hrun, hps, he⟩ := h stack (hstack.mono hmn)
  exact ⟨sent, ps, hrun, fun p hp => Nat.le_trans hmn (hps p hp), he⟩

theorem shunts_operand {t : Token} (ht : t.role = .operand) (level : Nat) :
    Shunts level [t] (.operand t.text) := by
  intro stack _
  refine ⟨[.operand t], [], ?_, by simp, denotes_operand t⟩
  rw [List.foldlM_cons, step, ht]
  rfl

/-- A parenthesis hides the operators inside: nothing of them stays behind. -/
theorem Shunts.group {m level : Nat} {opened closed : Token} {tokens : List Token} {e : Expr}
    (ho : opened.role = .opening) (h : Shunts m tokens e) (hc : closed.role = .closing) :
    Shunts level (opened :: (tokens ++ [closed])) e := by
  intro stack _
  -- the parenthesis settles the stack for the operators inside, whatever is below
  obtain ⟨sent, ps, hrun, -, he⟩ := h (.opening opened :: stack) trivial
  refine ⟨sent ++ ps.outputs, [], ?_, by simp, by simpa [Pending.outputs] using he⟩
  have hopen : step stack opened = pure (.opening opened :: stack) := by
    rw [step, ho]
  have hclose : step (ps.entries ++ .opening opened :: stack) closed =
      ⟨ps.outputs, .ok stack⟩ := by
    rw [step, hc]
    exact close_entries_opening ps closed opened stack
  rw [List.foldlM_cons, hopen, pure_bind, List.foldlM_append, hrun, Traced.mk_ok_bind,
    List.foldlM_cons, hclose]
  simp [Pending.entries]

/-- An operator makes its left side give way and keeps back what is on its right, which binds
more tightly. -/
theorem Shunts.binary {level : Nat} {t : Token} {op : Operator} {ls rs : List Token}
    {l r : Expr} (hop : op.fixity.precedence = level) (hl : Shunts level ls l)
    (ht : t.role = .operator op) (hr : Shunts (level + 1) rs r) :
    Shunts level (ls ++ t :: rs) (.binary l op r) := by
  subst hop
  intro stack hstack
  obtain ⟨lsent, lps, hlrun, hlps, hle⟩ := hl stack hstack
  -- the right side is shunted behind the operator itself, which waits below its operators
  obtain ⟨rsent, rps, hrrun, hrps, hre⟩ :=
    hr (.operator op t :: stack) (Nat.lt_succ_self _)
  -- all that waits of the left side gives way, and nothing of what waited before
  have hstep : step (lps.entries ++ stack) t =
      ⟨lps.outputs, .ok (.operator op t :: stack)⟩ := by
    rw [step, ht]
    change unwind _ _ >>= _ = _
    rw [unwind_pending hstack lps hlps, Traced.mk_ok_bind]
    simp
  refine ⟨lsent ++ (lps.outputs ++ rsent), rps ++ [(op, t)], ?_, ?_, ?_⟩
  · rw [List.foldlM_append, hlrun, Traced.mk_ok_bind, List.foldlM_cons, hstep,
      Traced.mk_ok_bind, hrrun]
    simp [Pending.entries]
  · intro p hp
    rcases List.mem_append.mp hp with hp | hp
    · exact Nat.le_of_succ_le (hrps p hp)
    · obtain rfl := List.mem_singleton.mp hp
      exact Nat.le_refl _
  · have := hle.binary hre op t
    simpa [Pending.outputs] using this

/-- **The yard turns a derivation into the postfix notation of its tree.**  Induction on the
derivation; a production of an operator keeps the level of its nonterminal, and every other
step only forgets how tightly the operators bind. -/
theorem Derives.shunts {nt : Nonterminal} {tokens : List Token} {e : Expr}
    (h : Derives nt tokens e) : Shunts nt.level tokens e := by
  induction h with
  | operand ht => exact shunts_operand ht 4
  | group ho _ hc ih => exact ih.group ho hc
  | ofAtom _ ih => exact ih.mono (by decide)
  | power _ ht _ ihl ihr => exact ihl.binary rfl ht ihr
  | ofPower _ ih => exact ih.mono (by decide)
  | product hop _ ht _ ihl ihr =>
    rcases hop with rfl | rfl
    · exact ihl.binary rfl ht ihr
    · exact ihl.binary rfl ht ihr
  | ofProduct _ ih => exact ih.mono (by decide)
  | sum hop _ ht _ ihl ihr =>
    rcases hop with rfl | rfl
    · exact ihl.binary rfl ht ihr
    · exact ihl.binary rfl ht ihr

/-- The two phases leave the tree of a derivation and nothing else. -/
theorem Derives.fuse_run {tokens : List Token} {e : Expr} (h : Derives .sum tokens e) :
    ∃ span, fuse [] (run tokens) = .ok ([⟨e, span⟩], ()) := by
  obtain ⟨sent, ps, hrun, -, he⟩ := h.shunts [] trivial
  obtain ⟨span, hbuild⟩ := he []
  refine ⟨span, ?_⟩
  rw [run, hrun, Traced.mk_ok_bind, List.append_nil, finish_entries, fuse, hbuild]
  rfl

/-- **Every sentence of the grammar is assembled, into the tree of its derivation.** -/
theorem ofTokens_of_derives {tokens : List Token} {e : Expr} (h : Derives .sum tokens e) :
    Expr.ofTokens tokens = .ok e := by
  exact Expr.ofTokens_eq_ok_iff.mpr h.fuse_run

/-- Powers group to the left, and redundant parentheses leave no trace. -/
theorem ofTokens_of_derives_powers :
    let tokens := ["8", "-", "(", "(", "2", ")", ")", "^", "3", "^", "2", "*", "x"].map
      Token.unplaced
    let e : Expr := .binary (.operand "8") .subtract
      (.binary (.binary (.binary (.operand "2") .power (.operand "3")) .power (.operand "2"))
        .multiply (.operand "x"))
    Derives .sum tokens e ∧ Expr.ofTokens tokens = .ok e := by
  intro tokens e
  have two : Derives .atom [Token.unplaced "2"] (.operand "2") := .operand rfl
  have grouped := @Derives.group (.unplaced "(") (.unplaced ")") _ _ rfl
    (.ofProduct (.ofPower (.ofAtom two))) rfl
  have groupedTwice := @Derives.group (.unplaced "(") (.unplaced ")") _ _ rfl
    (.ofProduct (.ofPower (.ofAtom grouped))) rfl
  have three : Derives .atom [Token.unplaced "3"] (.operand "3") := .operand rfl
  have cubed := Derives.power (t := .unplaced "^") (.ofAtom groupedTwice) rfl three
  have squared := Derives.power (t := .unplaced "^") cubed rfl two
  have x : Derives .atom [Token.unplaced "x"] (.operand "x") := .operand rfl
  have scaled := Derives.product (t := .unplaced "*") (.inl rfl) (.ofPower squared) rfl
    (.ofAtom x)
  have eight : Derives .atom [Token.unplaced "8"] (.operand "8") := .operand rfl
  have h : Derives .sum tokens e := Derives.sum (t := .unplaced "-") (.inr rfl)
    (.ofProduct (.ofPower (.ofAtom eight))) rfl scaled
  exact ⟨h, ofTokens_of_derives h⟩

end Reckon.Grammar
