import Mathlib.Data.List.Chain
import Reckon.Proofs.Grammar.Derivation
import Reckon.Proofs.Yard.Counting

/-!
# Infix sentences

The grammar `E ::= operand | ( E ) | E op E` says which rows of tokens are infix expressions at
all, without saying how they group.  The assembly keeps no account of what it expects next,
an operand or an operator.  It counts: every operator must find two pieces when it is applied,
and one piece must be left.  So it also takes operators behind their operands, such as
`2 3 +`, and parentheses around nothing, such as `a ( )`.

What it misses is one thing only, two values side by side.  A row in which no value directly
follows another is a sentence as soon as its parentheses match and it has one operand more
than operators.

## Main definitions

* `Grammar.Sentence` — the sentences of the grammar.
* `Grammar.Separated` — no value directly follows another.
* `Grammar.Lead`, `Grammar.Scopes` — what stands to the left of a value inside a sentence.
* `Grammar.Completes before tokens` — what stands to the right.

## Main results

* `Grammar.Sentence.exists_derives` — the grammar with levels has the same sentences.
* `Grammar.completes_of_scopes` — what stands to the right of separated values.
* `Grammar.sentence_of_separated` — which rows of separated values are sentences.
* `Grammar.sentence_iff` — **the sentences are the accepted rows of separated values**.
-/

namespace Reckon.Grammar

open Yard

/-- The infix expressions, whichever way they group. -/
inductive Sentence : List Token → Prop where
  | operand {t : Token} (ht : t.role = .operand) : Sentence [t]
  | group {opened closed : Token} {tokens : List Token} (ho : opened.role = .opening)
      (h : Sentence tokens) (hc : closed.role = .closing) :
      Sentence (opened :: (tokens ++ [closed]))
  | binary {t : Token} {op : Operator} {ls rs : List Token} (hl : Sentence ls)
      (ht : t.role = .operator op) (hr : Sentence rs) : Sentence (ls ++ t :: rs)

/-! ### The grammar with levels has the same sentences -/

/-- A product may be continued by any operator that binds at least as tightly. -/
theorem Derives.product_snoc {t : Token} {op : Operator} {ls rs : List Token} {l r : Expr}
    (hl : Derives .product ls l) (hop : 2 ≤ op.fixity.precedence)
    (ht : t.role = .operator op) (hr : Derives .atom rs r) :
    ∃ e, Derives .product (ls ++ t :: rs) e := by
  cases op with
  | add => exact absurd hop (by decide)
  | subtract => exact absurd hop (by decide)
  | multiply => exact ⟨_, .product (.inl rfl) hl ht (.ofAtom hr)⟩
  | divide => exact ⟨_, .product (.inr rfl) hl ht (.ofAtom hr)⟩
  | power =>
    -- a power takes the last factor of the product, not the whole of it
    cases hl with
    | ofPower hl => exact ⟨_, .ofPower (.power hl ht hr)⟩
    | product hop' hl' ht' hr' =>
      rw [List.append_assoc, List.cons_append]
      exact ⟨_, .product hop' hl' ht' (.power hr' ht hr)⟩

/-- A sum may be continued by any operator. -/
theorem Derives.sum_snoc {t : Token} {op : Operator} {ls rs : List Token} {l r : Expr}
    (hl : Derives .sum ls l) (ht : t.role = .operator op) (hr : Derives .atom rs r) :
    ∃ e, Derives .sum (ls ++ t :: rs) e := by
  rcases Nat.lt_or_ge op.fixity.precedence 2 with hop | hop
  · have hop' : op = .add ∨ op = .subtract := by
      revert hop
      cases op <;> decide
    exact ⟨_, .sum hop' hl ht (.ofPower (.ofAtom hr))⟩
  · -- an operator that binds more tightly continues the last product of the sum
    cases hl with
    | ofProduct hl =>
      obtain ⟨e, he⟩ := hl.product_snoc hop ht hr
      exact ⟨e, .ofProduct he⟩
    | sum hop' hl' ht' hr' =>
      obtain ⟨e, he⟩ := hr'.product_snoc hop ht hr
      rw [List.append_assoc, List.cons_append]
      exact ⟨_, .sum hop' hl' ht' he⟩

/-- Tokens that are a sum, and that may also follow a sum and an operator. -/
def Fits (tokens : List Token) : Prop :=
  (∃ e, Derives .sum tokens e) ∧
    ∀ (ls : List Token) (l : Expr) (t : Token) (op : Operator), Derives .sum ls l →
      t.role = .operator op → ∃ e, Derives .sum (ls ++ t :: tokens) e

theorem Derives.fits {tokens : List Token} {e : Expr} (h : Derives .atom tokens e) :
    Fits tokens :=
  ⟨⟨e, .ofProduct (.ofPower (.ofAtom h))⟩, fun _ _ _ _ hl ht => hl.sum_snoc ht h⟩

/-- A sentence may be split at any of its operators, not only at the one that binds last, so
the induction hands the left side over and continues it with the right one. -/
theorem Sentence.fits {tokens : List Token} (h : Sentence tokens) : Fits tokens := by
  induction h with
  | operand ht => exact (Derives.operand ht).fits
  | group ho _ hc ih =>
    obtain ⟨⟨e, he⟩, -⟩ := ih
    exact (Derives.group ho he hc).fits
  | binary _ ht _ ihl ihr =>
    obtain ⟨⟨l, hl⟩, hlfollows⟩ := ihl
    refine ⟨ihr.2 _ l _ _ hl ht, fun before b t op hb ht' => ?_⟩
    -- behind another sum, the left side continues that, and the right side the result
    obtain ⟨e, he⟩ := hlfollows before b t op hb ht'
    have := ihr.2 _ e _ _ he ht
    rwa [List.append_assoc, List.cons_append] at this

/-- **Every sentence has a derivation.** -/
theorem Sentence.exists_derives {tokens : List Token} (h : Sentence tokens) :
    ∃ e, Derives .sum tokens e := h.fits.1

/-! ### Separated values -/

/-- A value may start with this token. -/
def startsValue (t : Token) : Prop := t.role = .operand ∨ t.role = .opening

/-- A value may end with this token. -/
def endsValue (t : Token) : Prop := t.role = .operand ∨ t.role = .closing

theorem not_startsValue_of_operator {t : Token} {op : Operator}
    (ht : t.role = .operator op) : ¬startsValue t := by
  simp [startsValue, ht]

theorem not_endsValue_of_operator {t : Token} {op : Operator}
    (ht : t.role = .operator op) : ¬endsValue t := by
  simp [endsValue, ht]

theorem not_startsValue_of_closing {t : Token} (ht : t.role = .closing) :
    ¬startsValue t := by
  simp [startsValue, ht]

theorem not_endsValue_of_opening {t : Token} (ht : t.role = .opening) : ¬endsValue t := by
  simp [endsValue, ht]

/-- No value directly follows another. -/
def Separated (tokens : List Token) : Prop :=
  tokens.IsChain fun a b => ¬(endsValue a ∧ startsValue b)

theorem separated_cons {t : Token} {ts : List Token} :
    Separated (t :: ts) ↔
      (∀ b ∈ ts.head?, ¬(endsValue t ∧ startsValue b)) ∧ Separated ts :=
  List.isChain_cons

theorem Sentence.separated {tokens : List Token} (h : Sentence tokens) :
    Separated tokens := by
  induction h with
  | operand _ => exact List.isChain_singleton _
  | @group opened closed tokens ho _ hc ih =>
    have htail : Separated (tokens ++ [closed]) :=
      List.isChain_append.mpr ⟨ih, List.isChain_singleton _, fun _ _ b hb hab =>
        not_startsValue_of_closing hc (Option.mem_some.mp hb ▸ hab.2)⟩
    exact separated_cons.mpr ⟨fun _ _ hab => not_endsValue_of_opening ho hab.1, htail⟩
  | @binary t op ls rs _ ht _ ihl ihr =>
    have htail : Separated (t :: rs) :=
      separated_cons.mpr ⟨fun _ _ hab => not_endsValue_of_operator ht hab.1, ihr⟩
    exact List.isChain_append.mpr ⟨ihl, htail, fun _ _ b hb hab =>
      not_startsValue_of_operator ht (Option.mem_some.mp hb ▸ hab.2)⟩

/-- Separated values cannot pile up: there is at most one operand more than operators, and
none more if no value stands in front. -/
theorem surplus_le_of_separated : ∀ {tokens : List Token}, Separated tokens →
    surplus tokens ≤ 1 ∧ ((∀ t ∈ tokens.head?, ¬startsValue t) → surplus tokens ≤ 0) := by
  intro tokens
  induction tokens with
  | nil => exact fun _ => ⟨by simp, fun _ => by simp⟩
  | cons t ts ih =>
    intro h
    obtain ⟨hhead, hts⟩ := separated_cons.mp h
    obtain ⟨hle, hle'⟩ := ih hts
    rw [surplus_cons]
    cases ht : t.role with
    | operand =>
      have hzero := hle' fun b hb hs => hhead b hb ⟨.inl ht, hs⟩
      rw [Token.weight_operand ht]
      exact ⟨by omega, fun hn => absurd (.inl ht) (hn t rfl)⟩
    | opening =>
      rw [Token.weight_opening ht]
      exact ⟨by omega, fun hn => absurd (.inr ht) (hn t rfl)⟩
    | closing =>
      have hzero := hle' fun b hb hs => hhead b hb ⟨.inr ht, hs⟩
      rw [Token.weight_closing ht]
      exact ⟨by omega, fun _ => by omega⟩
    | operator op =>
      rw [Token.weight_operator ht]
      exact ⟨by omega, fun _ => by omega⟩

/-! ### Reading a row of separated values -/

/-- What may stand before a value between two parentheses: nothing, or a sentence and an
operator. -/
inductive Lead : List Token → Prop where
  | nil : Lead []
  | operator {t : Token} {op : Operator} {tokens : List Token} (h : Sentence tokens)
      (ht : t.role = .operator op) : Lead (tokens ++ [t])

theorem Lead.sentence {lead tokens : List Token} (hl : Lead lead) (h : Sentence tokens) :
    Sentence (lead ++ tokens) := by
  cases hl with
  | nil => exact h
  | operator hl ht =>
    rw [List.append_assoc]
    exact .binary hl ht h

/-- What may stand before a value behind `depth` open parentheses, up to the last of them. -/
inductive Scopes : Nat → List Token → Prop where
  | nil : Scopes 0 []
  | opening {depth : Nat} {before lead : List Token} {t : Token} (h : Scopes depth before)
      (hl : Lead lead) (ht : t.role = .opening) : Scopes (depth + 1) (before ++ lead ++ [t])

/-- What the rest of a row must do behind `before`: it completes a sentence if a value is
awaited and it has one operand more than operators, and also if a value was just read and it
has as many operands as operators. -/
structure Completes (before tokens : List Token) : Prop where
  awaited : ∀ lead, Lead lead → surplus tokens = 1 → Sentence (before ++ lead ++ tokens)
  read : ∀ value, Sentence value → (∀ t ∈ tokens.head?, ¬startsValue t) →
    surplus tokens = 0 → Sentence (before ++ value ++ tokens)

theorem Completes.operand {before ts : List Token} {t : Token} (ht : t.role = .operand)
    (hnext : ∀ b ∈ ts.head?, ¬startsValue b) (h : Completes before ts) :
    Completes before (t :: ts) := by
  refine ⟨fun lead hlead hone => ?_, fun _ _ hn _ => absurd (.inl ht) (hn t rfl)⟩
  rw [surplus_cons, Token.weight_operand ht] at hone
  have hvalue : Sentence (lead ++ [t]) := hlead.sentence (.operand ht)
  have := h.read _ hvalue hnext (by omega)
  simpa using this

theorem Completes.opening {before ts : List Token} {t : Token} (ht : t.role = .opening)
    (h : ∀ lead, Lead lead → Completes (before ++ lead ++ [t]) ts) :
    Completes before (t :: ts) := by
  refine ⟨fun lead hlead hone => ?_, fun _ _ hn _ => absurd (.inr ht) (hn t rfl)⟩
  rw [surplus_cons, Token.weight_opening ht] at hone
  have := (h lead hlead).awaited [] .nil (by omega)
  simpa using this

/-- A closing parenthesis turns the value that was read into a group, which is the value that
the lead in front of it waited for. -/
theorem Completes.closing {before lead ts : List Token} {opened t : Token}
    (hlead : Lead lead) (ho : opened.role = .opening) (ht : t.role = .closing)
    (hnext : ∀ b ∈ ts.head?, ¬startsValue b) (hsurplus : surplus ts ≤ 0)
    (h : Completes before ts) : Completes (before ++ lead ++ [opened]) (t :: ts) := by
  refine ⟨fun _ _ hone => ?_, fun value hvalue _ hzero => ?_⟩
  · -- no value is awaited in front of a closing parenthesis: the count would not come out
    rw [surplus_cons, Token.weight_closing ht] at hone
    omega
  · rw [surplus_cons, Token.weight_closing ht] at hzero
    have hgroup : Sentence (lead ++ opened :: (value ++ [t])) :=
      hlead.sentence (.group ho hvalue ht)
    have := h.read _ hgroup hnext (by omega)
    simpa using this

theorem Completes.operator {before ts : List Token} {t : Token} {op : Operator}
    (ht : t.role = .operator op) (hsurplus : surplus ts ≤ 1) (h : Completes before ts) :
    Completes before (t :: ts) := by
  refine ⟨fun _ _ hone => ?_, fun value hvalue _ hzero => ?_⟩
  · -- nor in front of an operator
    rw [surplus_cons, Token.weight_operator ht] at hone
    omega
  · rw [surplus_cons, Token.weight_operator ht] at hzero
    have := h.awaited _ (.operator hvalue ht) (by omega)
    simpa using this

/-- **Separated values are read from left to right without a choice.**  The count decides
what comes next: one operand more than operators means that a value is awaited, as many
operands as operators that one was just read. -/
theorem completes_of_scopes : ∀ (tokens : List Token) (depth : Nat) (before : List Token),
    Scopes depth before → Balanced depth tokens → Separated tokens →
      Completes before tokens := by
  intro tokens
  induction tokens with
  | nil =>
    intro depth before hscopes hbalanced _
    refine ⟨fun _ _ h => absurd h (by decide), fun value hvalue _ _ => ?_⟩
    cases hscopes with
    | nil => simpa using hvalue
    | opening _ _ _ => cases hbalanced
  | cons t ts ih =>
    intro depth before hscopes hbalanced hseparated
    obtain ⟨hhead, hts⟩ := separated_cons.mp hseparated
    obtain ⟨hle, hle'⟩ := surplus_le_of_separated hts
    cases ht : t.role with
    | operand =>
      rw [balanced_operand ht] at hbalanced
      have hnext : ∀ b ∈ ts.head?, ¬startsValue b := fun b hb hs => hhead b hb ⟨.inl ht, hs⟩
      exact .operand ht hnext (ih depth before hscopes hbalanced hts)
    | opening =>
      rw [balanced_opening ht] at hbalanced
      exact .opening ht fun lead hlead =>
        ih (depth + 1) _ (.opening hscopes hlead ht) hbalanced hts
    | closing =>
      obtain ⟨hpos, hbalanced⟩ := (balanced_closing ht depth ts).mp hbalanced
      have hnext : ∀ b ∈ ts.head?, ¬startsValue b := fun b hb hs => hhead b hb ⟨.inr ht, hs⟩
      cases hscopes with
      | nil => exact absurd hpos (Nat.lt_irrefl 0)
      | @opening depth before lead opened hscopes hlead ho =>
        -- the scope is left, and the tokens behind it go on in the one around it
        exact .closing hlead ho ht hnext (hle' hnext) (ih depth before hscopes hbalanced hts)
    | operator op =>
      rw [balanced_operator ht] at hbalanced
      exact .operator ht hle (ih depth before hscopes hbalanced hts)

/-- Which rows of separated values are sentences. -/
theorem sentence_of_separated {tokens : List Token} (hbalanced : Balanced 0 tokens)
    (hsurplus : surplus tokens = 1) (hseparated : Separated tokens) : Sentence tokens :=
  (completes_of_scopes tokens 0 [] .nil hbalanced hseparated).awaited [] .nil hsurplus

/-- **The infix expressions are the accepted rows of tokens in which no value directly follows
another.** -/
theorem sentence_iff (tokens : List Token) :
    Sentence tokens ↔ (∃ e, Expr.ofTokens tokens = .ok e) ∧ Separated tokens := by
  constructor
  · intro h
    obtain ⟨e, he⟩ := h.exists_derives
    exact ⟨⟨e, Expr.ofTokens_eq_ok_iff.mpr he.fuse_run⟩, h.separated⟩
  · rintro ⟨⟨e, he⟩, hseparated⟩
    obtain ⟨hbalanced, hsurplus⟩ := balanced_and_surplus_of_ofTokens he
    exact sentence_of_separated hbalanced hsurplus hseparated

/-- Operands in front of their operator are accepted and are no infix expression. -/
theorem not_sentence_of_ofTokens_operands_first :
    let tokens : List Token := [⟨"2", ⟨0, 1⟩⟩, ⟨"3", ⟨2, 3⟩⟩, ⟨"+", ⟨4, 5⟩⟩]
    Expr.ofTokens tokens = .ok (.binary (.operand "2") .add (.operand "3")) ∧
      ¬Sentence tokens := by
  intro tokens
  refine ⟨rfl, fun h => ?_⟩
  have hadjacent := (separated_cons.mp h.separated).1 ⟨"3", ⟨2, 3⟩⟩ rfl
  exact hadjacent ⟨.inl rfl, .inl rfl⟩

end Reckon.Grammar
