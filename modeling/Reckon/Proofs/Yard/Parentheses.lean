import Mathlib.Data.List.Infix
import Reckon.Proofs.Yard.Reached

/-!
# Which parenthesis stops the yard

Whether the yard comes to its end depends on the parentheses alone, and they can be told by
counting.  The stack holds the parentheses that are still open; what stands behind each of them
matches up, and so does what stands before the first.  This picture of a row is kept by every
step, and it says which parenthesis is to blame when there is one.

## Main definitions

* `Token.Overclosed tokens` — some beginning of the row has more closing parentheses than
  opening ones.
* `Token.Matched tokens` — the parentheses of the row match.
* `Token.IsClosed after` — an opening parenthesis with `after` behind it is closed.
* `Token.FirstUnmatched`, `Token.LastUnclosed` — the parenthesis that is to blame.
* `Yard.Scoped tokens opened` — the picture of a row in which `opened` are still open.
* `Yard.Verdict tokens` — how the yard ends, as the parentheses have it.

## Main results

* `Token.isClosed_iff` — a parenthesis is closed when the closing ones outnumber the opening ones
  in some beginning of what follows it.
* `Yard.Reached.scoped` — what the stack says of the tokens that were taken.
* `Yard.verdict_run` — **the parentheses alone decide how the yard ends**.
-/

namespace Reckon

namespace Token

/-! ### Counting parentheses -/

/-- The number of opening parentheses in a row of tokens. -/
def openings (tokens : List Token) : Nat := tokens.countP fun t => t.role = .opening

/-- The number of closing parentheses in a row of tokens. -/
def closings (tokens : List Token) : Nat := tokens.countP fun t => t.role = .closing

@[simp] theorem openings_nil : openings [] = 0 := rfl

@[simp] theorem closings_nil : closings [] = 0 := rfl

@[simp] theorem openings_append (as bs : List Token) :
    openings (as ++ bs) = openings as + openings bs := List.countP_append

@[simp] theorem closings_append (as bs : List Token) :
    closings (as ++ bs) = closings as + closings bs := List.countP_append

theorem openings_opening {t : Token} (ht : t.role = .opening) (ts : List Token) :
    openings (t :: ts) = openings ts + 1 := List.countP_cons_of_pos (by simp [ht])

theorem closings_closing {t : Token} (ht : t.role = .closing) (ts : List Token) :
    closings (t :: ts) = closings ts + 1 := List.countP_cons_of_pos (by simp [ht])

theorem openings_of_ne {t : Token} (ht : t.role ≠ .opening) (ts : List Token) :
    openings (t :: ts) = openings ts := List.countP_cons_of_neg (by simp [ht])

theorem closings_of_ne {t : Token} (ht : t.role ≠ .closing) (ts : List Token) :
    closings (t :: ts) = closings ts := List.countP_cons_of_neg (by simp [ht])

theorem closings_opening {t : Token} (ht : t.role = .opening) (ts : List Token) :
    closings (t :: ts) = closings ts := closings_of_ne (by simp [ht]) ts

theorem openings_closing {t : Token} (ht : t.role = .closing) (ts : List Token) :
    openings (t :: ts) = openings ts := openings_of_ne (by simp [ht]) ts

/-- Some beginning of the row has more closing parentheses than opening ones. -/
def Overclosed (tokens : List Token) : Prop :=
  ∃ front, front <+: tokens ∧ openings front < closings front

/-- The parentheses of the row match: no closing one comes too early, and there are as many of
one kind as of the other. -/
structure Matched (tokens : List Token) : Prop where
  not_overclosed : ¬Overclosed tokens
  openings_eq : openings tokens = closings tokens

variable {as bs tokens inner after : List Token} {t : Token}

theorem not_overclosed_iff :
    ¬Overclosed tokens ↔ ∀ front, front <+: tokens → closings front ≤ openings front := by
  simp only [Overclosed, not_exists, not_and, Nat.not_lt]

theorem not_overclosed_append (ha : ¬Overclosed as) (hb : ¬Overclosed bs) :
    ¬Overclosed (as ++ bs) := by
  rw [not_overclosed_iff] at ha hb ⊢
  intro front hfront
  rcases List.prefix_or_prefix_of_prefix hfront (List.prefix_append as bs) with h | ⟨more, rfl⟩
  · exact ha front h
  · have := ha as List.prefix_rfl
    have := hb more ((List.prefix_append_right_inj as).mp hfront)
    rw [openings_append, closings_append]
    omega

theorem not_overclosed_singleton (ht : t.role ≠ .closing) : ¬Overclosed [t] := by
  rw [not_overclosed_iff]
  intro front hfront
  rcases List.prefix_cons_iff.mp hfront with rfl | ⟨more, rfl, hmore⟩
  · exact Nat.le_refl _
  · rw [List.prefix_nil.mp hmore, closings_of_ne ht]
    exact Nat.zero_le _

theorem matched_nil : Matched [] :=
  ⟨not_overclosed_iff.mpr fun front h => by rw [List.prefix_nil.mp h]; rfl, rfl⟩

theorem matched_singleton (ho : t.role ≠ .opening) (hc : t.role ≠ .closing) : Matched [t] :=
  ⟨not_overclosed_singleton hc, by rw [openings_of_ne ho, closings_of_ne hc]; rfl⟩

theorem Matched.append (ha : Matched as) (hb : Matched bs) : Matched (as ++ bs) := by
  refine ⟨not_overclosed_append ha.not_overclosed hb.not_overclosed, ?_⟩
  rw [openings_append, closings_append, ha.openings_eq, hb.openings_eq]

theorem Matched.group {opened closed : Token} (ho : opened.role = .opening) (h : Matched inner)
    (hc : closed.role = .closing) : Matched (opened :: inner ++ [closed]) := by
  have hopened : ¬Overclosed ([opened] ++ inner) :=
    not_overclosed_append (not_overclosed_singleton (by simp [ho])) h.not_overclosed
  have htotal :
      openings (opened :: inner ++ [closed]) = closings (opened :: inner ++ [closed]) := by
    rw [openings_append, closings_append, openings_opening ho, closings_opening ho,
      openings_closing hc, closings_closing hc, h.openings_eq]
    rfl
  refine ⟨not_overclosed_iff.mpr fun front hfront => ?_, htotal⟩
  rcases List.prefix_concat_iff.mp hfront with rfl | hfront
  · exact Nat.le_of_eq htotal.symm
  · exact not_overclosed_iff.mp hopened front hfront

/-! ### Closed and unclosed parentheses -/

/-- An opening parenthesis with `after` behind it is closed: a closing one comes, and what stands
between the two matches. -/
def IsClosed (after : List Token) : Prop :=
  ∃ inner closer rest, after = inner ++ closer :: rest ∧ closer.role = .closing ∧ Matched inner

/-- The first closing parenthesis that is one too many is the one that closes. -/
theorem isClosed_iff : IsClosed after ↔ Overclosed after := by
  constructor
  · rintro ⟨inner, closer, rest, rfl, hc, h⟩
    refine ⟨inner ++ [closer], ⟨rest, by simp⟩, ?_⟩
    rw [openings_append, closings_append, openings_closing hc, closings_closing hc, h.openings_eq]
    exact Nat.lt_succ_self _
  · induction after using List.reverseRecOn with
    | nil => exact fun h => absurd h matched_nil.not_overclosed
    | append_singleton front t ih =>
      rintro ⟨most, hmost, hlt⟩
      by_cases hfront : Overclosed front
      · obtain ⟨inner, closer, rest, rfl, hc, h⟩ := ih hfront
        exact ⟨inner, closer, rest ++ [t], by simp, hc, h⟩
      · -- then the last token makes the closing parentheses one too many
        have hle := not_overclosed_iff.mp hfront
        rcases List.prefix_concat_iff.mp hmost with rfl | hmost
        · have hfrontle := hle front List.prefix_rfl
          rw [openings_append, closings_append] at hlt
          by_cases ht : t.role = .closing
          · rw [openings_closing ht, closings_closing ht, openings_nil, closings_nil] at hlt
            exact ⟨front, t, [], rfl, ht, hfront, by omega⟩
          · rw [closings_of_ne ht, closings_nil] at hlt
            omega
        · exact absurd (hle most hmost) (Nat.not_le.mpr hlt)

/-- `t` is the first closing parenthesis of the row with which the closing ones outnumber the
opening ones. -/
def FirstUnmatched (tokens : List Token) (t : Token) : Prop :=
  ∃ before after, tokens = before ++ t :: after ∧ t.role = .closing ∧ ¬Overclosed before ∧
    openings (before ++ [t]) < closings (before ++ [t])

/-- `t` is the last opening parenthesis of the row that is never closed. -/
def LastUnclosed (tokens : List Token) (t : Token) : Prop :=
  ∃ before after, tokens = before ++ t :: after ∧ t.role = .opening ∧ ¬IsClosed after ∧
    ∀ front u rest, after = front ++ u :: rest → u.role = .opening → IsClosed rest

theorem FirstUnmatched.overclosed (h : FirstUnmatched tokens t) : Overclosed tokens := by
  obtain ⟨before, after, rfl, -, -, hlt⟩ := h
  exact ⟨before ++ [t], ⟨after, by simp⟩, hlt⟩

/-- Every opening parenthesis of a row that matches is closed. -/
theorem Matched.isClosed {front rest : List Token} (h : Matched (front ++ t :: rest))
    (ht : t.role = .opening) : IsClosed rest := by
  have hfront := not_overclosed_iff.mp h.not_overclosed front (List.prefix_append _ _)
  have htotal := h.openings_eq
  rw [openings_append, closings_append, openings_opening ht, closings_opening ht] at htotal
  refine isClosed_iff.mpr ⟨rest, List.prefix_rfl, ?_⟩
  omega

end Token

namespace Yard

open Token (Overclosed Matched IsClosed FirstUnmatched LastUnclosed)

/-! ### The picture of a row -/

/-- The row up to the first parenthesis that is still open matches, and so does what follows each
of those that are.  `opened` lists them, the last one first. -/
inductive Scoped : List Token → List Token → Prop where
  | matched {tokens : List Token} (h : Matched tokens) : Scoped tokens []
  | opening {before inner opened : List Token} {t : Token} (h : Scoped before opened)
      (ht : t.role = .opening) (hi : Matched inner) : Scoped (before ++ t :: inner) (t :: opened)

variable {tokens opened : List Token}

theorem Scoped.append {group : List Token} (h : Scoped tokens opened) (hg : Matched group) :
    Scoped (tokens ++ group) opened := by
  cases h with
  | matched h => exact .matched (h.append hg)
  | opening h ht hi =>
    rw [List.append_assoc, List.cons_append]
    exact .opening h ht (hi.append hg)

theorem Scoped.not_overclosed (h : Scoped tokens opened) : ¬Overclosed tokens := by
  induction h with
  | matched h => exact h.not_overclosed
  | @opening before inner opened t _ ht hi ih =>
    have hinner : ¬Overclosed ([t] ++ inner) :=
      Token.not_overclosed_append (Token.not_overclosed_singleton (by simp [ht]))
        hi.not_overclosed
    exact Token.not_overclosed_append ih hinner

theorem Scoped.openings_eq (h : Scoped tokens opened) :
    Token.openings tokens = Token.closings tokens + opened.length := by
  induction h with
  | matched h => exact h.openings_eq
  | opening _ ht hi ih =>
    rw [Token.openings_append, Token.closings_append, Token.openings_opening ht,
      Token.closings_opening ht, hi.openings_eq, ih, List.length_cons]
    omega

/-- The last parenthesis that is open is the last that is never closed. -/
theorem Scoped.lastUnclosed {t : Token} (h : Scoped tokens (t :: opened)) :
    LastUnclosed tokens t := by
  cases h with
  | @opening before inner _ _ h ht hi =>
    refine ⟨before, inner, rfl, ht, fun hc => hi.not_overclosed (Token.isClosed_iff.mp hc), ?_⟩
    rintro front u rest rfl hu
    exact hi.isClosed hu

/-! ### The picture is kept -/

/-- The parenthesis that an entry is. -/
def Entry.paren? : Entry → Option Token
  | .opening paren => some paren
  | .operator _ _ => none

/-- The parentheses that are open, the last one first. -/
def parens (stack : List Entry) : List Token := stack.filterMap Entry.paren?

@[simp] theorem parens_opening (paren : Token) (stack : List Entry) :
    parens (.opening paren :: stack) = paren :: parens stack := rfl

@[simp] theorem parens_entries (ps : Pending) : parens ps.entries = [] := by
  simp [parens, Pending.entries, List.filterMap_map, Entry.paren?, Function.comp_def]

@[simp] theorem parens_entries_append (ps : Pending) (stack : List Entry) :
    parens (ps.entries ++ stack) = parens stack := by
  rw [parens, List.filterMap_append]
  change parens ps.entries ++ parens stack = parens stack
  rw [parens_entries, List.nil_append]

theorem Shift.scoped {token : Token} {stack after : List Entry} {sent : List Output}
    (h : Shift token stack sent after) (hs : Scoped tokens (parens stack)) :
    Scoped (tokens ++ [token]) (parens after) := by
  cases h with
  | operand ht => exact hs.append (Token.matched_singleton (by simp [ht]) (by simp [ht]))
  | opening ht => exact .opening hs ht Token.matched_nil
  | closing ht ps opened =>
    -- the parenthesis that is closed makes a group with what follows it
    rw [parens_entries_append, parens_opening] at hs
    cases hs with
    | opening h ho hi =>
      have hgroup := h.append (Matched.group ho hi ht)
      rwa [← List.append_assoc] at hgroup
  | operator ht ps hps hbase =>
    rw [parens_entries_append] at hs
    exact hs.append (Token.matched_singleton (by simp [ht]) (by simp [ht]))

/-- **The parentheses that wait are those that are open**, in every state from an empty stack. -/
theorem Reached.scoped {sent : List Output} {stack : List Entry}
    (h : Reached [] tokens sent stack) : Scoped tokens (parens stack) := by
  induction h with
  | start => exact .matched Token.matched_nil
  | shift _ hs ih => exact hs.scoped ih

/-- How the yard ends, as the parentheses of the row have it. -/
inductive Verdict (tokens : List Token) : Except SyntaxError Unit → Prop where
  | matched (h : Matched tokens) : Verdict tokens (.ok ())
  | unmatched {t : Token} (h : FirstUnmatched tokens t) :
      Verdict tokens (.error ⟨.group, .unmatchedClosing t⟩)
  | unclosed {t : Token} (hn : ¬Overclosed tokens)
      (hlt : Token.closings tokens < Token.openings tokens) (h : LastUnclosed tokens t) :
      Verdict tokens (.error ⟨.whole, .unclosedOpening t⟩)

/-- **The parentheses alone decide how the yard ends.** -/
theorem verdict_run (tokens : List Token) : Verdict tokens (run tokens).result := by
  have h := ends_run tokens
  generalize run tokens = x at h
  cases h with
  | finished h =>
    have hs := h.scoped
    rw [parens_entries] at hs
    cases hs with
    | matched hm => exact .matched hm
  | unclosed h =>
    have hs := h.scoped
    rw [parens_entries_append, parens_opening] at hs
    refine .unclosed hs.not_overclosed ?_ hs.lastUnclosed
    rw [hs.openings_eq, List.length_cons]
    omega
  | @unmatched before after token _ ps htokens ht h =>
    have hs := h.scoped
    rw [parens_entries] at hs
    cases hs with
    | matched hm =>
      refine .unmatched ⟨before, after, htokens, ht, hm.not_overclosed, ?_⟩
      rw [Token.openings_append, Token.closings_append, Token.openings_closing ht,
        Token.closings_closing ht, hm.openings_eq]
      exact Nat.lt_succ_self _

end Yard

end Reckon
