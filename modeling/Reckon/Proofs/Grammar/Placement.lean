import Reckon.Proofs.Grammar.Malformed
import Reckon.Proofs.Scan.Tokenization
import Reckon.Proofs.Source.Lines

/-!
# Where the error of a text is

What is wrong with a text is told together with a place in it.  The place is that of a token, or
it reaches from one operand to another, and both its ends are boundaries of characters because the
spans of tokens have such ends.  So there is always something to show, and it is on the line that
is shown.

## Main definitions

* `Token.InOrder tokens` — the tokens follow one another, and none is empty.
* `Token.within span tokens` — the operands of a row that lie within a span.
* `Piece.EndOf piece tokens` — the piece holds the last operands of the row, and spans just them.
* `SyntaxError.Origin tokens error` — from where in a row of tokens an error comes.
* `SyntaxError.PointsInto source error` — what the place of an error is in the text.

## Main results

* `SyntaxError.origin_of_ofTokens` — every error comes from somewhere in the row.
* `Yard.endOf_of_leftover` — what the last piece that is left spans.
* `SyntaxError.pointsInto_of_ofTokens` — **every error of a text points at what it tells of**.
-/

namespace Reckon

/-! ### Tokens that follow one another -/

namespace Token

/-- The tokens follow one another, and none is empty. -/
structure InOrder (tokens : List Token) : Prop where
  start_lt : ∀ t ∈ tokens, t.span.start < t.span.stop
  ordered : tokens.Pairwise fun t u => t.span.stop ≤ u.span.start

/-- The operands of a row that lie within a span. -/
def within (span : Span) (tokens : List Token) : List Token :=
  (operands tokens).filter fun t => span.start ≤ t.span.start ∧ t.span.stop ≤ span.stop

variable {tokens own front : List Token} {first final t : Token} {span : Span}

theorem InOrder.sublist (h : InOrder tokens) (hsub : own.Sublist tokens) : InOrder own :=
  ⟨fun t ht => h.start_lt t (hsub.subset ht), h.ordered.sublist hsub⟩

theorem InOrder.start_le (h : InOrder tokens) (hfirst : tokens.head? = some first)
    (ht : t ∈ tokens) : first.span.start ≤ t.span.start := by
  cases tokens with
  | nil => cases ht
  | cons u tokens =>
    cases hfirst
    rcases List.mem_cons.mp ht with rfl | ht
    · exact Nat.le_refl _
    · have hlt := h.start_lt first List.mem_cons_self
      have hle := (List.pairwise_cons.mp h.ordered).1 t ht
      omega

theorem InOrder.le_stop (h : InOrder tokens) (hfinal : tokens.getLast? = some final)
    (ht : t ∈ tokens) : t.span.stop ≤ final.span.stop := by
  obtain ⟨init, rfl⟩ := List.getLast?_eq_some_iff.mp hfinal
  rcases List.mem_append.mp ht with ht | ht
  · have hle := (List.pairwise_append.mp h.ordered).2.2 t ht final (List.mem_singleton_self _)
    have hlt := h.start_lt final (by simp)
    omega
  · rw [List.mem_singleton.mp ht]

/-- The smallest span that holds a row goes from the start of its first token to the end of its
last one. -/
theorem InOrder.isLUB_spans (h : InOrder tokens) (hfirst : tokens.head? = some first)
    (hfinal : tokens.getLast? = some final) :
    IsLUB (spans tokens) ⟨first.span.start, final.span.stop⟩ := by
  constructor
  · rintro _ ⟨t, ht, rfl⟩
    exact ⟨h.start_le hfirst ht, h.le_stop hfinal ht⟩
  · intro bound hbound
    have hstart := hbound ⟨first, List.mem_of_head? hfirst, rfl⟩
    have hstop := hbound ⟨final, List.mem_of_getLast? hfinal, rfl⟩
    exact ⟨hstart.1, hstop.2⟩

/-- The tokens behind some point of a row are those within the span that holds them. -/
theorem InOrder.within_eq (h : InOrder (operands tokens)) (hrow : operands tokens = front ++ own)
    (hne : own ≠ []) (hspan : IsLUB (spans own) span) : within span tokens = own := by
  rw [hrow] at h
  have hin : ∀ t ∈ own, span.start ≤ t.span.start ∧ t.span.stop ≤ span.stop :=
    fun t ht => hspan.1 ⟨t, ht, rfl⟩
  have hout : ∀ t ∈ front, ¬(span.start ≤ t.span.start ∧ t.span.stop ≤ span.stop) := by
    intro t ht hwithin
    -- the span starts with the first token of `own`, and `t` ends before that one
    obtain ⟨first, own, rfl⟩ := List.exists_cons_of_ne_nil hne
    have hown := h.sublist (List.sublist_append_right front (first :: own))
    have heq := hspan.unique (hown.isLUB_spans rfl (List.getLast?_eq_some_getLast hne))
    have hle := (List.pairwise_append.mp h.ordered).2.2 t ht first List.mem_cons_self
    have hlt := h.start_lt t (List.mem_append_left _ ht)
    have hstart : first.span.start ≤ t.span.start := by
      rw [heq] at hwithin
      exact hwithin.1
    omega
  rw [within, hrow, List.filter_append, List.filter_eq_nil_iff.mpr (by simpa using hout),
    List.filter_eq_self.mpr (by simpa using hin), List.nil_append]

end Token

/-! ### The last piece that is left -/

theorem Expr.operands_ne_nil (e : Expr) : e.operands ≠ [] := by
  induction e with
  | operand text => exact List.cons_ne_nil _ _
  | binary lhs op rhs _ ih =>
    rw [operands_binary]
    exact List.append_ne_nil_of_right_ne_nil _ ih

/-- A piece that holds the last operands of a row, from one of them on, and spans just these. -/
structure Piece.EndOf (piece : Piece) (tokens : List Token) : Prop where
  start_eq : ∃ first ∈ Token.operands tokens, piece.span.start = first.span.start
  stop_eq : ∃ final, (Token.operands tokens).getLast? = some final ∧
    piece.span.stop = final.span.stop
  operands : (Token.within piece.span tokens).map Token.text = piece.expr.operands

namespace Yard

variable {tokens : List Token} {pieces below : List Piece} {last : Piece}

/-- All operands of a row are in the pieces that are left. -/
theorem stacked_of_leftover (h : Assembly.leftover tokens = .ok pieces) :
    Stacked pieces (Token.operands tokens) := by
  rw [leftover_eq_fuse] at h
  cases hfuse : fuse [] (run tokens) with
  | error e => rw [hfuse] at h; cases h
  | ok r =>
    rw [hfuse] at h
    cases h
    obtain ⟨hbuild, hresult⟩ := fuse_eq_ok hfuse
    have hstacked := Stacked.nil.build hbuild
    rwa [List.nil_append, ((ends_run tokens).sent_of_ok hresult).1] at hstacked

theorem Stacked.exists_own {row : List Token} (h : Stacked (last :: below) row) :
    ∃ front own, row = front ++ own ∧ last.Of own := by
  cases h with
  | cons _ hlast => exact ⟨_, _, rfl, hlast⟩

/-- **The last of the pieces that are left** holds the operands at the end of the row. -/
theorem endOf_of_leftover (h : Assembly.leftover tokens = .ok (last :: below))
    (horder : Token.InOrder (Token.operands tokens)) : last.EndOf tokens := by
  obtain ⟨front, own, hrow, hlast⟩ := (stacked_of_leftover h).exists_own
  have hne : own ≠ [] := by
    rintro rfl
    exact last.expr.operands_ne_nil hlast.operands
  have hwithin := horder.within_eq hrow hne hlast.span
  have hfinal := List.getLast?_eq_some_getLast hne
  obtain ⟨first, rest, hown⟩ := List.exists_cons_of_ne_nil hne
  have hspan : last.span = ⟨first.span.start, (own.getLast hne).span.stop⟩ := by
    rw [hrow] at horder
    have hsub := horder.sublist (List.sublist_append_right front own)
    exact hlast.span.unique (hsub.isLUB_spans (by rw [hown]; rfl) hfinal)
  refine ⟨⟨first, ?_, by rw [hspan]⟩, ⟨own.getLast hne, ?_, by rw [hspan]⟩, ?_⟩
  · rw [hrow, hown]
    simp
  · rw [hrow, List.getLast?_append_of_ne_nil _ hne, hfinal]
  · rw [hwithin, hlast.operands]

end Yard

/-! ### From where an error comes -/

namespace SyntaxError

open Assembly (leftover)

/-- The errors that a row of tokens can have, each with what it comes from. -/
inductive Origin (tokens : List Token) : SyntaxError → Prop where
  | operator {t : Token} (ht : t ∈ Token.operators tokens) :
      Origin tokens ⟨.application, .missingOperand t⟩
  | closing {t : Token} (ht : t ∈ tokens) (hrole : t.role = .closing) :
      Origin tokens ⟨.group, .unmatchedClosing t⟩
  | opening {t : Token} (ht : t ∈ tokens) (hrole : t.role = .opening) :
      Origin tokens ⟨.whole, .unclosedOpening t⟩
  | nothing : Origin tokens ⟨.whole, .emptyExpression⟩
  | piece {last second : Piece} {below : List Piece}
      (h : leftover tokens = .ok (last :: second :: below)) :
      Origin tokens ⟨.whole, .missingOperator last.span⟩

variable {tokens : List Token} {error : SyntaxError} {phase : Phase} {t : Token} {source : String}

/-- What stops the construction before its end is a token. -/
theorem origin_of_leftover (h : leftover tokens = .error error) : Origin tokens error := by
  rw [Yard.leftover_eq_fuse, Yard.fuse] at h
  cases hbuild : Yard.build [] (Yard.run tokens).trace with
  | error t =>
    rw [hbuild] at h
    cases h
    exact .operator ((Yard.ends_run tokens).mem_operators (Yard.mem_operatorTokens_of_build hbuild))
  | ok pieces =>
    have hverdict := Yard.verdict_run tokens
    rw [hbuild] at h
    cases hresult : (Yard.run tokens).result with
    | ok _ => rw [hresult] at h; cases h
    | error e =>
      rw [hresult] at h hverdict
      cases h
      cases hverdict with
      | unmatched h =>
        obtain ⟨before, after, rfl, hrole, -⟩ := h
        exact .closing (by simp) hrole
      | unclosed _ _ h =>
        obtain ⟨before, after, rfl, hrole, -⟩ := h
        exact .opening (by simp) hrole

/-- **Every error comes from somewhere in the row.** -/
theorem origin_of_ofTokens (h : Expr.ofTokens tokens = .error error) : Origin tokens error := by
  rw [Expr.ofTokens_eq_leftover] at h
  cases hleft : leftover tokens with
  | error e =>
    rw [hleft] at h
    cases h
    exact origin_of_leftover hleft
  | ok pieces =>
    rw [hleft] at h
    match pieces with
    | [] => cases h; exact .nothing
    | [_] => cases h
    | last :: second :: below => cases h; exact .piece hleft

theorem Origin.of_missingOperand (h : Origin tokens ⟨phase, .missingOperand t⟩) :
    t ∈ tokens ∧ ∃ op : Operator, t.text = op.symbol := by
  cases h with
  | operator ht =>
    obtain ⟨hmem, op, hrole⟩ := Token.mem_operators.mp ht
    exact ⟨hmem, op, Token.role_eq_operator_iff.mp hrole⟩

theorem Origin.of_unmatchedClosing (h : Origin tokens ⟨phase, .unmatchedClosing t⟩) :
    t ∈ tokens ∧ t.text = ")" := by
  cases h with
  | closing ht hrole => exact ⟨ht, Token.role_eq_closing_iff.mp hrole⟩

theorem Origin.of_unclosedOpening (h : Origin tokens ⟨phase, .unclosedOpening t⟩) :
    t ∈ tokens ∧ t.text = "(" := by
  cases h with
  | opening ht hrole => exact ⟨ht, Token.role_eq_opening_iff.mp hrole⟩

theorem Origin.of_missingOperator {span : Span} (h : Origin tokens ⟨phase, .missingOperator span⟩) :
    ∃ last second below, leftover tokens = .ok (last :: second :: below) ∧ last.span = span := by
  cases h with
  | piece h => exact ⟨_, _, _, h, rfl⟩

/-! ### The place of an error -/

/-- What the place of an error is in the text. -/
structure PointsInto (source : String) (error : SyntaxError) : Prop where
  /-- Both ends of the place are boundaries of characters. -/
  covers : ∃ piece, error.span.Covers source.toList piece
  start_le : error.span.start ≤ error.span.stop
  stop_le : error.span.stop ≤ source.utf8ByteSize
  /-- What lacks an operand is an operator, and it is the place. -/
  missingOperand : ∀ t, error.cause = .missingOperand t →
    error.span.Covers source.toList t.text.toList ∧ ∃ op : Operator, t.text = op.symbol
  unmatched : ∀ t, error.cause = .unmatchedClosing t →
    error.span.Covers source.toList t.text.toList ∧ t.text = ")"
  unclosed : ∀ t, error.cause = .unclosedOpening t →
    error.span.Covers source.toList t.text.toList ∧ t.text = "("
  /-- The last of several pieces that are left is the place. -/
  missingOperator : ∀ span, error.cause = .missingOperator span →
    ∃ last second below, leftover (Token.scan source) = .ok (last :: second :: below) ∧
      error.span = last.span ∧ last.EndOf (Token.scan source)
  /-- There is something to show unless there is no text. -/
  underline_eq_none_iff : Source.underline source error.span = none ↔ source = ""
  /-- The line that is shown is the one on which the place starts. -/
  line : source ≠ "" → ∃ before line after,
    Source.LineAt source.toList error.span.start before line after ∧
      ∃ below, Source.underline source error.span =
        some (toString (before.countP Source.isBreak + 1) ++ "| " ++
          String.ofList (Text.trimEnd line) ++ "\n" ++ below)

theorem inOrder_scan (source : String) : Token.InOrder (Token.scan source) :=
  ⟨(Token.tokenizes_scan source).start_lt, (Token.tokenizes_scan source).ordered⟩

theorem inOrder_operands_scan (source : String) :
    Token.InOrder (Token.operands (Token.scan source)) :=
  (inOrder_scan source).sublist List.filter_sublist

/-- A token covers its text. -/
theorem covers_of_mem_scan (ht : t ∈ Token.scan source) :
    t.span.Covers source.toList t.text.toList := by
  obtain ⟨before, after, hcuts, -⟩ := (Token.tokenizes_scan source).lexeme t ht
  exact hcuts.covers

/-- A token starts before the end of the text. -/
theorem start_lt_of_mem_scan (ht : t ∈ Token.scan source) :
    t.span.start < source.utf8ByteSize := by
  obtain ⟨before, after, hcuts⟩ := covers_of_mem_scan ht
  have hstop := hcuts.stop_le
  have hlt := (inOrder_scan source).start_lt t ht
  rw [Text.byteLength_toList] at hstop
  omega

/-- A piece that ends a row of tokens covers the text of what it spans. -/
theorem covers_of_endOf {piece : Piece} (h : piece.EndOf (Token.scan source)) :
    ∃ text, piece.span.Covers source.toList text := by
  obtain ⟨first, hfirst, hstart⟩ := h.start_eq
  obtain ⟨final, hfinal, hstop⟩ := h.stop_eq
  have horder := inOrder_operands_scan source
  have hle : first.span.start ≤ final.span.stop :=
    Nat.le_trans (Nat.le_of_lt (horder.start_lt first hfirst)) (horder.le_stop hfinal hfirst)
  have hmem {t : Token} (ht : t ∈ Token.operands (Token.scan source)) : t ∈ Token.scan source :=
    (Token.mem_operands.mp ht).1
  obtain ⟨before, after, hcuts⟩ := covers_of_mem_scan (hmem hfirst)
  obtain ⟨before', after', hcuts'⟩ := covers_of_mem_scan (hmem (List.mem_of_getLast? hfinal))
  have hcovers := hcuts.exists_covers hcuts' hle
  rwa [← hstart, ← hstop] at hcovers

theorem Origin.covers (h : Origin (Token.scan source) error) :
    ∃ piece, error.span.Covers source.toList piece := by
  cases h with
  | operator ht => exact ⟨_, covers_of_mem_scan (Token.mem_operators.mp ht).1⟩
  | closing ht _ => exact ⟨_, covers_of_mem_scan ht⟩
  | opening ht _ => exact ⟨_, covers_of_mem_scan ht⟩
  | nothing => exact ⟨[], [], source.toList, rfl, rfl, rfl⟩
  | piece h => exact covers_of_endOf (Yard.endOf_of_leftover h (inOrder_operands_scan source))

theorem Origin.start_lt (h : Origin (Token.scan source) error) (hne : source ≠ "") :
    error.span.start < source.utf8ByteSize := by
  cases h with
  | operator ht => exact start_lt_of_mem_scan (Token.mem_operators.mp ht).1
  | closing ht _ => exact start_lt_of_mem_scan ht
  | opening ht _ => exact start_lt_of_mem_scan ht
  | nothing =>
    have hzero : source.utf8ByteSize ≠ 0 := fun h => hne (String.utf8ByteSize_eq_zero_iff.mp h)
    exact Nat.pos_of_ne_zero hzero
  | piece h =>
    -- the piece starts where one of its operands does
    have hend := Yard.endOf_of_leftover h (inOrder_operands_scan source)
    obtain ⟨first, hfirst, hstart⟩ := hend.start_eq
    calc
      _ = first.span.start := hstart
      _ < source.utf8ByteSize := start_lt_of_mem_scan (Token.mem_operands.mp hfirst).1

/-- **Every error of a text points at what it tells of**, and the line on which that starts is
shown. -/
theorem pointsInto_of_ofTokens (h : Expr.ofTokens (Token.scan source) = .error error) :
    PointsInto source error := by
  have horigin := origin_of_ofTokens h
  obtain ⟨piece, before, after, hcuts⟩ := horigin.covers
  have hstop := hcuts.stop_le
  rw [Text.byteLength_toList] at hstop
  obtain ⟨phase, cause⟩ := error
  refine ⟨⟨piece, hcuts.covers⟩, hcuts.start_le, hstop, ?_, ?_, ?_, ?_, ?_, ?_⟩
  · rintro t rfl
    obtain ⟨ht, hop⟩ := horigin.of_missingOperand
    exact ⟨covers_of_mem_scan ht, hop⟩
  · rintro t rfl
    obtain ⟨ht, htext⟩ := horigin.of_unmatchedClosing
    exact ⟨covers_of_mem_scan ht, htext⟩
  · rintro t rfl
    obtain ⟨ht, htext⟩ := horigin.of_unclosedOpening
    exact ⟨covers_of_mem_scan ht, htext⟩
  · rintro span rfl
    obtain ⟨last, second, below, hleft, rfl⟩ := horigin.of_missingOperator
    exact ⟨last, second, below, hleft, rfl,
      Yard.endOf_of_leftover hleft (inOrder_operands_scan source)⟩
  · rw [Source.underline_eq_none_iff]
    constructor
    · intro hle
      by_contra hne
      exact Nat.not_lt.mpr hle (horigin.start_lt hne)
    · rintro rfl
      exact Nat.zero_le _
  · exact fun hne => Source.lineAt_of_underline (horigin.start_lt hne)

/-- Two names stand beside each other, and the place is that of the product behind the first. -/
theorem pointsInto_of_ofTokens_beside :
    Expr.ofTokens (Token.scan "π\n2*é") = .error ⟨.whole, .missingOperator ⟨3, 7⟩⟩ ∧
      PointsInto "π\n2*é" ⟨.whole, .missingOperator ⟨3, 7⟩⟩ := by
  have h : Expr.ofTokens (Token.scan "π\n2*é") = .error ⟨.whole, .missingOperator ⟨3, 7⟩⟩ := by
    decide +kernel
  exact ⟨h, pointsInto_of_ofTokens h⟩

end SyntaxError

end Reckon
