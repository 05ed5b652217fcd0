import Mathlib.Data.List.Forall2
import Reckon.Report

/-!
# Rows of the same texts

Two rows of tokens with the same texts may have been read anywhere.  They are assembled in step:
after each pair of tokens both assemblies hold the same expressions, and the same operators and
parentheses wait.  So both come to the same tree, or both stop with the same error about the
tokens at one index, and whatever is reported of the two is the same.

## Main definitions

* `EndAlike E V` — two results are related values, or related errors.
* `Piece.Alike`, `Waiting.Alike R`, `Assembly.Alike R` — equal but for the places, where `R` says
  which tokens of the two rows correspond.
* `SyntaxError.Alike R` — one phase, one kind of cause, and corresponding tokens.
* `Assembly.InStep R V x y` — two parts of an assembly end alike.
* `Token.AtIndex tokens tokens'` — the tokens at one index of the two rows correspond.
* `Expr.SameEnd tokens tokens'` — both rows spell the same tree, or neither spells one, for the
  same reason.

## Main results

* `Assembly.Alike.step` — one step keeps two assemblies alike, or stops both alike.
* `Expr.sameEnd_of_texts` — **places never matter**, from the tokens to the report.
-/

namespace Reckon

/-! ### Two computations that end alike -/

/-- Both results are errors that `E` relates, or both are values that `V` relates. -/
inductive EndAlike {ε α : Type} (E : ε → ε → Prop) (V : α → α → Prop) :
    Except ε α → Except ε α → Prop
  | error {e e' : ε} : E e e' → EndAlike E V (.error e) (.error e')
  | ok {a a' : α} : V a a' → EndAlike E V (.ok a) (.ok a')

theorem EndAlike.bind {ε α β : Type} {E : ε → ε → Prop} {V : α → α → Prop} {W : β → β → Prop}
    {x x' : Except ε α} {f f' : α → Except ε β} (hx : EndAlike E V x x')
    (hf : ∀ a a', V a a' → EndAlike E W (f a) (f' a')) :
    EndAlike E W (x.bind f) (x'.bind f') := by
  cases hx with
  | error he => exact .error he
  | ok ha => exact hf _ _ ha

/-! ### What is alike -/

/-- The two pieces are one expression, wherever it stands. -/
def Piece.Alike (p q : Piece) : Prop := p.expr = q.expr

section

variable (R : Token → Token → Prop)

/-- The same thing waits on both sides, and its tokens correspond. -/
inductive Waiting.Alike : Waiting → Waiting → Prop
  | start : Alike (.opening none) (.opening none)
  | opening {t u : Token} : R t u → Alike (.opening (some t)) (.opening (some u))
  | operator (op : Operator) {t u : Token} : R t u → Alike (.operator op t) (.operator op u)

/-- Both assemblies hold the same, place by place, but for where it was read. -/
structure Assembly.Alike (a b : Assembly) : Prop where
  operands : List.Forall₂ Piece.Alike a.operands b.operands
  waiting : List.Forall₂ (Waiting.Alike R) a.waiting b.waiting

/-- The same is wrong, with tokens that correspond. -/
inductive SyntaxError.Cause.Alike : SyntaxError.Cause → SyntaxError.Cause → Prop
  | missingOperand {t u : Token} : R t u → Alike (.missingOperand t) (.missingOperand u)
  | missingOperator (last last' : Span) : Alike (.missingOperator last) (.missingOperator last')
  | unmatchedClosing {t u : Token} : R t u → Alike (.unmatchedClosing t) (.unmatchedClosing u)
  | unclosedOpening {t u : Token} : R t u → Alike (.unclosedOpening t) (.unclosedOpening u)
  | emptyExpression : Alike .emptyExpression .emptyExpression

/-- The same is wrong and was noticed in the same phase. -/
structure SyntaxError.Alike (e e' : SyntaxError) : Prop where
  phase : e.phase = e'.phase
  cause : SyntaxError.Cause.Alike R e.cause e'.cause

end

variable {R : Token → Token → Prop}

/-- The words for a cause tell the texts of tokens, and no place. -/
theorem SyntaxError.Cause.Alike.text {c c' : SyntaxError.Cause}
    (h : SyntaxError.Cause.Alike R c c') (hR : ∀ t u, R t u → t.text = u.text) :
    c.text = c'.text := by
  have hquoted {t u : Token} (htu : R t u) : t.quoted = u.quoted := by
    rw [Token.quoted, Token.quoted, hR t u htu]
  cases h with
  | missingOperand htu => exact congrArg ("missing operand for " ++ ·) (hquoted htu)
  | missingOperator _ _ => rfl
  | unmatchedClosing htu => exact congrArg ("unmatched " ++ ·) (hquoted htu)
  | unclosedOpening htu => exact congrArg ("unclosed " ++ ·) (hquoted htu)
  | emptyExpression => rfl

theorem SyntaxError.Alike.message {e e' : SyntaxError} (h : SyntaxError.Alike R e e')
    (hR : ∀ t u, R t u → t.text = u.text) : e.message = e'.message := by
  rw [SyntaxError.message, SyntaxError.message, h.cause.text hR, h.phase]

theorem Token.role_congr {t u : Token} (h : t.text = u.text) : t.role = u.role := by
  rw [role, role, h]

/-! ### Two assemblies in step -/

namespace Assembly

/-- The two parts of an assembly end alike: with errors that name corresponding tokens, or
with values that `V` relates. -/
abbrev InStep (R : Token → Token → Prop) {α : Type} (V : α → α → Prop) (x y : Recorded α) : Prop :=
  EndAlike (SyntaxError.Alike R) V x.result y.result

theorem InStep.bind {α β : Type} {V : α → α → Prop} {W : β → β → Prop} {x y : Recorded α}
    {f g : α → Recorded β} (h : InStep R V x y) (hf : ∀ a b, V a b → InStep R W (f a) (g b)) :
    InStep R W (x >>= f) (y >>= g) := by
  rw [InStep, Traced.result_bind, Traced.result_bind]
  exact EndAlike.bind h hf

theorem inStep_applyTop (op : Operator) {t u : Token} (htu : R t u) {ps qs : List Piece}
    (h : List.Forall₂ Piece.Alike ps qs) :
    InStep R (List.Forall₂ Piece.Alike) (applyTop op t ps) (applyTop op u qs) := by
  have hmissing : SyntaxError.Alike R ⟨.application, .missingOperand t⟩
      ⟨.application, .missingOperand u⟩ := ⟨rfl, .missingOperand htu⟩
  cases h with
  | nil => exact .error hmissing
  | @cons rhs rhs' _ _ hrhs h =>
    cases h with
    | nil => exact .error hmissing
    | @cons lhs lhs' ps qs hlhs h =>
      have hexpr : Expr.binary lhs.expr op rhs.expr = .binary lhs'.expr op rhs'.expr := by
        rw [show lhs.expr = lhs'.expr from hlhs, show rhs.expr = rhs'.expr from hrhs]
      exact .ok (.cons hexpr h)

theorem inStep_yieldTo (incoming : Fixity) {ws vs : List Waiting} {ps qs : List Piece}
    (hw : List.Forall₂ (Waiting.Alike R) ws vs) (hp : List.Forall₂ Piece.Alike ps qs) :
    InStep R (Assembly.Alike R) (yieldTo incoming ws ps) (yieldTo incoming vs qs) := by
  induction hw generalizing ps qs with
  | nil => exact .ok ⟨hp, .nil⟩
  | cons h hrest ih =>
    cases h with
    | start => exact .ok ⟨hp, .cons .start hrest⟩
    | opening htu => exact .ok ⟨hp, .cons (.opening htu) hrest⟩
    | operator op htu =>
      -- it is one operator on both sides, so either both apply it or both leave it
      rw [yieldTo, yieldTo]
      split
      · exact (inStep_applyTop op htu hp).bind fun _ _ => ih
      · exact .ok ⟨hp, .cons (.operator op htu) hrest⟩

theorem inStep_close {closer closer' : Option Token} (hcloser : Option.Rel R closer closer')
    {ws vs : List Waiting} {ps qs : List Piece} (hw : List.Forall₂ (Waiting.Alike R) ws vs)
    (hp : List.Forall₂ Piece.Alike ps qs) :
    InStep R (Assembly.Alike R) (close closer ws ps) (close closer' vs qs) := by
  induction hw generalizing ps qs with
  | nil =>
    cases hcloser with
    | some htu => exact .error ⟨rfl, .unmatchedClosing htu⟩
    | none => exact .ok ⟨hp, .nil⟩
  | cons h hrest ih =>
    cases h with
    | start =>
      cases hcloser with
      | some htu => exact .error ⟨rfl, .unmatchedClosing htu⟩
      | none => exact .ok ⟨hp, hrest⟩
    | opening hopening =>
      cases hcloser with
      | some _ => exact .ok ⟨hp, hrest⟩
      | none => exact .error ⟨rfl, .unclosedOpening hopening⟩
    | operator op htu =>
      rw [close, close]
      exact (inStep_applyTop op htu hp).bind fun _ _ => ih

/-- **One step keeps two assemblies alike**, or stops both of them alike. -/
theorem Alike.step {a b : Assembly} (h : Assembly.Alike R a b) {t u : Token} (htu : R t u)
    (htext : t.text = u.text) : InStep R (Assembly.Alike R) (a.step t) (b.step u) := by
  obtain ⟨hp, hw⟩ := h
  rw [Assembly.step, Assembly.step, ← Token.role_congr htext]
  cases t.role with
  | operand => exact .ok ⟨.cons (congrArg Expr.operand htext) hp, hw⟩
  | opening => exact .ok ⟨hp, .cons (.opening htu) hw⟩
  | closing => exact inStep_close (.some htu) hw hp
  | operator op =>
    exact (inStep_yieldTo op.fixity hw hp).bind
      fun _ _ h => .ok ⟨h.operands, .cons (.operator op htu) h.waiting⟩

theorem Alike.foldlM_step (hR : ∀ t u, R t u → t.text = u.text) {tokens tokens' : List Token}
    (h : List.Forall₂ R tokens tokens') : ∀ {a b : Assembly}, Assembly.Alike R a b →
      InStep R (Assembly.Alike R) (tokens.foldlM Assembly.step a)
        (tokens'.foldlM Assembly.step b) := by
  induction h with
  | nil => exact fun hab => .ok hab
  | cons htu _ ih =>
    intro a b hab
    rw [List.foldlM_cons, List.foldlM_cons]
    exact (hab.step htu (hR _ _ htu)).bind fun _ _ => ih

theorem inStep_conclude {ps qs : List Piece} (h : List.Forall₂ Piece.Alike ps qs) :
    InStep R Eq (conclude ps) (conclude qs) := by
  cases h with
  | nil => exact .error ⟨rfl, .emptyExpression⟩
  | cons hlast h =>
    cases h with
    | nil => exact .ok hlast
    | cons _ _ => exact .error ⟨rfl, .missingOperator _ _⟩

/-- Two rows of corresponding tokens end alike. -/
theorem inStep_assemble (hR : ∀ t u, R t u → t.text = u.text) {tokens tokens' : List Token}
    (h : List.Forall₂ R tokens tokens') :
    InStep R Eq (Expr.assemble tokens) (Expr.assemble tokens') := by
  have hstart : Assembly.Alike R Assembly.start Assembly.start := ⟨.nil, .cons .start .nil⟩
  rw [Expr.assemble, Expr.assemble]
  refine (hstart.foldlM_step hR h).bind fun a b hab => ?_
  exact (inStep_close .none hab.waiting hab.operands).bind fun _ _ h => inStep_conclude h.operands

end Assembly

/-! ### Tokens at one index -/

/-- The two tokens are at one index of the two rows. -/
def Token.AtIndex (tokens tokens' : List Token) (t u : Token) : Prop :=
  ∃ i : Nat, tokens[i]? = some t ∧ tokens'[i]? = some u

theorem Token.AtIndex.text_eq {tokens tokens' : List Token} {t u : Token}
    (h : Token.AtIndex tokens tokens' t u)
    (htexts : tokens.map Token.text = tokens'.map Token.text) : t.text = u.text := by
  obtain ⟨i, ht, hu⟩ := h
  have hi : (tokens.map Token.text)[i]? = (tokens'.map Token.text)[i]? := by rw [htexts]
  rw [List.getElem?_map, List.getElem?_map, ht, hu] at hi
  exact Option.some.inj hi

/-- Rows of one length are related index by index. -/
theorem Token.forall₂_atIndex {tokens tokens' : List Token}
    (h : tokens.map Token.text = tokens'.map Token.text) :
    List.Forall₂ (Token.AtIndex tokens tokens') tokens tokens' := by
  have hlength : tokens.length = tokens'.length := by simpa using congrArg List.length h
  refine List.forall₂_iff_get.mpr ⟨hlength, fun i hi hi' => ⟨i, ?_, ?_⟩⟩
  · exact List.getElem?_eq_getElem hi
  · exact List.getElem?_eq_getElem hi'

/-- Both rows spell the same tree, or both are malformed: in the same phase, for the same cause,
and the tokens that are named are at one index. -/
def Expr.SameEnd (tokens tokens' : List Token) : Prop :=
  EndAlike (SyntaxError.Alike (Token.AtIndex tokens tokens')) Eq
    (Expr.ofTokens tokens) (Expr.ofTokens tokens')

theorem Expr.sameEnd_of_map_text {tokens tokens' : List Token}
    (h : tokens.map Token.text = tokens'.map Token.text) : Expr.SameEnd tokens tokens' :=
  Assembly.inStep_assemble (fun _ _ htu => htu.text_eq h) (Token.forall₂_atIndex h)

/-! ### The report -/

namespace Report

/-- How a run ended: with no failure, or with what is told of it. -/
def ending (r : Report) : Option String := r.failure.map Failure.message

theorem ofExpr_congr (assembly assembly' : List Assembly.Record) (e : Expr) :
    (ofExpr assembly e).text = (ofExpr assembly' e).text ∧
      (ofExpr assembly e).ending = (ofExpr assembly' e).ending := by
  rw [ofExpr, ofExpr]
  cases e.solve <;> exact ⟨rfl, rfl⟩

/-- What is written and how the run ends depend on the texts of the tokens alone. -/
theorem text_and_ending_congr {source source' : String}
    (h : (Token.scan source).map Token.text = (Token.scan source').map Token.text) :
    (ofSource source).text = (ofSource source').text ∧
      (ofSource source).ending = (ofSource source').ending := by
  have hend : EndAlike _ Eq _ _ := Expr.sameEnd_of_map_text h
  rw [Expr.ofTokens, Expr.ofTokens] at hend
  rw [ofSource, ofSource]
  generalize Expr.assemble (Token.scan source) = x at hend ⊢
  generalize Expr.assemble (Token.scan source') = y at hend ⊢
  obtain ⟨trace, result⟩ := x
  obtain ⟨trace', result'⟩ := y
  cases hend with
  | error he => exact ⟨rfl, congrArg some (he.message fun _ _ htu => htu.text_eq h)⟩
  | ok he =>
    subst he
    exact ofExpr_congr _ _ _

end Report

/-- **Places never matter.**  Rows of the same texts end alike; a text ends as the bare texts of
its tokens do; and of two sources with the same texts the same is written, and the runs end in
the same way. -/
theorem Expr.sameEnd_of_texts :
    (∀ tokens tokens' : List Token, tokens.map Token.text = tokens'.map Token.text →
      Expr.SameEnd tokens tokens') ∧
    (∀ source, Expr.SameEnd (Token.scan source)
      (((Token.scan source).map Token.text).map Token.unplaced)) ∧
    ∀ source source',
      (Token.scan source).map Token.text = (Token.scan source').map Token.text →
        (Report.ofSource source).text = (Report.ofSource source').text ∧
          (Report.ofSource source).ending = (Report.ofSource source').ending := by
  refine ⟨fun _ _ => Expr.sameEnd_of_map_text, fun source => ?_,
    fun _ _ => Report.text_and_ending_congr⟩
  refine Expr.sameEnd_of_map_text ?_
  rw [List.map_map, List.map_map]
  exact List.map_congr_left fun _ _ => rfl

/-- A wide blank moves the sum that misses an operand, and moves nothing else. -/
theorem Expr.sameEnd_of_texts_moved :
    Expr.ofTokens (Token.scan "(a+)") =
        .error ⟨.application, .missingOperand ⟨"+", ⟨2, 3⟩⟩⟩ ∧
      Expr.ofTokens (Token.scan "(\u2003a+)") =
        .error ⟨.application, .missingOperand ⟨"+", ⟨5, 6⟩⟩⟩ ∧
      Expr.SameEnd (Token.scan "(a+)") (Token.scan "(\u2003a+)") ∧
      (Report.ofSource "(a+)").ending = (Report.ofSource "(\u2003a+)").ending := by
  have htexts : (Token.scan "(a+)").map Token.text = (Token.scan "(\u2003a+)").map Token.text := by
    decide +kernel
  obtain ⟨hrows, -, hsources⟩ := Expr.sameEnd_of_texts
  exact ⟨by decide +kernel, by decide +kernel, hrows _ _ htexts, (hsources _ _ htexts).2⟩

end Reckon
