import Reckon.Proofs.Yard.Pieces

/-!
# Parentheses as operands

A row of tokens that makes an expression can stand between parentheses wherever an operand can
stand, and the construction does not notice the difference: the expression comes to stand in the
tree where the operand would be, and an error is the same error.  This holds in every context,
also in one that is malformed.

## Main definitions

* `Expr.replace whole name e` — `whole` with `e` in place of every leaf `name`.
* `Yard.Yields tokens piece` — in every state, `tokens` do what one operand does, and the machine
  gets `piece`.

## Main results

* `Yard.yields_group` — an expression in parentheses does what one operand does.
* `Yard.fuse_replace` — the machine does not look into the pieces.
* `Expr.ofTokens_group` — **an expression in parentheses behaves like an operand in any context**.
-/

namespace Reckon

/-! ### Replacing a leaf -/

/-- Puts `e` in place of every leaf `name`. -/
def Expr.replace : Expr → String → Expr → Expr
  | operand text, name, e => if text = name then e else operand text
  | binary lhs op rhs, name, e => binary (lhs.replace name e) op (rhs.replace name e)

/-- Puts `e` in place of every leaf `name` of a piece.  The piece stays where it is. -/
def Piece.replace (piece : Piece) (name : String) (e : Expr) : Piece :=
  ⟨piece.expr.replace name e, piece.span⟩

variable {name : String} {e : Expr}

@[simp] theorem Expr.replace_self : (operand name).replace name e = e := by
  rw [replace, if_pos rfl]

theorem Expr.replace_operand_of_ne {text : String} (h : text ≠ name) :
    (operand text).replace name e = operand text := by
  rw [replace, if_neg h]

theorem Expr.replace_of_not_mem {whole : Expr} (h : name ∉ whole.operands) :
    whole.replace name e = whole := by
  induction whole with
  | operand text => exact replace_operand_of_ne fun heq => h (by simp [heq])
  | binary lhs op rhs ihl ihr =>
    rw [operands_binary, List.mem_append, not_or] at h
    rw [replace, ihl h.1, ihr h.2]

theorem Piece.map_replace_of_not_mem {pieces : List Piece}
    (h : ∀ piece ∈ pieces, name ∉ piece.expr.operands) :
    pieces.map (·.replace name e) = pieces := by
  refine (List.map_congr_left fun piece hp => ?_).trans (List.map_id pieces)
  rw [Piece.replace, Expr.replace_of_not_mem (h piece hp)]
  rfl

namespace Yard

/-! ### The machine does not look into the pieces -/

theorem push_replace {o : Output} (h : ∀ t ∈ operandTokens [o], t.text ≠ name)
    (stack : List Piece) :
    push (stack.map (·.replace name e)) o =
      (push stack o).map (List.map (·.replace name e)) := by
  match o, stack with
  | .operand token, stack =>
    have hne : token.text ≠ name := h token (List.mem_singleton_self token)
    simp only [push, Except.map, List.map_cons, Piece.replace, Expr.replace_operand_of_ne hne]
  | .operator op token, _ :: _ :: _ => rfl
  | .operator op token, [] => rfl
  | .operator op token, [_] => rfl

theorem build_replace : ∀ {outputs : List Output} (_ : ∀ t ∈ operandTokens outputs, t.text ≠ name)
    (stack : List Piece),
    build (stack.map (·.replace name e)) outputs =
      (build stack outputs).map (List.map (·.replace name e)) := by
  intro outputs
  induction outputs with
  | nil => exact fun _ _ => rfl
  | cons o os ih =>
    intro h stack
    change ∀ t ∈ operandTokens ([o] ++ os), t.text ≠ name at h
    rw [operandTokens_append] at h
    rw [build_cons, build_cons, push_replace fun t ht => h t (List.mem_append_left _ ht)]
    cases push stack o with
    | error operator => rfl
    | ok middle => exact ih (fun t ht => h t (List.mem_append_right _ ht)) middle

theorem fuse_replace {α : Type} {x : Shunting α} (h : ∀ t ∈ operandTokens x.trace, t.text ≠ name)
    (stack : List Piece) :
    fuse (stack.map (·.replace name e)) x =
      (fuse stack x).map fun r => (r.1.map (·.replace name e), r.2) := by
  rw [fuse, fuse, build_replace h]
  cases build stack x.trace with
  | error operator => rfl
  | ok pieces => cases x.result <;> rfl

theorem conclude_replace (pieces : List Piece) :
    (Assembly.conclude (pieces.map (·.replace name e))).result =
      (Assembly.conclude pieces).result.map (·.replace name e) := by
  match pieces with
  | [] => rfl
  | [_] => rfl
  | _ :: _ :: _ => rfl

/-! ### What stands for an operand -/

/-- In every state the tokens leave the yard as it was, and put `piece` on the stack of the
machine. -/
def Yields (tokens : List Token) (piece : Piece) : Prop :=
  ∀ (stack : List Entry) (pieces : List Piece),
    fuse pieces (tokens.foldlM step stack) = .ok (piece :: pieces, stack)

theorem yields_operand {x : Token} (hx : x.role = .operand) :
    Yields [x] ⟨.operand x.text, x.span⟩ := by
  intro stack pieces
  rw [List.foldlM_cons, step_of_shift (.operand hx)]
  rfl

/-- The yard does with a group what it does with the tokens inside, and its stack is as before. -/
theorem foldlM_step_group {opened closed : Token} {inner : List Token}
    (ho : opened.role = .opening) (h : (run inner).result = .ok ()) (hc : closed.role = .closing)
    (stack : List Entry) :
    (opened :: inner ++ [closed]).foldlM step stack = ⟨(run inner).trace, .ok stack⟩ := by
  obtain ⟨sent, ps, hreached, htrace⟩ := (ends_run inner).exists_reached h
  have hopened : Reached stack [opened] [] (.opening opened :: stack) :=
    Reached.start.shift (.opening ho)
  have hinner := (hreached.append_opening opened stack).foldlM_step
  rw [htrace]
  exact ((hopened.append_of_foldlM_step hinner).shift (.closing hc ps opened)).foldlM_step

/-- The piece that an expression is made of has all its operands. -/
theorem exists_piece_of {inner : List Token} (h : Expr.ofTokens inner = .ok e) :
    ∃ span, build [] (run inner).trace = .ok [⟨e, span⟩] ∧ (run inner).result = .ok () ∧
      Piece.Of ⟨e, span⟩ (Token.operands inner) := by
  obtain ⟨span, hfuse⟩ := Expr.ofTokens_eq_ok_iff.mp h
  obtain ⟨hbuild, hresult⟩ := fuse_eq_ok hfuse
  have hstacked := Stacked.nil.build hbuild
  rw [((ends_run inner).sent_of_ok hresult).1] at hstacked
  refine ⟨span, hbuild, hresult, ?_⟩
  generalize Token.operands inner = own at hstacked
  obtain _ | ⟨⟨⟩, hp⟩ := hstacked
  exact hp

/-- **An expression in parentheses does what one operand does**, if that has the span of its
operands. -/
theorem yields_group {opened closed : Token} {inner : List Token} {span : Span}
    (ho : opened.role = .opening) (h : Expr.ofTokens inner = .ok e) (hc : closed.role = .closing)
    (hspan : IsLUB (Token.spans (Token.operands inner)) span) :
    Yields (opened :: inner ++ [closed]) ⟨e, span⟩ := by
  obtain ⟨span', hbuild, hresult, hpiece⟩ := exists_piece_of h
  obtain rfl : span' = span := hpiece.span.unique hspan
  intro stack pieces
  have hbase : build pieces (run inner).trace = .ok (⟨e, span'⟩ :: pieces) :=
    build_append_base pieces hbuild
  rw [foldlM_step_group ho hresult hc, fuse, hbase]
  rfl

/-- What comes of a row in which some tokens stand for an operand. -/
theorem ofTokens_of_yields {tokens : List Token} {piece : Piece} (h : Yields tokens piece)
    (before after : List Token) :
    Expr.ofTokens (before ++ tokens ++ after) =
      (fuse [] (before.foldlM step [])).bind fun r =>
        (fuse (piece :: r.1) (after.foldlM step r.2 >>= finish)).bind fun r =>
          (Assembly.conclude r.1).result := by
  rw [Expr.ofTokens_eq_fuse, run, List.foldlM_append, List.foldlM_append, bind_assoc, bind_assoc,
    fuse_bind]
  cases fuse [] (before.foldlM step []) with
  | error e => rfl
  | ok r =>
    change (fuse r.1 _).bind _ = _
    rw [fuse_bind, h]
    rfl

end Yard

open Yard in
/-- **An expression in parentheses behaves like an operand**, in any context: it stands in the tree
where the operand would be, and an error is the same error. -/
theorem Expr.ofTokens_group {before inner after : List Token} {opened closed x : Token} {e : Expr}
    (ho : opened.role = .opening) (hinner : Expr.ofTokens inner = .ok e)
    (hc : closed.role = .closing) (hx : x.role = .operand)
    (hfresh : ∀ t ∈ Token.operands (before ++ after), t.text ≠ x.text)
    (hspan : IsLUB (Token.spans (Token.operands inner)) x.span) :
    Expr.ofTokens (before ++ (opened :: inner ++ [closed]) ++ after) =
      (Expr.ofTokens (before ++ [x] ++ after)).map (·.replace x.text e) := by
  rw [ofTokens_of_yields (yields_group ho hinner hc hspan), ofTokens_of_yields (yields_operand hx)]
  rw [Token.operands_append] at hfresh
  cases hbefore : fuse [] (before.foldlM step []) with
  | error e => rfl
  | ok r =>
    obtain ⟨pieces, stack⟩ := r
    obtain ⟨hbuild, hresult⟩ := fuse_eq_ok hbefore
    have hreached : Reached [] before (before.foldlM step []).trace stack :=
      reached_iff.mpr (by rw [← hresult])
    have hstacked := Stacked.nil.build hbuild
    rw [hreached.operands, List.nil_append] at hstacked
    -- neither the pieces built so far nor the operands to come have a leaf to replace
    have hpieces : pieces.map (·.replace x.text e) = pieces :=
      Piece.map_replace_of_not_mem fun piece hp hmem => by
        obtain ⟨t, ht, htext⟩ := hstacked.exists_text hp hmem
        exact hfresh t (List.mem_append_left _ ht) htext
    have hafter : ∀ t ∈ operandTokens (after.foldlM step stack >>= finish).trace,
        t.text ≠ x.text := fun t ht =>
      hfresh t (List.mem_append_right _ ((ends_foldlM_step stack after).mem_operands ht))
    have hstack : (⟨.operand x.text, x.span⟩ :: pieces : List Piece).map (·.replace x.text e) =
        ⟨e, x.span⟩ :: pieces := by
      rw [List.map_cons, hpieces, Piece.replace, Expr.replace_self]
    change (fuse (⟨e, x.span⟩ :: pieces) _).bind _ =
      ((fuse (⟨.operand x.text, x.span⟩ :: pieces) _).bind _).map _
    rw [← hstack, fuse_replace hafter]
    cases fuse (⟨.operand x.text, x.span⟩ :: pieces) (after.foldlM step stack >>= finish) with
    | error e => rfl
    | ok r => exact conclude_replace r.1

/-- A group in the middle of a product, and the same product with an operand in its place. -/
theorem Expr.ofTokens_group_product :
    let before : List Token := [⟨"a", ⟨0, 1⟩⟩, ⟨"*", ⟨2, 3⟩⟩]
    let opened : Token := ⟨"(", ⟨4, 5⟩⟩
    let inner : List Token := [⟨"b", ⟨5, 6⟩⟩, ⟨"+", ⟨7, 8⟩⟩, ⟨"cd", ⟨9, 11⟩⟩]
    let closed : Token := ⟨")", ⟨11, 12⟩⟩
    let after : List Token := [⟨"^", ⟨13, 14⟩⟩, ⟨"2", ⟨15, 16⟩⟩]
    let x : Token := ⟨"x", ⟨5, 11⟩⟩
    let e : Expr := .binary (.operand "b") .add (.operand "cd")
    opened.role = .opening ∧ Expr.ofTokens inner = .ok e ∧ closed.role = .closing ∧
      x.role = .operand ∧ (∀ t ∈ Token.operands (before ++ after), t.text ≠ x.text) ∧
      IsLUB (Token.spans (Token.operands inner)) x.span ∧
      Expr.ofTokens (before ++ (opened :: inner ++ [closed]) ++ after) =
        (Expr.ofTokens (before ++ [x] ++ after)).map (·.replace x.text e) := by
  intro before opened inner closed after x e
  have hfresh : ∀ t ∈ Token.operands (before ++ after), t.text ≠ x.text := by decide
  have hinner : Expr.ofTokens inner = .ok e := rfl
  have hspan : IsLUB (Token.spans (Token.operands inner)) x.span :=
    ((Piece.of_operand ⟨"b", ⟨5, 6⟩⟩).binary (Piece.of_operand ⟨"cd", ⟨9, 11⟩⟩) .add).span
  exact ⟨rfl, hinner, rfl, rfl, hfresh, hspan, Expr.ofTokens_group rfl hinner rfl rfl hfresh hspan⟩

end Reckon
