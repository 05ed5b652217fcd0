import Reckon.Expr.Postfix
import Reckon.Proofs.Assembly.Lines
import Reckon.Proofs.Assembly.Moves
import Reckon.Proofs.Grammar.Contents

/-!
# Replaying the lines of a construction

The lines that a construction logs say enough to do it again.  An operand that was put aside is a
leaf, an operator that was applied joins the two trees on top of a stack, and what the line says of
these two trees is true of them.  So the lines are the post-order of the tree in more words.  When
the construction fails, they end with that of the last move that was made before the failure.

## Main definitions

* `Assembly.Record.node?` — the tree that a record tells of when its last part is made.
* `Assembly.Record.item?` — the element of postfix notation that a record tells of.

## Main results

* `Assembly.Move.replay` — a move does to the operands what its line does to the trees.
* `Assembly.Course.replay`, `Assembly.Course.exists_taken`, `Assembly.Course.nodes`,
  `Assembly.Course.countP_operator` — what the lines of a course say of the state that it comes to.
* `Expr.replay_assemble` — **the lines of a construction replay it**.
-/

namespace Reckon

namespace Assembly

variable {tokens rest rest' : List Token} {a a' : Assembly} {record : Option Record}
  {records : List Record}

/-! ### The trees that records tell of -/

/-- The tree that a record tells of when its last part is made. -/
def Record.node? : Record → Option Expr
  | .operand token => some (.operand token.text)
  | .apply lhs op rhs => some (.binary lhs op rhs)
  | .operator _ | .finished _ => none

/-- The element of postfix notation that a record tells of, if there is one. -/
def Record.item? (record : Record) : Option Expr.Item := record.node?.map Expr.item

theorem Record.filterMap_item? (records : List Record) :
    records.filterMap Record.item? = (records.filterMap Record.node?).map Expr.item :=
  List.map_filterMap.symm

/-- The records about a tree are those with a line about an operand or an application. -/
theorem Record.tellsOf_line_eq (record : Record) :
    tellsOf [.operand, .reduce] record.line = record.node?.isSome := by
  rw [tellsOf_line]
  cases record <;> rfl

theorem Record.line_of_node? {record : Record} {e : Expr} (h : record.node? = some e) :
    record.line = e.line := by
  cases record with
  | operand token =>
    cases h
    exact line_operand token
  | apply lhs op rhs =>
    cases h
    exact line_apply lhs rhs op
  | operator token => cases h
  | finished expr => cases h

/-- The lines about operands and applications are those of the trees. -/
theorem filter_lines_eq (records : List Record) :
    (records.map Record.line).filter (tellsOf [.operand, .reduce]) =
      (records.filterMap Record.node?).map Expr.line := by
  induction records with
  | nil => rfl
  | cons record records ih =>
    rw [List.map_cons, List.filter_cons, record.tellsOf_line_eq, ih]
    cases hnode : record.node? with
    | none => rw [List.filterMap_cons_none hnode]; rfl
    | some e => rw [List.filterMap_cons_some hnode, Record.line_of_node? hnode]; rfl

/-! ### What a move keeps -/

/-- **A move does to the operands what its line does to the trees.** -/
theorem Move.replay (h : Move a rest record a' rest') :
    (record.toList.map Record.line).foldlM replayLine (a.operands.map Piece.expr) =
      some (a'.operands.map Piece.expr) := by
  cases h with
  | operand _ => simp
  | opening _ => rfl
  | closing _ => rfl
  | operator _ _ => simp
  | apply lhs rhs _ => simp

/-- A move takes a token, and its line is the one with which that is put aside; or it takes
none. -/
theorem Move.exists_taken (h : Move a rest record a' rest') :
    ∃ taken, rest = taken ++ rest' ∧
      (record.toList.map Record.line).filter (tellsOf [.operand, .operator]) =
        taken.filterMap Token.line? := by
  cases h with
  | @operand _ _ token _ ht =>
    exact ⟨[token], rfl, by simp [Record.heading, Token.line?_of_operand ht]⟩
  | @opening _ _ token _ ht => exact ⟨[token], rfl, by simp [Token.line?, ht]⟩
  | @closing _ _ _ token _ ht => exact ⟨[token], rfl, by simp [Token.line?, ht]⟩
  | @operator _ _ _ token _ ht _ =>
    exact ⟨[token], rfl, by simp [Record.heading, Token.line?_of_operator ht]⟩
  | apply lhs rhs _ => exact ⟨[], rfl, by simp [Record.heading]⟩

/-- A move adds to the nodes of the operands, from the bottom of the stack to its top, the one that
its record tells of. -/
theorem Move.nodes (h : Move a rest record a' rest') :
    a'.operands.reverse.flatMap (fun piece => piece.expr.postorder) =
      a.operands.reverse.flatMap (fun piece => piece.expr.postorder) ++
        record.toList.filterMap Record.node? := by
  cases h with
  | operand _ => simp [Record.node?, Expr.postorder]
  | opening _ => simp
  | closing _ => simp
  | operator _ _ => simp [Record.node?]
  | apply lhs rhs _ => simp [Record.node?, Expr.postorder]

/-- An operator that is put aside waits until it is applied. -/
theorem Move.countP_operator (h : Move a rest record a' rest') :
    (record.toList.map Record.line).countP (tellsOf [.operator]) +
        (a.waiting.filterMap Waiting.operator?).length =
      (record.toList.map Record.line).countP (tellsOf [.reduce]) +
        (a'.waiting.filterMap Waiting.operator?).length := by
  cases h with
  | operand _ => simp [Record.heading]
  | opening _ => rfl
  | closing _ => rfl
  | operator _ _ => simp [Record.heading, Waiting.operator?, Nat.add_comm]
  | apply lhs rhs _ => simp [Record.heading, Waiting.operator?, Nat.add_comm]

theorem Move.not_built (h : Move a rest record a' rest') :
    ∀ line ∈ record.toList.map Record.line, ¬tellsOf [.built] line := by
  cases h <;> simp [Record.heading]

/-! ### What a course keeps -/

/-- The lines of a course replay it. -/
theorem Course.replay (h : Course tokens a rest records) :
    (records.map Record.line).foldlM replayLine [] = some (a.operands.map Piece.expr) := by
  induction h with
  | start => rfl
  | move _ hmove ih =>
    rw [List.map_append, List.foldlM_append, ih, Option.bind_eq_bind, Option.bind_some,
      hmove.replay]

/-- Every token that was put aside has its line, in the order of the tokens. -/
theorem Course.exists_taken (h : Course tokens a rest records) :
    ∃ taken, tokens = taken ++ rest ∧
      (records.map Record.line).filter (tellsOf [.operand, .operator]) =
        taken.filterMap Token.line? := by
  induction h with
  | start => exact ⟨[], rfl, rfl⟩
  | move _ hmove ih =>
    obtain ⟨taken, rfl, hlines⟩ := ih
    obtain ⟨more, rfl, hmore⟩ := hmove.exists_taken
    refine ⟨taken ++ more, (List.append_assoc _ _ _).symm, ?_⟩
    rw [List.map_append, List.filter_append, hlines, hmore, List.filterMap_append]

/-- The records tell of the nodes of the operands, in their order. -/
theorem Course.nodes (h : Course tokens a rest records) :
    records.filterMap Record.node? =
      a.operands.reverse.flatMap (fun piece => piece.expr.postorder) := by
  induction h with
  | start => rfl
  | move _ hmove ih => rw [List.filterMap_append, ih, hmove.nodes]

/-- Of the operators that were put aside all were applied but those that wait. -/
theorem Course.countP_operator (h : Course tokens a rest records) :
    (records.map Record.line).countP (tellsOf [.operator]) =
      (records.map Record.line).countP (tellsOf [.reduce]) +
        (a.waiting.filterMap Waiting.operator?).length := by
  induction h with
  | start => rfl
  | move _ hmove ih =>
    have hcount := hmove.countP_operator
    rw [List.map_append, List.countP_append, List.countP_append]
    omega

/-- No line of a course says that an expression is finished. -/
theorem Course.not_built (h : Course tokens a rest records) :
    ∀ line ∈ records.map Record.line, ¬tellsOf [.built] line := by
  induction h with
  | start => simp
  | move _ hmove ih =>
    rw [List.map_append]
    exact List.forall_mem_append.mpr ⟨ih, hmove.not_built⟩

/-! ### The line of the end -/

/-- The last line is that of the record of the end. -/
theorem Record.map_line_ofResult (result : Except SyntaxError Expr) :
    (Record.ofResult result).map Record.line = endLines result := by
  cases result <;> rfl

/-- That an expression is finished changes no tree, and it is true of the one that is left. -/
theorem Stops.replay {result : Except SyntaxError Expr} (h : Stops a rest result) :
    (endLines result).foldlM replayLine (a.operands.map Piece.expr) =
      some (a.operands.map Piece.expr) := by
  rw [← Record.map_line_ofResult]
  cases h with
  | whole => simp [Record.ofResult]
  | missingOperand _ _ => rfl
  | unmatched _ => rfl
  | unclosed => rfl
  | nothing => rfl
  | missingOperator => rfl

/-- The last line is not among those about anything but a finished expression. -/
theorem filter_append_endLines {headings : List Heading} (h : .built ∉ headings)
    (front : List Log.Line) (result : Except SyntaxError Expr) :
    (front ++ endLines result).filter (tellsOf headings) = front.filter (tellsOf headings) := by
  rw [List.filter_append, ← Record.map_line_ofResult]
  cases result with
  | error e => exact List.append_nil _
  | ok e => simp [Record.ofResult, Record.heading, h]

theorem countP_append_endLines {headings : List Heading} (h : .built ∉ headings)
    (front : List Log.Line) (result : Except SyntaxError Expr) :
    (front ++ endLines result).countP (tellsOf headings) = front.countP (tellsOf headings) := by
  rw [List.countP_eq_length_filter, filter_append_endLines h, List.countP_eq_length_filter]

end Assembly

open Assembly in
/-- **The lines of a construction replay it.**  There is one course of moves that stops, and it
stops as the construction ends.  The lines are those of its moves, and say in the end, and there
only, that the expression is finished, if it is.  Replayed on a stack of trees, the lines are true
of the trees at every application, and leave the operands that the construction had; and there is
one for each operand and each operator among the tokens that were taken.  So when an expression
comes out, they leave that expression alone, and those that put a tree on the stack are its
post-order; and every operator that was put aside is applied. -/
theorem Expr.replay_assemble (tokens : List Token) :
    ∃ a taken rest steps, tokens = taken ++ rest ∧
      Course tokens a rest steps ∧ Stops a rest (Expr.assemble tokens).result ∧
      (∀ a' rest' steps' result', Course tokens a' rest' steps' → Stops a' rest' result' →
        a' = a ∧ rest' = rest ∧ steps' = steps) ∧
      lines tokens = steps.map Record.line ++ endLines (Expr.assemble tokens).result ∧
      (∀ line ∈ steps.map Record.line, ¬tellsOf [.built] line) ∧
      (lines tokens).foldlM replayLine [] = some (a.operands.map Piece.expr) ∧
      (lines tokens).filter (tellsOf [.operand, .operator]) = taken.filterMap Token.line? ∧
      ∀ e, (Expr.assemble tokens).result = .ok e →
        a.operands.map Piece.expr = [e] ∧
          (lines tokens).filter (tellsOf [.operand, .reduce]) = e.postorder.map Expr.line ∧
          (Expr.assemble tokens).trace.filterMap Record.item? = e.items ∧
          (lines tokens).countP (tellsOf [.operator]) =
            (lines tokens).countP (tellsOf [.reduce]) := by
  obtain ⟨a, rest, steps, hcourse, hstops, htrace⟩ := exists_course tokens
  obtain ⟨taken, htokens, htaken⟩ := hcourse.exists_taken
  have hlines : lines tokens = steps.map Record.line ++ endLines (Expr.assemble tokens).result := by
    rw [lines, htrace, List.map_append, Record.map_line_ofResult]
  refine ⟨a, taken, rest, steps, htokens, hcourse, hstops, ?_, hlines, hcourse.not_built, ?_, ?_,
    ?_⟩
  · intro a' rest' steps' result' hcourse' hstops'
    obtain ⟨ha, hrest, hsteps, -⟩ := hcourse'.unique hstops' hcourse hstops
    exact ⟨ha, hrest, hsteps⟩
  · rw [hlines, List.foldlM_append, hcourse.replay]
    exact hstops.replay
  · rw [hlines, filter_append_endLines (by decide), htaken]
  · intro e hresult
    have hnodes := hcourse.nodes
    have hcount := hcourse.countP_operator
    rw [hlines, filter_append_endLines (by decide), countP_append_endLines (by decide),
      countP_append_endLines (by decide), filter_lines_eq, htrace]
    rw [hresult] at hstops ⊢
    -- one operand is left, and no operator waits
    cases hstops with
    | @whole whole =>
      have hpost : steps.filterMap Record.node? = whole.expr.postorder := by simpa using hnodes
      have hitems : (steps ++ Record.ofResult (.ok whole.expr)).filterMap Record.item? =
          whole.expr.items := by
        rw [Record.filterMap_item?, List.filterMap_append, hpost, ← Expr.map_item_postorder]
        exact congrArg (List.map Expr.item) (List.append_nil _)
      exact ⟨rfl, congrArg (List.map Expr.line) hpost, hitems, hcount⟩

open Assembly in
/-- In `2+3*)` the product takes both operands and the sum finds one, so the lines end with that of
the product.  In `2*(x+1)` both operators are applied. -/
theorem Expr.replay_assemble_product :
    (∃ a rest steps, Course (Token.scan "2+3*)") a rest steps ∧
      Stops a rest (.error ⟨.application, .missingOperand ⟨"+", ⟨1, 2⟩⟩⟩) ∧
      steps.map Record.line = [⟨.trace, "Push operand '2'"⟩, ⟨.trace, "Push operator '+'"⟩,
        ⟨.trace, "Push operand '3'"⟩, ⟨.trace, "Push operator '*'"⟩, ⟨.trace, "Reduce 2 * 3"⟩] ∧
      a.operands.map Piece.expr = [.binary (.operand "2") .multiply (.operand "3")]) ∧
    ∃ e, (Expr.assemble (Token.scan "2*(x+1)")).result = .ok e ∧
      (lines (Token.scan "2*(x+1)")).foldlM replayLine [] = some [e] ∧
      e.postorder.map Expr.line = [⟨.trace, "Push operand '2'"⟩, ⟨.trace, "Push operand 'x'"⟩,
        ⟨.trace, "Push operand '1'"⟩, ⟨.trace, "Reduce x + 1"⟩, ⟨.trace, "Reduce 2 * (x + 1)"⟩] ∧
      (lines (Token.scan "2*(x+1)")).filter (tellsOf [.operand, .reduce]) =
        e.postorder.map Expr.line ∧
      (lines (Token.scan "2*(x+1)")).countP (tellsOf [.operator]) =
        (lines (Token.scan "2*(x+1)")).countP (tellsOf [.reduce]) := by
  constructor
  · have hresult : (Expr.assemble (Token.scan "2+3*)")).result =
        .error ⟨.application, .missingOperand ⟨"+", ⟨1, 2⟩⟩⟩ := by decide +kernel
    have htrees : (lines (Token.scan "2+3*)")).foldlM replayLine [] =
        some [.binary (.operand "2") .multiply (.operand "3")] := by decide +kernel
    obtain ⟨a, taken, rest, steps, -, hcourse, hstops, -, hlines, -, hreplay, -⟩ :=
      replay_assemble (Token.scan "2+3*)")
    rw [hresult] at hstops hlines
    rw [htrees, Option.some_inj] at hreplay
    refine ⟨a, rest, steps, hcourse, hstops, ?_, hreplay.symm⟩
    rw [endLines, List.append_nil] at hlines
    rw [← hlines]
    decide +kernel
  · let e : Expr :=
      .binary (.operand "2") .multiply (.binary (.operand "x") .add (.operand "1"))
    have hresult : (Expr.assemble (Token.scan "2*(x+1)")).result = .ok e := by decide +kernel
    obtain ⟨a, taken, rest, steps, -, -, -, -, -, -, hreplay, -, hok⟩ :=
      replay_assemble (Token.scan "2*(x+1)")
    obtain ⟨hwhole, hpost, -, hcount⟩ := hok e hresult
    exact ⟨e, hresult, hwhole ▸ hreplay, by decide +kernel, hpost, hcount⟩

end Reckon
