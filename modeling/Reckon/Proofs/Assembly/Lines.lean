import Mathlib.Data.List.Infix
import Reckon.Assembly

/-!
# The lines of a construction

A construction is logged line by line, and a line is text.  What it is about is told by its first
words, and what it says of that stands behind them.  So the lines can be followed without the
records that they were made from: an operand is the text between the quotes, and an operator is
applied to the two trees on top of a stack if these are written as the line has them.

## Main definitions

* `Text.between? front back text` — the middle of a text that starts and ends so.
* `Assembly.Heading` — what a line may be about; `Assembly.Heading.read?` tells it from the line.
* `Assembly.lines tokens` — the lines of the construction from these tokens.
* `Assembly.replayLine trees line` — the trees behind a line.
* `Expr.line`, `Token.line?` — the line with which a tree is made, and the one with which a token
  is put aside.

## Main results

* `Assembly.Heading.read?_mk` — no line has the words of two headings.
* `Assembly.Record.read?_line` — the line of a record is read back.
* `Assembly.replayLine_operand`, `Assembly.replayLine_apply` — what the lines do to the trees.
-/

namespace Reckon

/-! ### Parts of a text -/

namespace Text

/-- What stands behind `front` in a text that starts with it. -/
def behind? (front text : String) : Option String :=
  (text.toList.dropPrefix? front.toList).map String.ofList

/-- What stands before `back` in a text that ends with it. -/
def before? (back text : String) : Option String :=
  (text.toList.dropSuffix? back.toList).map String.ofList

/-- What stands between `front` and `back` in a text that starts and ends so. -/
def between? (front back text : String) : Option String := (behind? front text).bind (before? back)

@[simp] theorem behind?_append (front text : String) :
    behind? front (front ++ text) = some text := by
  rw [behind?, String.toList_append, List.dropPrefix?_append_of_beq _ (beq_self_eq_true _),
    Option.map_some, String.ofList_toList]

/-- A text that starts otherwise does not start with `front`. -/
theorem behind?_append_of_not_prefix {front other : String} (text : String)
    (h : ¬front.toList <+: other.toList) (h' : ¬other.toList <+: front.toList) :
    behind? front (other ++ text) = none := by
  rw [behind?, Option.map_eq_none_iff, Option.eq_none_iff_forall_ne_some]
  intro rest hrest
  obtain ⟨start, heq, hstart⟩ := List.dropPrefix?_eq_some_iff.mp hrest
  rw [eq_of_beq hstart, String.toList_append] at heq
  rcases List.append_eq_append_iff.mp heq with ⟨more, hmore, -⟩ | ⟨more, hmore, -⟩
  · exact h' ⟨more, hmore.symm⟩
  · exact h ⟨more, hmore.symm⟩

@[simp] theorem before?_append (back text : String) : before? back (text ++ back) = some text := by
  have hdrop : (text ++ back).toList.dropSuffix? back.toList = some text.toList :=
    List.dropSuffix?_eq_some_iff.mpr ⟨back.toList, String.toList_append, beq_self_eq_true _⟩
  rw [before?, hdrop, Option.map_some, String.ofList_toList]

@[simp] theorem between?_append (front text back : String) :
    between? front back (front ++ text ++ back) = some text := by
  rw [between?, String.append_assoc, behind?_append, Option.bind_some, before?_append]

end Text

/-! ### Lines and their headings -/

namespace Assembly

/-- What a line may be about. -/
inductive Heading where
  /-- An operand is put aside. -/
  | operand
  /-- An operator is put aside. -/
  | operator
  /-- An operator is applied. -/
  | reduce
  /-- The expression is finished. -/
  | built
  deriving DecidableEq, Repr

namespace Heading

/-- The words that the line starts with. -/
def words : Heading → String
  | operand => "Push operand "
  | operator => "Push operator "
  | reduce => "Reduce "
  | built => "Built expression tree "

/-- How detailed the line is. -/
def level : Heading → Log.Level
  | operand | operator | reduce => .trace
  | built => .debug

/-- What a line is about, and what it says of that. -/
def read? (line : Log.Line) : Option (Heading × String) :=
  [operand, operator, reduce, built].findSome? fun heading =>
    if line.level = heading.level then
      (Text.behind? heading.words line.text).map fun said => (heading, said)
    else none

/-- The words of one heading are not the start of another's. -/
theorem not_prefix_words {heading other : Heading} (h : heading ≠ other) :
    ¬heading.words.toList <+: other.words.toList := by
  cases heading <;> cases other <;> first | exact absurd rfl h | decide

theorem behind?_words_of_ne {heading other : Heading} (h : heading ≠ other) (said : String) :
    Text.behind? heading.words (other.words ++ said) = none :=
  Text.behind?_append_of_not_prefix said (not_prefix_words h) (not_prefix_words h.symm)

/-- **No line has the words of two headings**, so a line that has those of one is about that. -/
theorem read?_mk (heading : Heading) (said : String) :
    read? ⟨heading.level, heading.words ++ said⟩ = some (heading, said) := by
  cases heading <;> simp [read?, level, behind?_words_of_ne]

end Heading

/-- The line is about one of these things. -/
def tellsOf (headings : List Heading) (line : Log.Line) : Bool :=
  (Heading.read? line).any fun told => headings.contains told.1

/-! ### The lines of records -/

/-- What a record is about. -/
def Record.heading : Record → Heading
  | operand _ => .operand
  | operator _ => .operator
  | apply _ _ _ => .reduce
  | finished _ => .built

/-- What the line of a record says behind its first words. -/
def Record.said : Record → String
  | operand token | operator token => token.quoted
  | apply lhs op rhs => lhs.infixText ++ " " ++ op.symbol ++ " " ++ rhs.infixText
  | finished expr => expr.infixText

theorem Record.text_eq (record : Record) :
    record.text = record.heading.words ++ record.said := by
  cases record with
  | operand token => rfl
  | operator token => rfl
  | apply lhs op rhs =>
    show "Reduce " ++ lhs.infixText ++ " " ++ op.symbol ++ " " ++ rhs.infixText =
      "Reduce " ++ (lhs.infixText ++ " " ++ op.symbol ++ " " ++ rhs.infixText)
    simp only [String.append_assoc]
  | finished expr => rfl

theorem Record.level_eq (record : Record) : record.level = record.heading.level := by
  cases record <;> rfl

/-- **The line of a record is read back.** -/
theorem Record.read?_line (record : Record) :
    Heading.read? record.line = some (record.heading, record.said) := by
  rw [line, level_eq, text_eq, Heading.read?_mk]

@[simp] theorem tellsOf_line (headings : List Heading) (record : Record) :
    tellsOf headings record.line = headings.contains record.heading := by
  rw [tellsOf, Record.read?_line, Option.any_some]

/-! ### Following the lines -/

/-- The trees behind a line, the last one first.  An operand is the text between the quotes.  An
operator takes its right side and then its left side from the stack, and is what stands between
their infix forms on the line.  When the expression is finished, it is the only tree. -/
def replayLine (trees : List Expr) (line : Log.Line) : Option (List Expr) :=
  match Heading.read? line with
  | some (.operand, said) =>
    (Text.between? "'" "'" said).map fun text => .operand text :: trees
  | some (.operator, _) => some trees
  | some (.reduce, said) =>
    match trees with
    | right :: left :: trees =>
      ((Text.between? (left.infixText ++ " ") (" " ++ right.infixText) said).bind
        Operator.ofSymbol?).map fun op => .binary left op right :: trees
    | _ => none
  | some (.built, said) => if trees.map Expr.infixText = [said] then some trees else none
  | none => none

variable (trees : List Expr) (token : Token) (left right : Expr) (op : Operator)

@[simp] theorem replayLine_operand :
    replayLine trees (Record.operand token).line = some (.operand token.text :: trees) := by
  have hquoted : Text.between? "'" "'" (Record.operand token).said = some token.text :=
    Text.between?_append "'" token.text "'"
  rw [replayLine, Record.read?_line, Record.heading]
  simp only [hquoted, Option.map_some]

@[simp] theorem replayLine_operator :
    replayLine trees (Record.operator token).line = some trees := by
  rw [replayLine, Record.read?_line, Record.heading]

@[simp] theorem replayLine_apply :
    replayLine (right :: left :: trees) (Record.apply left op right).line =
      some (.binary left op right :: trees) := by
  have hsymbol : Text.between? (left.infixText ++ " ") (" " ++ right.infixText)
      (Record.apply left op right).said = some op.symbol := by
    rw [← Text.between?_append (left.infixText ++ " ") op.symbol (" " ++ right.infixText)]
    simp only [Record.said, String.append_assoc]
  rw [replayLine, Record.read?_line, Record.heading]
  simp only [hsymbol, Option.bind_some, Operator.ofSymbol?_symbol, Option.map_some]

@[simp] theorem replayLine_finished (e : Expr) :
    replayLine [e] (Record.finished e).line = some [e] := by
  rw [replayLine, Record.read?_line, Record.heading]
  simp [Record.said]

/-! ### The lines of trees and tokens -/

/-- The lines of the construction from these tokens. -/
def lines (tokens : List Token) : List Log.Line := (Expr.assemble tokens).trace.map Record.line

/-- The line with which a construction ends, if there is an expression. -/
def endLines : Except SyntaxError Expr → List Log.Line
  | .ok e => [⟨.debug, "Built expression tree " ++ e.infixText⟩]
  | .error _ => []

end Assembly

open Assembly (Record)

/-- The line that tells of a tree when its last part is made. -/
def Expr.line : Expr → Log.Line
  | operand text => ⟨.trace, "Push operand '" ++ text ++ "'"⟩
  | binary lhs op rhs =>
    ⟨.trace, "Reduce " ++ lhs.infixText ++ " " ++ op.symbol ++ " " ++ rhs.infixText⟩

/-- The line that tells of a token when it is put aside.  There is none for a parenthesis. -/
def Token.line? (t : Token) : Option Log.Line :=
  match t.role with
  | .operand => some ⟨.trace, "Push operand '" ++ t.text ++ "'"⟩
  | .operator _ => some ⟨.trace, "Push operator '" ++ t.text ++ "'"⟩
  | .opening | .closing => none

theorem Token.append_quoted (t : Token) (front : String) :
    front ++ t.quoted = front ++ "'" ++ t.text ++ "'" := by
  simp only [quoted, String.append_assoc]

theorem Assembly.Record.line_operand (token : Token) :
    (Record.operand token).line = (Expr.operand token.text).line := by
  have htext : "Push operand " ++ token.quoted = "Push operand '" ++ token.text ++ "'" :=
    token.append_quoted "Push operand "
  exact congrArg (Log.Line.mk .trace) htext

theorem Assembly.Record.line_apply (lhs rhs : Expr) (op : Operator) :
    (Record.apply lhs op rhs).line = (Expr.binary lhs op rhs).line := rfl

theorem Token.line?_of_operand {t : Token} (ht : t.role = .operand) :
    t.line? = some (Record.operand t).line := by
  rw [line?, ht, Record.line_operand]
  rfl

theorem Token.line?_of_operator {t : Token} {op : Operator} (ht : t.role = .operator op) :
    t.line? = some (Record.operator t).line := by
  have htext : "Push operator '" ++ t.text ++ "'" = "Push operator " ++ t.quoted :=
    (t.append_quoted "Push operator ").symm
  rw [line?, ht]
  exact congrArg (fun text => some (Log.Line.mk .trace text)) htext

end Reckon
