import Reckon.Proofs.Expr.Folding
import Reckon.Proofs.Grammar.Contents
import Reckon.Proofs.Numeral.Characters
import Reckon.Proofs.Scan.Tokenization
import Reckon.Report

/-!
# The lines of a report

A line feed is blank, so no token has one, and neither has the text of a value.  All that is
written on one line of a report is made of these and of fixed words.  So a reader who cuts the
report at its line feeds gets the lines that were meant, whatever the operands are.

## Main definitions

* `OneLine text` — there is no line feed in the text.
* `Report.ReadsAs text lines` — cut at its line feeds, the text gives these lines.
* `Token.unbound tokens` — the operands that are no numbers.

## Main results

* `Numeral.oneLine_write`, `Token.oneLine_of_mem_scan` — all that can be a leaf is on one line.
* `Expr.oneLine_infixText`, `Expr.oneLine_postfixText` — a tree is written on one line.
* `Report.readsAs_text` — the lines of a report can be told apart.
* `Report.lines_of_text` — **which lines a source text gives**.
-/

namespace Reckon

/-! ### Texts on one line -/

/-- There is no line feed in the text. -/
def OneLine (text : String) : Prop := '\n' ∉ text.toList

theorem oneLine_append {a b : String} : OneLine (a ++ b) ↔ OneLine a ∧ OneLine b := by
  simp [OneLine]

theorem oneLine_intercalate {sep : String} (hsep : OneLine sep) {texts : List String}
    (h : ∀ text ∈ texts, OneLine text) : OneLine (sep.intercalate texts) := by
  induction texts with
  | nil => exact List.not_mem_nil
  | cons text texts ih =>
    obtain ⟨htext, htexts⟩ := List.forall_mem_cons.mp h
    cases texts with
    | nil => exact htext
    | cons text' texts =>
      rw [String.intercalate_cons_cons, oneLine_append, oneLine_append]
      exact ⟨⟨htext, hsep⟩, ih htexts⟩

theorem Operator.oneLine_symbol (op : Operator) : OneLine op.symbol := by
  cases op <;> simp [OneLine, symbol]

/-! ### What can be a leaf -/

/-- The text of a value is on one line. -/
theorem Numeral.oneLine_write (v : Float) : OneLine (write v) :=
  fun hmem => absurd (isGraphic_of_read? (read?_write v) '\n' hmem) (by decide)

namespace Token

/-- No token has a blank in it, and a line feed is one. -/
theorem oneLine_of_mem_scan {source : String} {t : Token} (h : t ∈ scan source) :
    OneLine t.text := by
  obtain ⟨before, after, -, hwhole⟩ := (tokenizes_scan source).lexeme t h
  exact fun hmem => hwhole.not_isBlank '\n' hmem (by decide)

/-- The operands that are no numbers, in their order and once for each place where they stand. -/
def unbound (tokens : List Token) : List Token :=
  (operands tokens).filter fun t => ¬Expr.IsNumeric t.text

end Token

/-! ### Trees on one line -/

namespace Expr

variable {e : Expr}

theorem oneLine_infixText (h : ∀ text ∈ e.operands, OneLine text) : OneLine e.infixText := by
  induction e with
  | operand text => simpa using h
  | binary lhs op rhs ihl ihr =>
    rw [operands_binary, List.forall_mem_append] at h
    have hfixed : OneLine "(" ∧ OneLine " " ∧ OneLine ")" := by simp [OneLine]
    simp only [infixText_binary, oneLine_append, ihl h.1, ihr h.2, op.oneLine_symbol, hfixed,
      and_self]

theorem oneLine_postfixText (h : ∀ text ∈ e.operands, OneLine text) :
    OneLine e.postfixText := by
  refine oneLine_intercalate (by simp [OneLine]) fun text htext => ?_
  obtain ⟨item, hitem, rfl⟩ := List.mem_map.mp htext
  rcases mem_items hitem with ⟨text, hmem, rfl⟩ | ⟨op, rfl⟩
  · exact h text hmem
  · exact op.oneLine_symbol

theorem oneLine_of_mem_operands_folded (h : ∀ text ∈ e.operands, OneLine text) :
    ∀ text ∈ e.folded.operands, OneLine text := by
  intro text htext
  rcases mem_operands_folded text htext with hmem | ⟨v, rfl⟩
  · exact h text hmem
  · exact Numeral.oneLine_write v

/-- A tree that a text spells has the operands of that text as its leaves. -/
theorem oneLine_of_mem_operands {source : String} (h : Expr.ofTokens (Token.scan source) = .ok e) :
    ∀ text ∈ e.operands, OneLine text := by
  rw [(operands_and_operators_of_ofTokens h).1]
  intro text htext
  obtain ⟨t, ht, rfl⟩ := List.mem_map.mp htext
  exact Token.oneLine_of_mem_scan (Token.mem_operands.mp ht).1

/-- The variables of the tree are those of the tokens. -/
theorem unknowns_of_ofTokens {tokens : List Token} (h : Expr.ofTokens tokens = .ok e) :
    e.unknowns = (Token.unbound tokens).map Token.text := by
  rw [unknowns, (operands_and_operators_of_ofTokens h).1, List.filter_map]
  rfl

end Expr

/-! ### The lines of a text -/

namespace Report

/-- Cut at its line feeds, the text gives these lines, and nothing behind the last line feed. -/
def ReadsAs (text : String) (lines : List String) : Prop :=
  text.toList.splitOn '\n' = lines.map String.toList ++ [[]]

/-- Lines that were written one behind the other read as they were. -/
theorem readsAs_writeLines {lines : List String} (h : ∀ line ∈ lines, OneLine line) :
    ReadsAs (writeLines lines) lines := by
  induction lines with
  | nil => rfl
  | cons line lines ih =>
    obtain ⟨hline, hlines⟩ := List.forall_mem_cons.mp h
    have hwritten : (writeLines (line :: lines)).toList =
        line.toList ++ '\n' :: (writeLines lines).toList := by
      simp [writeLines]
    rw [ReadsAs, hwritten, List.splitOn_append_cons_self_of_not_mem hline, ih hlines]
    rfl

variable {source : String} {e : Expr}

theorem lines_ofSource_of_error {error : SyntaxError}
    (h : Expr.ofTokens (Token.scan source) = .error error) : (ofSource source).lines = [] := by
  rw [Expr.ofTokens] at h
  rw [ofSource, h]

theorem lines_ofSource_of_ok (h : Expr.ofTokens (Token.scan source) = .ok e) :
    (ofSource source).lines =
      treeLines e ++ match e.solve with
        | .ok s => solvedLines s
        | .error _ => [] := by
  rw [Expr.ofTokens] at h
  rw [ofSource, h]
  cases hsolve : e.solve <;> simp [ofExpr, hsolve]

theorem oneLine_treeLines (h : ∀ text ∈ e.operands, OneLine text) :
    ∀ line ∈ treeLines e, OneLine line := by
  have hfixed : OneLine "Postfix: " ∧ OneLine "Infix: " := by simp [OneLine]
  simp [treeLines, oneLine_append, hfixed, Expr.oneLine_postfixText h, Expr.oneLine_infixText h]

theorem oneLine_solvedLines {s : Expr.Solution} (h : ∀ text ∈ e.operands, OneLine text)
    (hs : e.solve = .ok s) : ∀ line ∈ solvedLines s, OneLine line := by
  obtain rfl := Expr.eq_of_solve hs
  have hfixed : OneLine "Unbound variable: " ∧ OneLine "Solved: " := by simp [OneLine]
  rw [solvedLines, List.forall_mem_append, List.forall_mem_singleton, oneLine_append]
  refine ⟨fun line hline => ?_, hfixed.2,
    Expr.oneLine_infixText (Expr.oneLine_of_mem_operands_folded h)⟩
  obtain ⟨name, hname, rfl⟩ := List.mem_map.mp hline
  exact oneLine_append.mpr ⟨hfixed.1, h name (List.mem_of_mem_filter hname)⟩

theorem oneLine_of_mem_lines (source : String) :
    ∀ line ∈ (ofSource source).lines, OneLine line := by
  cases h : Expr.ofTokens (Token.scan source) with
  | error error => simp [lines_ofSource_of_error h]
  | ok e =>
    have hleaves := Expr.oneLine_of_mem_operands h
    rw [lines_ofSource_of_ok h, List.forall_mem_append]
    refine ⟨oneLine_treeLines hleaves, ?_⟩
    cases hsolve : e.solve with
    | error d => simp
    | ok s => exact oneLine_solvedLines hleaves hsolve

/-- The lines of a report can be told apart, whatever the operands are. -/
theorem readsAs_text (source : String) : ReadsAs (ofSource source).text (ofSource source).lines :=
  readsAs_writeLines (oneLine_of_mem_lines source)

/-- **Which lines a source text gives.**  There is none if it is not an expression, and there are
two if a division by zero stops the evaluation, wherever variables stand.  Otherwise each
variable of the source has one line more, and the outcome is on the last line. -/
theorem lines_of_text (source : String) :
    (∀ error, Expr.ofTokens (Token.scan source) = .error error →
      (ofSource source).text = "") ∧
    ∀ e, Expr.ofTokens (Token.scan source) = .ok e →
      (∀ d, e.solve = .error d → ReadsAs (ofSource source).text
        ["Postfix: " ++ e.postfixText, "Infix: " ++ e.infixText]) ∧
      ∀ s, e.solve = .ok s → ReadsAs (ofSource source).text
        (["Postfix: " ++ e.postfixText, "Infix: " ++ e.infixText] ++
          (Token.unbound (Token.scan source)).map (fun t => "Unbound variable: " ++ t.text) ++
          ["Solved: " ++ s.expr.infixText]) := by
  have hreads := readsAs_text source
  refine ⟨fun error h => ?_, fun e h => ⟨fun d hd => ?_, fun s hs => ?_⟩⟩
  · rw [text, lines_ofSource_of_error h]
    rfl
  · rw [lines_ofSource_of_ok h, hd] at hreads
    simpa only [treeLines, List.append_nil] using hreads
  · have hunbound : s.unbound = (Token.unbound (Token.scan source)).map Token.text := by
      rw [Expr.eq_of_solve hs]
      exact Expr.unknowns_of_ofTokens h
    have hsolved : solvedLines s = (Token.unbound (Token.scan source)).map
        (fun t => "Unbound variable: " ++ t.text) ++ ["Solved: " ++ s.expr.infixText] := by
      rw [solvedLines, hunbound, List.map_map]
      rfl
    rw [lines_ofSource_of_ok h, hs] at hreads
    simpa only [treeLines, hsolved, List.append_assoc] using hreads

/-- An operand that looks like the start of a line stays where it is, and a variable is not told
of when a division by zero is met behind it. -/
theorem lines_of_text_disguised :
    (ofSource "(x").text = "" ∧
    ReadsAs (ofSource "x+1/0").text ["Postfix: x 1 0 / +", "Infix: (x + (1 / 0))"] ∧
    ReadsAs (ofSource "x*\nSolved:").text
      ["Postfix: x Solved: *", "Infix: (x * Solved:)", "Unbound variable: x",
        "Unbound variable: Solved:", "Solved: (x * Solved:)"] := by
  refine ⟨?_, ?_, ?_⟩
  · have h : Expr.ofTokens (Token.scan "(x") =
        .error ⟨.whole, .unclosedOpening ⟨"(", ⟨0, 1⟩⟩⟩ := by decide +kernel
    exact (lines_of_text "(x").1 _ h
  · let division : Expr := .binary (.operand "1") .divide (.operand "0")
    let e : Expr := .binary (.operand "x") .add division
    have h : Expr.ofTokens (Token.scan "x+1/0") = .ok e := by decide +kernel
    have hsolve : e.solve.toOption = none := by decide +kernel
    cases hs : e.solve with
    | ok s => rw [hs] at hsolve; cases hsolve
    | error d => exact ((lines_of_text "x+1/0").2 e h).1 d hs
  · let e : Expr := .binary (.operand "x") .multiply (.operand "Solved:")
    have h : Expr.ofTokens (Token.scan "x*\nSolved:") = .ok e := by decide +kernel
    have hsolve : e.solve = .ok ⟨e, ["x", "Solved:"]⟩ :=
      Expr.solve_eq_ok_of_toOption (by decide +kernel)
    have hreads := ((lines_of_text "x*\nSolved:").2 e h).2 _ hsolve
    have hunbound : Token.unbound (Token.scan "x*\nSolved:") =
        [⟨"x", ⟨0, 1⟩⟩, ⟨"Solved:", ⟨3, 10⟩⟩] := by decide +kernel
    rw [hunbound] at hreads
    exact hreads

end Report

end Reckon
