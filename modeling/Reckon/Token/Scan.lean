import Reckon.Cursor.Basic
import Reckon.Text.Blank
import Reckon.Token.Basic

/-!
# Splitting a text into tokens

Blank characters separate tokens and belong to none.  A symbol — one of the operators or a
parenthesis — is a token of its own; every other run of characters is one operand.  Nothing
is checked here: whether the tokens make up an expression is decided later.

## Main definitions

* `Token.isSymbol`, `Token.isPlain` — the classes of characters.
* `Token.scanNext?` — the next token behind a cursor, if there is one.
* `Token.scan` — all tokens of a text, in order.

## Main results

* `Token.length_rest_lt_of_scanNext?` — a token takes at least one character, which is why
  scanning ends.
-/

namespace Reckon.Token

/-- Whether a character is always a token of its own. -/
def isSymbol (c : Char) : Bool :=
  c == '+' || c == '-' || c == '*' || c == '/' || c == '^' || c == '(' || c == ')'

/-- Whether a character can be part of an operand. -/
def isPlain (c : Char) : Bool :=
  !Text.isBlank c && !isSymbol c

/-- Skips blanks and reads one token.  The answer is `none` at the end of the text. -/
def scanNext? (c : Cursor) : Option (Token × Cursor) :=
  let first := (c.readWhile fun _ => Text.isBlank).2
  match first.peek with
  | none => none
  | some ch =>
    let (text, last) :=
      if isSymbol ch then ([ch], first.next.2)
      else first.readWhile fun _ => isPlain
    some (⟨String.ofList text, ⟨first.position, last.position⟩⟩, last)

theorem length_rest_lt_of_scanNext? {c c' : Cursor} {t : Token}
    (h : scanNext? c = some (t, c')) : c'.rest.length < c.rest.length := by
  simp only [scanNext?, Cursor.readWhile, Cursor.splitWhile_const, Cursor.peek] at h
  have hskip : (c.rest.dropWhile Text.isBlank).length ≤ c.rest.length :=
    (List.dropWhile_sublist _).length_le
  cases hrest : c.rest.dropWhile Text.isBlank with
  | nil => simp [hrest] at h
  | cons ch cs =>
    have hblank : Text.isBlank ch = false := by
      have := List.head?_dropWhile_not Text.isBlank c.rest
      rw [hrest] at this
      simpa using this
    rw [hrest] at h hskip
    simp only [List.head?_cons, Option.some.injEq] at h
    by_cases hsymbol : isSymbol ch
    · simp only [hsymbol, if_true, Cursor.next, Prod.mk.injEq] at h
      rw [← h.2]
      exact hskip
    · have hoperand : isPlain ch = true := by
        simp [isPlain, hblank, hsymbol]
      simp only [hsymbol, if_false, Bool.false_eq_true, Prod.mk.injEq] at h
      rw [← h.2]
      have hrun : (cs.dropWhile isPlain).length ≤ cs.length :=
        (List.dropWhile_sublist _).length_le
      simp only [List.dropWhile_cons, hoperand, if_true, List.length_cons] at hskip ⊢
      omega

/-- The tokens behind a cursor. -/
def scanFrom (c : Cursor) : List Token :=
  match _h : scanNext? c with
  | none => []
  | some (t, c') => t :: scanFrom c'
termination_by c.rest.length
decreasing_by exact length_rest_lt_of_scanNext? _h

/-- The tokens of a text, in order. -/
def scan (source : String) : List Token := scanFrom (.ofString source)

end Reckon.Token
