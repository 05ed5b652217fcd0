import Reckon.Text.Bytes

/-!
# Reading a text from left to right

A cursor stands somewhere in a source text: it holds the characters still to be read and
the byte position reached.  It is a value, so looking ahead needs no undoing: an earlier
cursor stays where it was.

## Main definitions

* `Cursor` — the rest of the text and the position.
* `Cursor.peek`, `Cursor.next` — look at the next character, or read it.
* `Cursor.readWhile accept` — read as long as `accept` agrees.  The test is asked once for
  each character in order, and is shown the characters accepted before it, so it may count
  or remember.

## Main results

* `Cursor.splitWhile_append` — reading loses no character.
* `Cursor.splitWhile_const` — a test that remembers nothing cuts as `takeWhile` and
  `dropWhile` do.
-/

namespace Reckon

/-- A place in a source text. -/
structure Cursor where
  /-- The characters not read yet. -/
  rest : List Char
  /-- The number of bytes read. -/
  position : Nat
  deriving DecidableEq, Repr

namespace Cursor

/-- Cuts a text before the first character that `accept` refuses.  The test is also shown
the characters accepted before, latest first; `seen` holds those. -/
def splitWhile (accept : List Char → Char → Bool) :
    List Char → List Char → List Char × List Char
  | _, [] => ([], [])
  | seen, c :: cs =>
    if accept seen c then
      let (taken, left) := splitWhile accept (c :: seen) cs
      (c :: taken, left)
    else ([], c :: cs)

section

variable {accept : List Char → Char → Bool} {seen cs : List Char} {c : Char}

theorem splitWhile_of_accept (h : accept seen c = true) :
    splitWhile accept seen (c :: cs) =
      (c :: (splitWhile accept (c :: seen) cs).1, (splitWhile accept (c :: seen) cs).2) := by
  rw [splitWhile, if_pos h]

theorem splitWhile_of_refuse (h : accept seen c = false) :
    splitWhile accept seen (c :: cs) = ([], c :: cs) := by
  rw [splitWhile, h, if_neg Bool.false_ne_true]

end

theorem splitWhile_append (accept : List Char → Char → Bool) (seen cs : List Char) :
    (splitWhile accept seen cs).1 ++ (splitWhile accept seen cs).2 = cs := by
  induction cs generalizing seen with
  | nil => rfl
  | cons c cs ih =>
    cases h : accept seen c with
    | true =>
      rw [splitWhile_of_accept h]
      exact congrArg (c :: ·) (ih (c :: seen))
    | false => rw [splitWhile_of_refuse h, List.nil_append]

theorem splitWhile_const (p : Char → Bool) (seen cs : List Char) :
    splitWhile (fun _ => p) seen cs = (cs.takeWhile p, cs.dropWhile p) := by
  induction cs generalizing seen with
  | nil => rfl
  | cons c cs ih =>
    cases h : p c with
    | true =>
      rw [splitWhile_of_accept h, ih (c :: seen)]
      simp [h]
    | false =>
      rw [splitWhile_of_refuse h]
      simp [h]

/-- The cursor at the start of a text. -/
def ofString (source : String) : Cursor := ⟨source.toList, 0⟩

/-- The next character, if there is one. -/
def peek (c : Cursor) : Option Char := c.rest.head?

/-- Reads one character.  At the end of the text the cursor stays where it is. -/
def next (c : Cursor) : Option Char × Cursor :=
  match c.rest with
  | [] => (none, c)
  | ch :: rest => (some ch, ⟨rest, c.position + ch.utf8Size⟩)

/-- Reads the characters before the first one that `accept` refuses. -/
def readWhile (accept : List Char → Char → Bool) (c : Cursor) : List Char × Cursor :=
  let (taken, rest) := splitWhile accept [] c.rest
  (taken, ⟨rest, c.position + Text.byteLength taken⟩)

end Cursor

end Reckon
