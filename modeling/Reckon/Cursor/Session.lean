import Reckon.Cursor.Basic

/-!
# Reading with bookmarks

A session is a cursor that can be marked and brought back to an earlier mark.  Marks form
a stack, and the latest is restored first.

## Main definitions

* `Cursor.Session` — the current cursor and the marked ones.
* `Cursor.Move` — what can be done in a session.
* `Cursor.Session.step` — one move, with what it read.
-/

namespace Reckon.Cursor

/-- A cursor together with the places that were marked, latest first. -/
structure Session where
  current : Cursor
  marks : List Cursor
  deriving DecidableEq, Repr

/-- One move of a reading session. -/
inductive Move where
  /-- Read one character. -/
  | next
  /-- Look at one character. -/
  | peek
  /-- Remember the current place. -/
  | mark
  /-- Go back to the latest mark and forget it; without a mark, stay. -/
  | restore
  /-- Read the characters before the first that the test refuses. -/
  | readWhile (accept : List Char → Char → Bool)

/-- What a move read. -/
inductive Reading where
  | nothing
  | char (c : Option Char)
  | text (cs : List Char)
  deriving DecidableEq, Repr

namespace Session

/-- The session at the start of a text. -/
def ofString (source : String) : Session := ⟨.ofString source, []⟩

/-- Makes one move. -/
def step (s : Session) : Move → Reading × Session
  | .next => let (c, cursor) := s.current.next; (.char c, ⟨cursor, s.marks⟩)
  | .peek => (.char s.current.peek, s)
  | .mark => (.nothing, ⟨s.current, s.current :: s.marks⟩)
  | .restore =>
    match s.marks with
    | [] => (.nothing, s)
    | cursor :: marks => (.nothing, ⟨cursor, marks⟩)
  | .readWhile accept =>
    let (cs, cursor) := s.current.readWhile accept
    (.text cs, ⟨cursor, s.marks⟩)

/-- What each of a row of moves read, with the session after it. -/
def run (s : Session) : List Move → List (Reading × Session)
  | [] => []
  | move :: moves => let after := s.step move; after :: after.2.run moves

end Session

end Reckon.Cursor
