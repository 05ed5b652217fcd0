import Mathlib.Logic.Function.Basic
import Reckon.Cursor.Session
import Reckon.Proofs.Cursor.Lookahead

/-!
# Several readers of one text

A reader is a value, so a copy of it goes its own way.  Here the readers of a text stand under names,
and any of them may read, look ahead, or be put in the place of another, in any order.  What was
read through each of them is entered in a book, which a copy takes along.

## Main definitions

* `Cursor.Readers` — readers under names, with what the tests remember.
* `Cursor.Readers.Move`, `step`, `run` — what can be done with them.
* `Cursor.Readers.entered` — what was read through each reader, by the moves and their readings.
* `Cursor.Readers.Does` — what a move does to the reader it names, to the others and to the memory.
* `Cursor.Readers.ofMoves` — the moves of a session, as moves of readers.

## Main results

* `Cursor.Readers.does_step` — every move does what it is to do, from any state.
* `Cursor.Readers.accounted_run` — what was read and what is ahead make up the text, throughout.
* `Cursor.Readers.run_session` — a session is a row of moves of readers.
* `Cursor.Readers.accounted_ofString` — **all of it, for every text and every row of moves**.
-/

namespace Reckon.Cursor

/-- Readers under names, and what the tests of characters remember. -/
structure Readers (σ ι : Type*) where
  reader : ι → Lookahead
  memory : σ

namespace Readers

variable {σ ι : Type*}

/-- All readers at the start of a text. -/
def ofString (source : String) (memory : σ) : Readers σ ι := ⟨fun _ => .ofString source, memory⟩

/-- What can be done with readers. -/
inductive Move (σ ι : Type*) where
  /-- Read one character through a reader. -/
  | next (i : ι)
  /-- Look at one character through a reader. -/
  | peek (i : ι)
  /-- Read the characters before the first that the test refuses. -/
  | readWhile (i : ι) (test : Test σ)
  /-- Put a copy of the reader `i` under the name `j`.  Under a new name this marks a place, and
  under the name of a reader that has gone on it brings this one back. -/
  | copy (i j : ι)

section Steps

variable [DecidableEq ι]

/-- Puts a reader under a name, and something in the memory. -/
def put (readers : Readers σ ι) (i : ι) (reader : Lookahead) (memory : σ) : Readers σ ι :=
  ⟨Function.update readers.reader i reader, memory⟩

@[simp] theorem reader_put_self (readers : Readers σ ι) (i : ι) (reader : Lookahead) (memory : σ) :
    (readers.put i reader memory).reader i = reader :=
  Function.update_self ..

@[simp] theorem reader_put_of_ne (readers : Readers σ ι) {i k : ι} (reader : Lookahead)
    (memory : σ) (h : k ≠ i) : (readers.put i reader memory).reader k = readers.reader k :=
  Function.update_of_ne h ..

/-- Makes one move. -/
def step (readers : Readers σ ι) : Move σ ι → Reading × Readers σ ι
  | .next i =>
    let (c, reader) := (readers.reader i).next
    (.char c, readers.put i reader readers.memory)
  | .peek i =>
    let (c, reader) := (readers.reader i).peek
    (.char c, readers.put i reader readers.memory)
  | .readWhile i test =>
    let (cs, reader, memory) := (readers.reader i).readWhile test readers.memory
    (.text cs, readers.put i reader memory)
  | .copy i j => (.nothing, readers.put j (readers.reader i) readers.memory)

/-- What each of a row of moves read, and the readers at the end. -/
def run (readers : Readers σ ι) : List (Move σ ι) → List Reading × Readers σ ι
  | [] => ([], readers)
  | move :: moves =>
    let (reading, after) := readers.step move
    let (readings, last) := after.run moves
    (reading :: readings, last)

/-- Enters in the books what a move read.  A copy takes its book along. -/
def enter (books : ι → List Char) : Move σ ι × Reading → ι → List Char
  | (.next i, .char c) => Function.update books i (books i ++ c.toList)
  | (.readWhile i _, .text cs) => Function.update books i (books i ++ cs)
  | (.copy i j, _) => Function.update books j (books i)
  | _ => books

/-- The books after a row of moves with their readings. -/
def entered (entries : List (Move σ ι × Reading)) : ι → List Char :=
  entries.foldl enter fun _ => []

end Steps

/-! ### What a move does -/

/-- Some characters were read through one reader, and all others are as they were. -/
structure Reads (readers after : Readers σ ι) (i : ι) (cs : List Char) : Prop where
  advances : (readers.reader i).Advances (after.reader i) cs
  others : ∀ k, k ≠ i → after.reader k = readers.reader k

/-- What a move is to do, by what it reads. -/
inductive Does (readers after : Readers σ ι) : Move σ ι → Reading → Prop where
  /-- The first character ahead is read, if there is one. -/
  | next {i : ι} (hreads : readers.Reads after i (readers.reader i).ahead.head?.toList)
      (hmemory : after.memory = readers.memory) :
      Does readers after (.next i) (.char (readers.reader i).ahead.head?)
  /-- The first character ahead is seen, and none is read. -/
  | peek {i : ι} (hreads : readers.Reads after i []) (hmemory : after.memory = readers.memory) :
      Does readers after (.peek i) (.char (readers.reader i).ahead.head?)
  /-- The characters are read up to where the test cuts the text. -/
  | readWhile {i : ι} {test : Test σ} {cs : List Char} (hreads : readers.Reads after i cs)
      (hcuts : test.Cuts readers.memory cs (after.reader i).ahead after.memory) :
      Does readers after (.readWhile i test) (.text cs)
  /-- The copy is what it was made of, and nothing is read. -/
  | copy {i j : ι} (hcopy : after.reader j = readers.reader i)
      (hothers : ∀ k, k ≠ j → after.reader k = readers.reader k)
      (hmemory : after.memory = readers.memory) :
      Does readers after (.copy i j) .nothing

section Steps

variable [DecidableEq ι] {readers after : Readers σ ι} {i j : ι} {cs : List Char}

theorem reads_put {reader : Lookahead} (h : (readers.reader i).Advances reader cs) (memory : σ) :
    readers.Reads (readers.put i reader memory) i cs where
  advances := by rwa [reader_put_self]
  others _ hk := reader_put_of_ne readers reader memory hk

/-- **Every move does what it is to do.** -/
theorem does_step (readers : Readers σ ι) (move : Move σ ι) :
    readers.Does (readers.step move).2 move (readers.step move).1 := by
  cases move with
  | next i =>
    have hreads := reads_put (readers.reader i).advances_next readers.memory
    show readers.Does _ _ (.char (readers.reader i).next.1)
    rw [Lookahead.next_fst]
    exact .next hreads rfl
  | peek i =>
    have hreads := reads_put (readers.reader i).advances_peek readers.memory
    show readers.Does _ _ (.char (readers.reader i).peek.1)
    rw [Lookahead.peek_fst]
    exact .peek hreads rfl
  | readWhile i test =>
    have hreads := reads_put ((readers.reader i).advances_readWhile test readers.memory)
      ((readers.reader i).readWhile test readers.memory).2.2
    refine .readWhile hreads ?_
    show test.Cuts _ _ ((readers.put i _ _).reader i).ahead _
    rw [reader_put_self]
    exact (readers.reader i).cuts_readWhile test readers.memory
  | copy i j =>
    exact .copy (reader_put_self ..) (fun _ hk => reader_put_of_ne _ _ _ hk) rfl

/-! ### The books -/

/-- Each reader stands where its book says. -/
def Accounted (readers : Readers σ ι) (source : String) (books : ι → List Char) : Prop :=
  ∀ i, (readers.reader i).Stands source (books i)

variable {source : String} {books : ι → List Char} {read : List Char}

/-- The books of the readers that are as they were stay right. -/
theorem Accounted.update (h : readers.Accounted source books)
    (hread : (after.reader i).Stands source read)
    (hothers : ∀ k, k ≠ i → after.reader k = readers.reader k) :
    after.Accounted source (Function.update books i read) := by
  intro k
  by_cases hk : k = i
  · subst hk
    rwa [Function.update_self]
  · rw [Function.update_of_ne hk, hothers k hk]
    exact h k

theorem Accounted.reads (h : readers.Accounted source books) (hreads : readers.Reads after i cs) :
    after.Accounted source (Function.update books i (books i ++ cs)) :=
  h.update ((h i).advance hreads.advances) hreads.others

/-- The books stay right when a move is entered that does what it is to do. -/
theorem Accounted.enter {move : Move σ ι} {reading : Reading} (h : readers.Accounted source books)
    (hdoes : readers.Does after move reading) :
    after.Accounted source (enter books (move, reading)) := by
  cases hdoes with
  | next hreads _ => exact h.reads hreads
  | peek hreads _ =>
    -- nothing is entered, and nothing was read
    have hsame := h.reads hreads
    rwa [List.append_nil, Function.update_eq_self] at hsame
  | readWhile hreads _ => exact h.reads hreads
  | @copy i _ hcopy hothers _ => exact h.update (hcopy ▸ h i) hothers

/-- **What was read and what is ahead make up the text, throughout.** -/
theorem accounted_run (h : readers.Accounted source books) (moves : List (Move σ ι)) :
    (readers.run moves).2.Accounted source
      ((moves.zip (readers.run moves).1).foldl Readers.enter books) := by
  induction moves generalizing readers books with
  | nil => exact h
  | cons move moves ih => exact ih (h.enter (readers.does_step move))

/-- A copy takes along the character that is held, and two are read before it is brought back. -/
example : ((ofString "é+" () : Readers Unit ℕ).run
      [.peek 0, .copy 0 1, .next 0, .next 0, .copy 1 0, .next 0]).1 =
    [.char 'é', .nothing, .char 'é', .char '+', .nothing, .char 'é'] := by
  decide

end Steps

/-! ### Sessions -/

/-- A move of a session as a move of readers.  The cursor of the session is reader `0`, and the
places that are marked are the readers from `1` on, the latest last. -/
def ofMove (marks : ℕ) : Cursor.Move → Move (List Char) ℕ
  | .next => .next 0
  | .peek => .peek 0
  | .mark => .copy 0 (marks + 1)
  | .restore => .copy marks 0
  | .readWhile accept => .readWhile 0 (.ofAccept accept)

/-- The moves of a session as moves of readers. -/
def ofMoves (s : Session) : List Cursor.Move → List (Move (List Char) ℕ)
  | [] => []
  | move :: moves => ofMove s.marks.length move :: ofMoves (s.step move).2 moves

/-- The readers stand where the cursor and the marks of a session are. -/
structure Seats (readers : Readers σ ℕ) (s : Session) : Prop where
  current : (readers.reader 0).toCursor = s.current
  marked : ∀ mark marks, mark :: marks <:+ s.marks →
    (readers.reader (marks.length + 1)).toCursor = mark

theorem seats_ofString (source : String) (memory : σ) :
    (ofString source memory).Seats (.ofString source) where
  current := Lookahead.toCursor_ofString source
  marked mark marks h := by simp [Session.ofString] at h

variable {readers : Readers (List Char) ℕ} {s : Session}

/-- The cursor of a session may go anywhere, and marks may be forgotten. -/
theorem Seats.put_zero (h : readers.Seats s) (memory : List Char) (reader : Lookahead)
    {marks : List Cursor} (hmarks : marks <:+ s.marks) :
    (readers.put 0 reader memory).Seats ⟨reader.toCursor, marks⟩ where
  current := by rw [reader_put_self]
  marked mark marks' hmark := by
    rw [reader_put_of_ne _ _ _ (Nat.succ_ne_zero _)]
    exact h.marked mark marks' (hmark.trans hmarks)

/-- A new mark is the last reader, so no mark that is set before it is lost. -/
theorem Seats.put_mark (h : readers.Seats s) (memory : List Char) :
    (readers.put (s.marks.length + 1) (readers.reader 0) memory).Seats
      ⟨s.current, s.current :: s.marks⟩ where
  current := by
    rw [reader_put_of_ne _ _ _ (Nat.succ_ne_zero _).symm]
    exact h.current
  marked mark marks hmark := by
    rcases List.suffix_cons_iff.mp hmark with heq | hmark
    · cases heq
      rw [reader_put_self]
      exact h.current
    · have hlength := hmark.length_le
      rw [List.length_cons] at hlength
      rw [reader_put_of_ne _ _ _ (by omega)]
      exact h.marked mark marks hmark

/-- A move of a session is a move of the readers. -/
theorem Seats.step (h : readers.Seats s) (move : Cursor.Move) :
    (s.step move).1 = (readers.step (ofMove s.marks.length move)).1 ∧
      (readers.step (ofMove s.marks.length move)).2.Seats (s.step move).2 := by
  cases move with
  | next =>
    have hnext := (readers.reader 0).toCursor_next
    rw [h.current] at hnext
    rw [Session.step, ← hnext]
    exact ⟨rfl, h.put_zero _ _ List.suffix_rfl⟩
  | peek =>
    have hpeek := (readers.reader 0).toCursor_peek
    rw [h.current] at hpeek
    obtain ⟨hchar, hcursor⟩ := Prod.mk.inj hpeek
    refine ⟨congrArg Reading.char hchar.symm, ?_⟩
    show Seats _ ⟨s.current, s.marks⟩
    rw [← hcursor]
    exact h.put_zero _ _ List.suffix_rfl
  | mark => exact ⟨rfl, h.put_mark _⟩
  | restore =>
    obtain ⟨current, marks⟩ := s
    cases marks with
    | nil =>
      -- with no mark set, the reader is put in its own place
      have hstay := h.put_zero readers.memory (readers.reader 0) List.suffix_rfl
      rw [h.current] at hstay
      exact ⟨rfl, hstay⟩
    | cons mark marks =>
      have hback := h.put_zero readers.memory (readers.reader (marks.length + 1))
        (List.suffix_cons mark marks)
      rw [h.marked mark marks List.suffix_rfl] at hback
      exact ⟨rfl, hback⟩
  | readWhile accept =>
    have hread := (readers.reader 0).toCursor_readWhile (.ofAccept accept) readers.memory
    rw [Test.accepts_ofAccept, h.current] at hread
    rw [Session.step, ← hread]
    exact ⟨rfl, h.put_zero _ _ List.suffix_rfl⟩

/-- **A session is a row of moves of readers.** -/
theorem run_session (h : readers.Seats s) (moves : List Cursor.Move) :
    (s.run moves).map Prod.fst = (readers.run (ofMoves s moves)).1 ∧
      ((s.run moves).map (·.2.current)).getLastD s.current =
        ((readers.run (ofMoves s moves)).2.reader 0).toCursor := by
  induction moves generalizing readers s with
  | nil => exact ⟨rfl, h.current.symm⟩
  | cons move moves ih =>
    obtain ⟨hreading, hafter⟩ := h.step move
    obtain ⟨hreadings, hlast⟩ := ih hafter
    refine ⟨congrArg₂ List.cons hreading hreadings, ?_⟩
    rw [Session.run, List.map_cons, List.getLastD_cons]
    exact hlast

/-- **Readers account for the text, whatever is done with them.**  What was read through each of
them and what is ahead of it make up the text, and its position counts the bytes that were read.
From any state a move does to one reader what it is to do, and nothing to the others.  What a
session reads, and where its cursor ends, is what such moves read and where a reader ends. -/
theorem accounted_ofString [DecidableEq ι] (source : String) (memory : σ) :
    (∀ moves : List (Move σ ι), ((ofString source memory).run moves).2.Accounted source
        (entered (moves.zip ((ofString source memory).run moves).1))) ∧
      (∀ (readers : Readers σ ι) (move : Move σ ι),
        readers.Does (readers.step move).2 move (readers.step move).1) ∧
        ∀ moves : List Cursor.Move,
          let session := (Session.ofString source).run moves
          let readers := (ofString source []).run (ofMoves (.ofString source) moves)
          session.map Prod.fst = readers.1 ∧
            (session.map (·.2.current)).getLastD (.ofString source) =
              (readers.2.reader 0).toCursor := by
  refine ⟨fun moves => ?_, does_step, fun moves => ?_⟩
  · exact accounted_run (fun _ => Lookahead.stands_ofString source) moves
  · exact run_session (seats_ofString source []) moves

end Readers

end Reckon.Cursor
