import Mathlib.Data.List.Induction
import Reckon.Cursor.Basic

/-!
# Looking ahead by taking

A text that gives its characters one at a time cannot be looked at without taking a character from
it.  So a look keeps what it took until it is asked for, and the count of bytes read must not move
before that.  What was kept and what the text still has make up what is ahead, and by that such a
reader is a cursor.

## Main definitions

* `Cursor.Test` — a test of characters that may remember what it was asked.
* `Cursor.Supply` — the characters of a text, one at a time, with what a look took.
* `Cursor.Lookahead` — a supply with the number of bytes read.
* `Cursor.Lookahead.toCursor` — the cursor that such a reader stands for.
* `Cursor.Test.Cuts` — where a test ends a piece of text, and what it remembers then.

## Main results

* `Cursor.Lookahead.toCursor_next`, `toCursor_peek`, `toCursor_readWhile` — a reader does what its
  cursor does.
* `Cursor.Lookahead.cuts_readWhile` — **reading stops where the test first refuses**, and the test
  is asked once for each character up to there.
-/

namespace Reckon.Cursor

open Text (byteLength byteLength_append byteLength_cons)

/-! ### Tests with a memory -/

/-- A test of characters that may remember what it was asked, and what earlier tests were. -/
structure Test (σ : Type*) where
  /-- What is remembered before the first character, given what earlier tests left. -/
  start : σ → σ
  /-- The answer about a character, and what is remembered then. -/
  ask : σ → Char → Bool × σ

namespace Test

variable {σ : Type*}

/-- What is remembered once the test was asked about some characters, each once and in order. -/
def after (test : Test σ) (memory : σ) (cs : List Char) : σ :=
  cs.foldl (fun memory c => (test.ask memory c).2) (test.start memory)

theorem after_concat (test : Test σ) (memory : σ) (cs : List Char) (c : Char) :
    test.after memory (cs ++ [c]) = (test.ask (test.after memory cs) c).2 := by
  rw [after, List.foldl_append, List.foldl_cons, List.foldl_nil, after]

/-- The answer about a character behind others that were accepted, latest first. -/
def accepts (test : Test σ) (memory : σ) (seen : List Char) (c : Char) : Bool :=
  (test.ask (test.after memory seen.reverse) c).1

/-- The test that remembers what it was asked, latest first, and answers by that. -/
def ofAccept (accept : List Char → Char → Bool) : Test (List Char) where
  start _ := []
  ask seen c := (accept seen c, c :: seen)

theorem after_ofAccept (accept : List Char → Char → Bool) (memory cs : List Char) :
    (ofAccept accept).after memory cs = cs.reverse := by
  induction cs using List.reverseRecOn with
  | nil => rfl
  | append_singleton cs c ih => rw [after_concat, ih, List.reverse_concat]; rfl

@[simp] theorem accepts_ofAccept (accept : List Char → Char → Bool) (memory : List Char) :
    (ofAccept accept).accepts memory = accept := by
  funext seen c
  rw [accepts, after_ofAccept, List.reverse_reverse]
  rfl

/-- A text is cut before the first character that the test refuses, or at its end.  The test is
asked about each character up to there, the refused one included, and about no other. -/
structure Cuts (test : Test σ) (memory : σ) (taken left : List Char) (memory' : σ) : Prop where
  accepted : ∀ before c after, taken = before ++ c :: after →
    (test.ask (test.after memory before) c).1 = true
  refused : ∀ c ∈ left.head?, (test.ask (test.after memory taken) c).1 = false
  memory_eq : memory' = test.after memory (taken ++ left.head?.toList)

end Test

/-! ### Where a text is cut -/

variable {accept : List Char → Char → Bool} {seen cs : List Char} {c : Char}

/-- Each character before the cut was accepted, by what was seen before it. -/
theorem accept_of_splitWhile {before after : List Char}
    (h : (splitWhile accept seen cs).1 = before ++ c :: after) :
    accept (before.reverse ++ seen) c = true := by
  induction cs generalizing seen before with
  | nil => cases before <;> cases h
  | cons d cs ih =>
    cases haccept : accept seen d with
    | false => rw [splitWhile_of_refuse haccept] at h; cases before <;> cases h
    | true =>
      rw [splitWhile_of_accept haccept] at h
      cases before with
      | nil => cases h; exact haccept
      | cons e before =>
        rw [List.cons_append, List.cons.injEq] at h
        obtain ⟨rfl, h⟩ := h
        rw [List.reverse_cons, List.append_assoc]
        exact ih h

/-- The character behind the cut was refused. -/
theorem refuse_of_splitWhile (h : c ∈ (splitWhile accept seen cs).2.head?) :
    accept ((splitWhile accept seen cs).1.reverse ++ seen) c = false := by
  induction cs generalizing seen with
  | nil => cases h
  | cons d cs ih =>
    cases haccept : accept seen d with
    | false => rw [splitWhile_of_refuse haccept] at h ⊢; cases h; exact haccept
    | true =>
      rw [splitWhile_of_accept haccept] at h ⊢
      rw [List.reverse_cons, List.append_assoc]
      exact ih h

/-- Where the answers of a test cut a text, the test itself does. -/
theorem Test.cuts_splitWhile {σ : Type*} (test : Test σ) (memory : σ) (cs : List Char) :
    let cut := splitWhile (test.accepts memory) [] cs
    test.Cuts memory cut.1 cut.2 (test.after memory (cut.1 ++ cut.2.head?.toList)) where
  accepted before c after h := by
    simpa [Test.accepts] using accept_of_splitWhile h
  refused c h := by
    simpa [Test.accepts] using refuse_of_splitWhile h
  memory_eq := rfl

/-! ### A supply of characters -/

/-- The characters of a text, given one at a time.  What a look took is held until it is asked
for; it is `some none` once a look has found the end. -/
structure Supply where
  held : Option (Option Char)
  rest : List Char
  rest_eq_nil : held = some none → rest = []

namespace Supply

/-- The supply of a text. -/
def ofList (cs : List Char) : Supply := ⟨none, cs, by simp⟩

/-- The characters that are still to be given. -/
def ahead (supply : Supply) : List Char := supply.held.join.toList ++ supply.rest

/-- Gives the next character: the one that is held, or else one of the text. -/
def next (supply : Supply) : Option Char × Supply :=
  match supply.held with
  | some c => (c, ⟨none, supply.rest, by simp⟩)
  | none => (supply.rest.head?, ⟨none, supply.rest.tail, by simp⟩)

/-- Looks at the next character.  If none is held, one is taken from the text. -/
def peek (supply : Supply) : Option Char × Supply :=
  match supply.held with
  | some c => (c, supply)
  | none =>
    (supply.rest.head?, ⟨some supply.rest.head?, supply.rest.tail, by cases supply.rest <;> simp⟩)

/-- What is given is the first character ahead. -/
theorem next_fst (supply : Supply) : supply.next.1 = supply.ahead.head? := by
  rcases supply with ⟨_ | _ | c, rest, hrest⟩
  · rfl
  · -- the end was found, so the text has nothing more
    cases hrest rfl
    rfl
  · rfl

@[simp] theorem ahead_next (supply : Supply) : supply.next.2.ahead = supply.ahead.tail := by
  rcases supply with ⟨_ | _ | c, rest, hrest⟩
  · rfl
  · cases hrest rfl
    rfl
  · rfl

/-- What is seen is the first character ahead. -/
theorem peek_fst (supply : Supply) : supply.peek.1 = supply.ahead.head? := by
  rcases supply with ⟨_ | _ | c, rest, hrest⟩
  · rfl
  · cases hrest rfl
    rfl
  · rfl

/-- What a look takes stays ahead. -/
@[simp] theorem ahead_peek (supply : Supply) : supply.peek.2.ahead = supply.ahead := by
  rcases supply with ⟨_ | _ | c, rest, hrest⟩
  · cases rest <;> rfl
  · rfl
  · rfl

end Supply

/-! ### A supply with a position -/

/-- A supply of characters with the number of bytes read. -/
structure Lookahead where
  supply : Supply
  position : Nat

namespace Lookahead

/-- The reader at the start of a text. -/
def ofString (source : String) : Lookahead := ⟨.ofList source.toList, 0⟩

/-- The characters not read yet. -/
def ahead (reader : Lookahead) : List Char := reader.supply.ahead

/-- The cursor that a reader stands for. -/
def toCursor (reader : Lookahead) : Cursor := ⟨reader.ahead, reader.position⟩

/-- The next character, if there is one. -/
def peek (reader : Lookahead) : Option Char × Lookahead :=
  let (c, supply) := reader.supply.peek
  (c, ⟨supply, reader.position⟩)

/-- Reads one character.  At the end of the text the position stays. -/
def next (reader : Lookahead) : Option Char × Lookahead :=
  match reader.supply.next with
  | (none, supply) => (none, ⟨supply, reader.position⟩)
  | (some c, supply) => (some c, ⟨supply, reader.position + c.utf8Size⟩)

@[simp] theorem toCursor_ofString (source : String) :
    (ofString source).toCursor = Cursor.ofString source := rfl

theorem peek_fst (reader : Lookahead) : reader.peek.1 = reader.ahead.head? :=
  reader.supply.peek_fst

theorem peek_eq (reader : Lookahead) : reader.peek = (reader.ahead.head?, reader.peek.2) :=
  Prod.ext reader.peek_fst rfl

@[simp] theorem ahead_peek (reader : Lookahead) : reader.peek.2.ahead = reader.ahead :=
  reader.supply.ahead_peek

/-- To look at a character leaves the cursor where it is. -/
theorem toCursor_peek (reader : Lookahead) :
    (reader.peek.1, reader.peek.2.toCursor) = (reader.toCursor.peek, reader.toCursor) := by
  rw [toCursor, ahead_peek, peek_fst]
  rfl

theorem next_eq (reader : Lookahead) :
    reader.next = (reader.ahead.head?, ⟨reader.supply.next.2,
      reader.position + byteLength reader.ahead.head?.toList⟩) := by
  rw [ahead, ← Supply.next_fst, next]
  cases reader.supply.next with
  | mk found supply => cases found <;> rfl

theorem next_fst (reader : Lookahead) : reader.next.1 = reader.ahead.head? := by
  rw [next_eq]

@[simp] theorem ahead_next (reader : Lookahead) : reader.next.2.ahead = reader.ahead.tail := by
  rw [next_eq]
  exact reader.supply.ahead_next

@[simp] theorem position_next (reader : Lookahead) :
    reader.next.2.position = reader.position + byteLength reader.ahead.head?.toList := by
  rw [next_eq]

/-- To read a character is to move the cursor. -/
theorem toCursor_next (reader : Lookahead) :
    (reader.next.1, reader.next.2.toCursor) = reader.toCursor.next := by
  rw [toCursor, ahead_next, position_next, next_fst, toCursor]
  cases reader.ahead <;> rfl

/-! ### Reading as long as a test agrees -/

variable {σ : Type*} {test : Test σ} {memory memory' : σ} {reader looked : Lookahead} {c : Char}
  {cs : List Char}

/-- Reads on before the first character that the test refuses.  Each is looked at, and read once
the test agrees. -/
def readOn (test : Test σ) (reader : Lookahead) (memory : σ) : List Char × Lookahead × σ :=
  match _h : reader.peek with
  | (none, looked) => ([], looked, memory)
  | (some c, looked) =>
    match test.ask memory c with
    | (false, memory) => ([], looked, memory)
    | (true, memory) =>
      let (cs, last) := looked.next.2.readOn test memory
      (c :: cs, last)
termination_by reader.ahead.length
decreasing_by
  -- a look loses nothing, and what it found is read
  have hlooked : looked.ahead = reader.ahead := by rw [← ahead_peek reader, _h]
  have hfound : reader.ahead.head? = some c := by rw [← peek_fst reader, _h]
  rw [ahead_next, hlooked, List.length_tail]
  exact Nat.sub_one_lt_of_lt (List.length_pos_of_mem (List.mem_of_head? hfound))

/-- Reads the characters before the first one that the test refuses. -/
def readWhile (test : Test σ) (reader : Lookahead) (memory : σ) : List Char × Lookahead × σ :=
  reader.readOn test (test.start memory)

theorem readOn_of_none (h : reader.peek = (none, looked)) :
    reader.readOn test memory = ([], looked, memory) := by
  rw [readOn, h]

theorem readOn_of_refused (h : reader.peek = (some c, looked))
    (hask : test.ask memory c = (false, memory')) :
    reader.readOn test memory = ([], looked, memory') := by
  rw [readOn, h]
  simp only [hask]

theorem readOn_of_accepted (h : reader.peek = (some c, looked))
    (hask : test.ask memory c = (true, memory')) :
    reader.readOn test memory =
      (c :: (looked.next.2.readOn test memory').1, (looked.next.2.readOn test memory').2) := by
  rw [readOn.eq_def test reader, h]
  simp only [hask]

/-- What reading on comes to.  The characters in `seen` were accepted before, latest first. -/
theorem readOn_eq (test : Test σ) (memory : σ) (seen : List Char) (reader : Lookahead) :
    let cut := splitWhile (test.accepts memory) seen reader.ahead
    let answer := reader.readOn test (test.after memory seen.reverse)
    answer.1 = cut.1 ∧ answer.2.1.ahead = cut.2 ∧
      answer.2.1.position = reader.position + byteLength cut.1 ∧
        answer.2.2 = test.after memory (seen.reverse ++ cut.1 ++ cut.2.head?.toList) := by
  generalize hcs : reader.ahead = cs
  induction cs generalizing seen reader with
  | nil =>
    have hpeek := reader.peek_eq
    rw [hcs, List.head?_nil] at hpeek
    rw [readOn_of_none hpeek, splitWhile]
    refine ⟨rfl, by rw [ahead_peek, hcs], rfl, ?_⟩
    rw [List.head?_nil, Option.toList_none, List.append_nil, List.append_nil]
  | cons c cs ih =>
    have hpeek := reader.peek_eq
    rw [hcs, List.head?_cons] at hpeek
    cases haccept : test.accepts memory seen c with
    | true =>
      have hahead : reader.peek.2.next.2.ahead = cs := by
        rw [ahead_next, ahead_peek, hcs, List.tail_cons]
      have hposition : reader.peek.2.next.2.position = reader.position + c.utf8Size := by
        rw [position_next, ahead_peek, hcs]; rfl
      -- the rest is read by the same test, which has accepted one character more
      obtain ⟨htaken, hleft, hread, hmemory⟩ := ih (c :: seen) _ hahead
      rw [List.reverse_cons, Test.after_concat] at htaken hleft hread hmemory
      rw [splitWhile_of_accept haccept, readOn_of_accepted hpeek (Prod.ext haccept rfl)]
      refine ⟨congrArg (c :: ·) htaken, hleft, ?_, ?_⟩
      · rw [hread, hposition, byteLength_cons, Nat.add_assoc]
      · rw [hmemory, List.append_assoc seen.reverse, List.singleton_append]
    | false =>
      rw [splitWhile_of_refuse haccept, readOn_of_refused hpeek (Prod.ext haccept rfl)]
      refine ⟨rfl, by rw [ahead_peek, hcs], rfl, ?_⟩
      rw [List.append_nil, List.head?_cons, Option.toList_some, Test.after_concat]

/-- What reading comes to. -/
theorem readWhile_eq (test : Test σ) (reader : Lookahead) (memory : σ) :
    let cut := splitWhile (test.accepts memory) [] reader.ahead
    let answer := reader.readWhile test memory
    answer.1 = cut.1 ∧ answer.2.1.ahead = cut.2 ∧
      answer.2.1.position = reader.position + byteLength cut.1 ∧
        answer.2.2 = test.after memory (cut.1 ++ cut.2.head?.toList) :=
  readOn_eq test memory [] reader

/-- To read as long as a test agrees is to move the cursor, by the answers of the test. -/
theorem toCursor_readWhile (test : Test σ) (reader : Lookahead) (memory : σ) :
    ((reader.readWhile test memory).1, (reader.readWhile test memory).2.1.toCursor) =
      reader.toCursor.readWhile (test.accepts memory) := by
  obtain ⟨htaken, hleft, hread, -⟩ := readWhile_eq test reader memory
  rw [toCursor, htaken, hleft, hread]
  rfl

/-- **Reading stops where the test first refuses**, and the test is asked once for each character
up to there. -/
theorem cuts_readWhile (test : Test σ) (reader : Lookahead) (memory : σ) :
    test.Cuts memory (reader.readWhile test memory).1 (reader.readWhile test memory).2.1.ahead
      (reader.readWhile test memory).2.2 := by
  obtain ⟨htaken, hleft, -, hmemory⟩ := readWhile_eq test reader memory
  rw [htaken, hleft, hmemory]
  exact test.cuts_splitWhile memory reader.ahead

/-- A test that counts may end a reading, and it has counted the character that it refused. -/
example : let count : Test Nat := ⟨fun _ => 0, fun n _ => (decide (n < 2), n + 1)⟩
    let answer := (ofString "été").readWhile count 7
    (answer.1, answer.2.2) = (['é', 't'], 3) := by
  cbv

/-! ### What a reader has read -/

/-- A reader that has read some characters more. -/
structure Advances (reader later : Lookahead) (cs : List Char) : Prop where
  ahead_eq : reader.ahead = cs ++ later.ahead
  position_eq : later.position = reader.position + byteLength cs

theorem advances_peek (reader : Lookahead) : reader.Advances reader.peek.2 [] :=
  ⟨(ahead_peek reader).symm, rfl⟩

theorem advances_next (reader : Lookahead) :
    reader.Advances reader.next.2 reader.ahead.head?.toList where
  ahead_eq := by
    rw [ahead_next]
    cases reader.ahead <;> rfl
  position_eq := position_next reader

theorem advances_readWhile (test : Test σ) (reader : Lookahead) (memory : σ) :
    reader.Advances (reader.readWhile test memory).2.1 (reader.readWhile test memory).1 := by
  obtain ⟨htaken, hleft, hread, -⟩ := readWhile_eq test reader memory
  rw [htaken]
  exact ⟨by rw [hleft, splitWhile_append], hread⟩

/-- Some characters of a text are read, the others are ahead, and the position counts the bytes of
those that are read. -/
structure Stands (reader : Lookahead) (source : String) (read : List Char) : Prop where
  text_eq : source.toList = read ++ reader.ahead
  position_eq : reader.position = byteLength read

theorem stands_ofString (source : String) : (ofString source).Stands source [] := ⟨rfl, rfl⟩

theorem Stands.advance {later : Lookahead} {source : String} {read : List Char}
    (h : reader.Stands source read) (hadvances : reader.Advances later cs) :
    later.Stands source (read ++ cs) where
  text_eq := by rw [List.append_assoc, ← hadvances.ahead_eq, h.text_eq]
  position_eq := by rw [hadvances.position_eq, h.position_eq, byteLength_append]

end Lookahead

end Reckon.Cursor
