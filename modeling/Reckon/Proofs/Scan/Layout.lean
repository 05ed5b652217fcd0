import Reckon.Proofs.Scan.Tokenization

/-!
# Layouts of a text

One row of tokens can be written in many ways: blanks may stand before, between and behind the
words, as many and of whichever kind, and only between two runs of characters must there be one.
Scanning sees none of this but the places.

## Main definitions

* `Token.IsRun`, `Token.IsWord` — the texts that are written apart or as symbols.
* `Token.Layout` — words and the blanks around them, with no two runs written together.
* `Token.placed before row` — the tokens of words that are written behind `before`.

## Main results

* `Token.scanFrom_blanks` — blanks give no token, however many there are.
* `Token.scanFrom_spaced` — a word gives a token, and scanning goes on behind its blanks.
* `Token.Layout.scan_source` — **scanning undoes every layout**.
-/

namespace Reckon.Token

open Text (byteLength)

/-! ### Words with blanks around them -/

/-- At least one character, and none that separates. -/
def IsRun (word : List Char) : Prop := word ≠ [] ∧ ∀ c ∈ word, ¬Separates c

/-- A text that is one token where it stands apart. -/
inductive IsWord : List Char → Prop where
  | symbol {c : Char} (hc : c ∈ symbols) : IsWord [c]
  | run {word : List Char} (h : IsRun word) : IsWord word

/-- A word and the blanks behind it. -/
structure Spaced where
  word : List Char
  gap : List Char
  isWord : IsWord word
  blank : ∀ c ∈ gap, Text.isBlank c

/-- A row of words as it is written. -/
def written : List Spaced → List Char
  | [] => []
  | s :: row => s.word ++ (s.gap ++ written row)

/-- Words and the blanks around them.  Two runs that follow one another have a blank between
them, and nothing else is asked of the blanks. -/
structure Layout where
  /-- The blanks before the first word. -/
  lead : List Char
  row : List Spaced
  blank : ∀ c ∈ lead, Text.isBlank c
  apart : row.IsChain fun s s' => IsRun s.word → IsRun s'.word → s.gap ≠ []

/-- The text of a layout. -/
def Layout.source (l : Layout) : String := String.ofList (l.lead ++ written l.row)

/-- The tokens of a row of words that is written behind `before`.  A word starts where the text
before it ends. -/
def placed : List Char → List Spaced → List Token
  | _, [] => []
  | before, s :: row =>
    ⟨String.ofList s.word, ⟨byteLength before, byteLength (before ++ s.word)⟩⟩ ::
      placed (before ++ s.word ++ s.gap) row

/-- The tokens of a layout, at the places at which they are written. -/
def Layout.tokens (l : Layout) : List Token := placed l.lead l.row

theorem map_text_placed (before : List Char) (row : List Spaced) :
    (placed before row).map text = row.map fun s => String.ofList s.word := by
  induction row generalizing before with
  | nil => rfl
  | cons s row ih => rw [placed, List.map_cons, List.map_cons, ih]

/-! ### Scanning a word and its blanks -/

theorem scanFrom_blanks {gap : List Char} (h : ∀ c ∈ gap, Text.isBlank c) (rest : List Char)
    (position : Nat) :
    scanFrom ⟨gap ++ rest, position⟩ = scanFrom ⟨rest, position + byteLength gap⟩ := by
  induction gap generalizing position with
  | nil => rfl
  | cons c gap ih =>
    obtain ⟨hc, hgap⟩ := List.forall_mem_cons.mp h
    rw [List.cons_append, scanFrom_blank hc, ih hgap, Text.byteLength_cons, Nat.add_assoc]

/-- A word gives one token.  If it is a run, something that separates must follow it. -/
theorem scanFrom_word {word : List Char} (hword : IsWord word) {rest : List Char}
    (hrest : IsRun word → ∀ c ∈ rest.head?, Separates c) (position : Nat) :
    scanFrom ⟨word ++ rest, position⟩ =
      ⟨String.ofList word, ⟨position, position + byteLength word⟩⟩ ::
        scanFrom ⟨rest, position + byteLength word⟩ := by
  cases hword with
  | symbol hc => exact scanFrom_symbol (isSymbol_iff.mpr hc) rest position
  | run h =>
    have hplain : ∀ c ∈ word, isPlain c := fun c hc => not_separates_iff.mp (h.2 c hc)
    exact scanFrom_run h.1 hplain (fun c hc => separates_iff.mp (hrest h c hc)) position

theorem scanFrom_spaced (s : Spaced) {rest : List Char}
    (hrest : IsRun s.word → ∀ c ∈ (s.gap ++ rest).head?, Separates c) (position : Nat) :
    scanFrom ⟨s.word ++ (s.gap ++ rest), position⟩ =
      ⟨String.ofList s.word, ⟨position, position + byteLength s.word⟩⟩ ::
        scanFrom ⟨rest, position + byteLength s.word + byteLength s.gap⟩ := by
  rw [scanFrom_word s.isWord hrest, scanFrom_blanks s.blank]

/-! ### Scanning a layout -/

/-- A word that is no run is a symbol, and separates. -/
theorem IsWord.separates_head? {word : List Char} (h : IsWord word) (hrun : ¬IsRun word)
    (rest : List Char) : ∀ c ∈ (word ++ rest).head?, Separates c := by
  cases h with
  | symbol hc =>
    rintro c ⟨⟩
    exact .inr hc
  | run h => exact absurd h hrun

/-- Something that separates follows a run: a blank behind it, or the symbol that is written
next. -/
theorem separates_of_apart {s : Spaced} {row : List Spaced}
    (h : (s :: row).IsChain fun s s' => IsRun s.word → IsRun s'.word → s.gap ≠ [])
    (hrun : IsRun s.word) : ∀ c ∈ (s.gap ++ written row).head?, Separates c := by
  intro c hc
  cases hgap : s.gap with
  | cons d gap =>
    rw [hgap] at hc
    cases hc
    exact .inl (s.blank c (by rw [hgap]; exact List.mem_cons_self))
  | nil =>
    rw [hgap, List.nil_append] at hc
    cases row with
    | nil => cases hc
    | cons s' row =>
      have hnot : ¬IsRun s'.word := fun hrun' => (List.isChain_cons_cons.mp h).1 hrun hrun' hgap
      exact s'.isWord.separates_head? hnot _ c hc

/-- Scanning a row of words gives their tokens, wherever the row is written. -/
theorem scanFrom_written : ∀ (row : List Spaced) (before : List Char),
    row.IsChain (fun s s' => IsRun s.word → IsRun s'.word → s.gap ≠ []) →
      scanFrom ⟨written row, byteLength before⟩ = placed before row := by
  intro row
  induction row with
  | nil => exact fun before _ => scanFrom_nil _
  | cons s row ih =>
    intro before h
    have hrow := ih (before ++ s.word ++ s.gap) h.of_cons
    rw [Text.byteLength_append, Text.byteLength_append] at hrow
    rw [written, scanFrom_spaced s (separates_of_apart h), hrow, placed, Text.byteLength_append]

/-- **Scanning undoes every layout**: the words come back in order, each with the place at which
it is written. -/
theorem Layout.scan_source (l : Layout) :
    scan l.source = l.tokens ∧
      (scan l.source).map text = l.row.map fun s => String.ofList s.word := by
  have hscan : scan l.source = l.tokens := by
    rw [scan, Cursor.ofString, source, String.toList_ofList, scanFrom_blanks l.blank,
      Nat.zero_add, scanFrom_written l.row l.lead l.apart, tokens]
  exact ⟨hscan, by rw [hscan]; exact map_text_placed l.lead l.row⟩

/-- A name and a power of it behind a wide blank, with no blank around the symbol. -/
theorem Layout.scan_source_power : ∃ l : Layout, l.source = "\u2003né^2\n" ∧
    l.tokens = [⟨"né", ⟨3, 6⟩⟩, ⟨"^", ⟨6, 7⟩⟩, ⟨"2", ⟨7, 8⟩⟩] ∧ scan l.source = l.tokens := by
  have hrun {word : List Char} (hne : word ≠ []) (h : word.all isPlain) : IsWord word :=
    .run ⟨hne, fun c hc => not_separates_iff.mpr (List.all_eq_true.mp h c hc)⟩
  have hpower : ¬IsRun ['^'] := fun h => h.2 '^' (by simp) (.inr (by decide))
  let l : Layout :=
    { lead := ['\u2003']
      row := [⟨['n', 'é'], [], hrun (by decide) (by decide), by simp⟩,
        ⟨['^'], [], .symbol (by decide), by simp⟩,
        ⟨['2'], ['\n'], hrun (by decide) (by decide),
          List.forall_mem_singleton.mpr rfl⟩]
      blank := List.forall_mem_singleton.mpr rfl
      apart := by simp [hpower] }
  exact ⟨l, rfl, rfl, l.scan_source.1⟩

end Reckon.Token
