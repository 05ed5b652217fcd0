import Reckon.Token.Scan

/-!
# Scanning piece by piece

What the scanner makes of a text is known once it is known for the pieces that a text is made
of: a blank, a symbol, and a run of plain characters.  Each lemma says which token a piece
gives and where scanning goes on behind it.

## Main results

* `Token.scanFrom_blank` — a blank gives no token.
* `Token.scanFrom_symbol` — a symbol gives a token of its own.
* `Token.scanFrom_run` — a run gives one token, if no plain character follows it.
* `Token.role_eq_operand_of_plain` — that token is an operand.
-/

namespace Reckon.Token

theorem scanFrom_of_some {c c' : Cursor} {t : Token} (h : scanNext? c = some (t, c')) :
    scanFrom c = t :: scanFrom c' := by
  rw [scanFrom]
  split
  · next hnone => rw [h] at hnone; cases hnone
  · next hsome => rw [h] at hsome; cases hsome; rfl

theorem scanFrom_of_none {c : Cursor} (h : scanNext? c = none) : scanFrom c = [] := by
  rw [scanFrom]
  split
  · rfl
  · next hsome => rw [h] at hsome; cases hsome

/-- The tokens behind a cursor depend on the next token and what is behind it alone. -/
theorem scanFrom_congr {c c' : Cursor} (h : scanNext? c = scanNext? c') :
    scanFrom c = scanFrom c' := by
  cases hnext : scanNext? c' with
  | none => rw [scanFrom_of_none (h.trans hnext), scanFrom_of_none hnext]
  | some p => rw [scanFrom_of_some (h.trans hnext), scanFrom_of_some hnext]

/-! ### Classes of characters -/

theorem isSymbol_iff {c : Char} :
    isSymbol c ↔ c ∈ ['+', '-', '*', '/', '^', '(', ')'] := by
  simp [isSymbol, or_assoc]

theorem isBlank_of_isSymbol {c : Char} (h : isSymbol c) : Text.isBlank c = false := by
  simp only [isSymbol_iff, List.mem_cons, List.not_mem_nil, or_false] at h
  rcases h with rfl | rfl | rfl | rfl | rfl | rfl | rfl <;> rfl

theorem isPlain_iff {c : Char} :
    isPlain c ↔ ¬Text.isBlank c ∧ c ∉ ['+', '-', '*', '/', '^', '(', ')'] := by
  rw [← isSymbol_iff]
  simp [isPlain]

/-- A text of plain characters is neither a parenthesis nor an operator. -/
theorem role_eq_operand_of_plain {t : Token} (h : ∀ c ∈ t.text.toList, isPlain c) :
    t.role = .operand := by
  -- no symbol is plain, and everything that is not an operand is a symbol
  have hsymbol : ∀ (c : Char), isSymbol c → t.text ≠ String.ofList [c] := by
    intro c hc ht
    have := h c (by rw [ht]; simp)
    simp [isPlain, hc] at this
  cases hrole : t.role with
  | operand => rfl
  | opening => exact absurd (role_eq_opening_iff.mp hrole) (hsymbol '(' rfl)
  | closing => exact absurd (role_eq_closing_iff.mp hrole) (hsymbol ')' rfl)
  | operator op =>
    have ht := role_eq_operator_iff.mp hrole
    cases op with
    | add => exact absurd ht (hsymbol '+' rfl)
    | subtract => exact absurd ht (hsymbol '-' rfl)
    | multiply => exact absurd ht (hsymbol '*' rfl)
    | divide => exact absurd ht (hsymbol '/' rfl)
    | power => exact absurd ht (hsymbol '^' rfl)

/-! ### The pieces of a text -/

@[simp] theorem scanFrom_nil (position : Nat) : scanFrom ⟨[], position⟩ = [] :=
  scanFrom_of_none rfl

theorem scanFrom_blank {c : Char} (h : Text.isBlank c) (rest : List Char) (position : Nat) :
    scanFrom ⟨c :: rest, position⟩ = scanFrom ⟨rest, position + c.utf8Size⟩ := by
  apply scanFrom_congr
  simp only [scanNext?, Cursor.readWhile, Cursor.splitWhile_const, List.takeWhile_cons, h,
    List.dropWhile_cons, if_true, Text.byteLength_cons, Nat.add_assoc]

theorem scanFrom_symbol {c : Char} (h : isSymbol c) (rest : List Char) (position : Nat) :
    scanFrom ⟨c :: rest, position⟩ =
      ⟨String.ofList [c], ⟨position, position + c.utf8Size⟩⟩ ::
        scanFrom ⟨rest, position + c.utf8Size⟩ := by
  apply scanFrom_of_some
  have hblank := isBlank_of_isSymbol h
  simp [scanNext?, Cursor.readWhile, Cursor.splitWhile_const, hblank, h, Cursor.peek,
    Cursor.next]

/-- A run of plain characters is what is read of a text that begins with it, if no plain
character follows. -/
theorem takeWhile_run {run rest : List Char} (hrun : ∀ c ∈ run, isPlain c)
    (hrest : ∀ c ∈ rest.head?, ¬isPlain c) : (run ++ rest).takeWhile isPlain = run := by
  rw [List.takeWhile_append_of_pos hrun]
  cases rest with
  | nil => simp
  | cons c rest => simp [hrest c rfl]

theorem dropWhile_run {run rest : List Char} (hrun : ∀ c ∈ run, isPlain c)
    (hrest : ∀ c ∈ rest.head?, ¬isPlain c) : (run ++ rest).dropWhile isPlain = rest := by
  rw [List.dropWhile_append_of_pos hrun]
  cases rest with
  | nil => rfl
  | cons c rest => simp [hrest c rfl]

theorem scanFrom_run {run rest : List Char} (hne : run ≠ []) (hrun : ∀ c ∈ run, isPlain c)
    (hrest : ∀ c ∈ rest.head?, ¬isPlain c) (position : Nat) :
    scanFrom ⟨run ++ rest, position⟩ =
      ⟨String.ofList run, ⟨position, position + Text.byteLength run⟩⟩ ::
        scanFrom ⟨rest, position + Text.byteLength run⟩ := by
  apply scanFrom_of_some
  have htake := takeWhile_run hrun hrest
  have hdrop := dropWhile_run hrun hrest
  cases run with
  | nil => exact absurd rfl hne
  | cons c run =>
    obtain ⟨hblank, hsymbol⟩ : Text.isBlank c = false ∧ isSymbol c = false := by
      simpa [isPlain] using hrun c (by simp)
    rw [List.cons_append] at htake hdrop ⊢
    simp [scanNext?, Cursor.readWhile, Cursor.splitWhile_const, hblank, hsymbol, Cursor.peek,
      htake, hdrop]

end Reckon.Token
