import Reckon.Proofs.Scan.Basic
import Reckon.Proofs.Source.Cut

/-!
# What the tokens of a text are

The tokens of a text can be told without scanning it.  Each is a piece of the text at the place
of its span: a symbol, or a run of other characters that goes on on neither side.  They follow
one another, and between them there is nothing but blanks.  No two rows of tokens fit a text in
this way, and scanning finds the one that does.

## Main definitions

* `Token.symbols`, `Token.Separates` — the symbols, and the characters at which a run ends.
* `Token.IsLexeme before piece after` — a piece that is a token between what stands around it.
* `Token.Tokenizes text tokens` — these are the tokens of the text.

## Main results

* `Token.pieces_induction` — a text is made of blanks, symbols and whole runs.
* `Token.tokenizes_scanFrom` — scanning finds tokens as they are described.
* `Token.Tokenizes.subset` — two rows of tokens of one text have the same tokens.
* `Token.tokenizes_iff_eq_scan` — **the tokens of a text are those that scanning finds**, and
  their roles are those in which they were read.
-/

namespace Reckon.Token

open Text (byteLength)

/-! ### The tokens of a text -/

/-- The characters that are always tokens of their own. -/
def symbols : List Char := ['+', '-', '*', '/', '^', '(', ')']

/-- A run of characters ends before a blank or a symbol. -/
def Separates (c : Char) : Prop := Text.isBlank c ∨ c ∈ symbols

/-- A piece of a text that is taken whole: one symbol, or a run between separating characters or
the ends of the text, with none inside. -/
inductive IsLexeme (before : List Char) : List Char → List Char → Prop where
  | symbol {c : Char} {after : List Char} (hc : c ∈ symbols) : IsLexeme before [c] after
  | run {piece after : List Char} (hne : piece ≠ []) (hrun : ∀ c ∈ piece, ¬Separates c)
      (hbefore : ∀ c ∈ before.getLast?, Separates c) (hafter : ∀ c ∈ after.head?, Separates c) :
      IsLexeme before piece after

theorem IsLexeme.ne_nil {before piece after : List Char} (h : IsLexeme before piece after) :
    piece ≠ [] := by
  cases h with
  | symbol _ => exact List.cons_ne_nil _ _
  | run hne _ _ _ => exact hne

theorem IsLexeme.not_isBlank {before piece after : List Char}
    (h : IsLexeme before piece after) : ∀ c ∈ piece, ¬Text.isBlank c := by
  cases h with
  | symbol hc => simp [isBlank_of_isSymbol (isSymbol_iff.mpr hc)]
  | run _ hrun _ _ => exact fun c hc hblank => hrun c hc (.inl hblank)

/-- The row of tokens of a text. -/
structure Tokenizes (text : List Char) (tokens : List Token) : Prop where
  /-- No span is empty. -/
  start_lt : ∀ t ∈ tokens, t.span.start < t.span.stop
  /-- Each token ends before the next one starts. -/
  ordered : tokens.Pairwise fun t u => t.span.stop ≤ u.span.start
  /-- A token is the piece of the text at its span, and that is taken whole. -/
  lexeme : ∀ t ∈ tokens, ∃ before after,
    t.span.Cuts text before t.text.toList after ∧ IsLexeme before t.text.toList after
  /-- A character outside of all spans is blank. -/
  blank : ∀ before c after, text = before ++ c :: after →
    (∀ t ∈ tokens, ¬t.span.Holds (byteLength before)) → Text.isBlank c

theorem not_separates_iff {c : Char} : ¬Separates c ↔ isPlain c := by
  rw [isPlain_iff, Separates, not_or]
  rfl

theorem separates_iff {c : Char} : Separates c ↔ ¬isPlain c := by
  rw [← not_separates_iff, not_not]

/-! ### Scanning finds them -/

/-- **A text is made of blanks, symbols and whole runs**, one piece after the other. -/
@[elab_as_elim]
theorem pieces_induction {P : List Char → Prop} (nil : P [])
    (blank : ∀ c rest, Text.isBlank c → P rest → P (c :: rest))
    (symbol : ∀ c rest, isSymbol c → P rest → P (c :: rest))
    (run : ∀ run rest, run ≠ [] → (∀ c ∈ run, isPlain c) → (∀ c ∈ rest.head?, ¬isPlain c) →
      P rest → P (run ++ rest)) : ∀ text, P text := by
  intro text
  induction hn : text.length using Nat.strong_induction_on generalizing text with
  | _ n ih =>
    subst hn
    cases text with
    | nil => exact nil
    | cons c rest =>
      by_cases hblank : Text.isBlank c
      · exact blank c rest hblank (ih _ (Nat.lt_succ_self _) rest rfl)
      by_cases hsymbol : isSymbol c
      · exact symbol c rest hsymbol (ih _ (Nat.lt_succ_self _) rest rfl)
      -- otherwise `c` is the first of a run, which is at least as long as `c` alone
      have hplain : isPlain c := by simp [isPlain, hblank, hsymbol]
      have hrest : (c :: rest).dropWhile isPlain = rest.dropWhile isPlain :=
        List.dropWhile_cons_of_pos hplain
      have hlength : (rest.dropWhile isPlain).length ≤ rest.length :=
        (List.dropWhile_sublist _).length_le
      have hrun := run ((c :: rest).takeWhile isPlain) ((c :: rest).dropWhile isPlain)
        (by rw [List.takeWhile_cons_of_pos hplain]; exact List.cons_ne_nil _ _)
        (List.all_eq_true.mp List.all_takeWhile)
        (fun d hd => by
          have := List.head?_dropWhile_not isPlain (c :: rest)
          rw [Option.mem_def.mp hd] at this
          simpa using this)
        (by rw [hrest]; exact ih _ (Nat.lt_succ_of_le hlength) _ rfl)
      rwa [List.takeWhile_append_dropWhile] at hrun

/-- A token starts where the scan starts, or later. -/
theorem le_start_of_mem_scanFrom : ∀ (rest : List Char) (position : Nat),
    ∀ t ∈ scanFrom ⟨rest, position⟩, position ≤ t.span.start := by
  intro rest
  induction rest using pieces_induction with
  | nil => simp
  | blank c rest hc ih =>
    intro position t ht
    rw [scanFrom_blank hc] at ht
    exact Nat.le_trans (Nat.le_add_right _ _) (ih _ t ht)
  | symbol c rest hc ih =>
    intro position t ht
    rw [scanFrom_symbol hc] at ht
    rcases List.mem_cons.mp ht with rfl | ht
    · exact Nat.le_refl _
    · exact Nat.le_trans (Nat.le_add_right _ _) (ih _ t ht)
  | run run rest hne hrun hrest ih =>
    intro position t ht
    rw [scanFrom_run hne hrun hrest] at ht
    rcases List.mem_cons.mp ht with rfl | ht
    · exact Nat.le_refl _
    · exact Nat.le_trans (Nat.le_add_right _ _) (ih _ t ht)

theorem pairwise_scanFrom : ∀ (rest : List Char) (position : Nat),
    (scanFrom ⟨rest, position⟩).Pairwise fun t u => t.span.stop ≤ u.span.start := by
  intro rest
  induction rest using pieces_induction with
  | nil => simp
  | blank c rest hc ih =>
    intro position
    rw [scanFrom_blank hc]
    exact ih _
  | symbol c rest hc ih =>
    intro position
    rw [scanFrom_symbol hc]
    exact List.pairwise_cons.mpr ⟨le_start_of_mem_scanFrom rest _, ih _⟩
  | run run rest hne hrun hrest ih =>
    intro position
    rw [scanFrom_run hne hrun hrest]
    exact List.pairwise_cons.mpr ⟨le_start_of_mem_scanFrom rest _, ih _⟩

/-- No run of characters goes on from one text into the next. -/
def Parted (before after : List Char) : Prop :=
  ∀ c ∈ before.getLast?, ∀ d ∈ after.head?, Separates c ∨ Separates d

theorem parted_concat {c : Char} (hc : Separates c) (before after : List Char) :
    Parted (before ++ [c]) after := by
  intro b hb d _
  rw [List.getLast?_concat, Option.mem_some_iff] at hb
  exact .inl (hb ▸ hc)

/-- Tokens are taken whole, unless the scan starts in the middle of a run. -/
theorem lexeme_of_mem_scanFrom : ∀ (rest before : List Char), Parted before rest →
    ∀ t ∈ scanFrom ⟨rest, byteLength before⟩, ∃ front after,
      t.span.Cuts (before ++ rest) front t.text.toList after ∧
        IsLexeme front t.text.toList after := by
  intro rest
  induction rest using pieces_induction with
  | nil => simp
  | blank c rest hc ih =>
    intro before _ t ht
    rw [scanFrom_blank hc, ← Text.byteLength_concat] at ht
    have hlexeme := ih (before ++ [c]) (parted_concat (.inl hc) before rest) t ht
    rwa [List.append_assoc] at hlexeme
  | symbol c rest hc ih =>
    intro before _ t ht
    have hmem : c ∈ symbols := isSymbol_iff.mp hc
    rw [scanFrom_symbol hc, ← Text.byteLength_concat] at ht
    rcases List.mem_cons.mp ht with rfl | ht
    · rw [String.toList_ofList]
      exact ⟨before, rest, ⟨rfl, rfl, by simp⟩, .symbol hmem⟩
    · have hlexeme := ih (before ++ [c]) (parted_concat (.inr hmem) before rest) t ht
      rwa [List.append_assoc] at hlexeme
  | run run rest hne hrun hrest ih =>
    intro before hbefore t ht
    rw [scanFrom_run hne hrun hrest, ← Text.byteLength_append] at ht
    have hafter : ∀ d ∈ rest.head?, Separates d := fun d hd => separates_iff.mpr (hrest d hd)
    rcases List.mem_cons.mp ht with rfl | ht
    · -- the first character of the run does not separate, so the last one before it does
      obtain ⟨d, run, rfl⟩ := List.exists_cons_of_ne_nil hne
      have hd : ¬Separates d := not_separates_iff.mpr (hrun d List.mem_cons_self)
      have hlast : ∀ c ∈ before.getLast?, Separates c := fun c hc =>
        (hbefore c hc d rfl).resolve_right hd
      rw [String.toList_ofList]
      exact ⟨before, rest, ⟨rfl, rfl, by simp⟩,
        .run hne (fun d hd => not_separates_iff.mpr (hrun d hd)) hlast hafter⟩
    · have hlexeme := ih (before ++ run) (fun _ _ d hd => .inr (hafter d hd)) t ht
      rwa [List.append_assoc] at hlexeme

/-- What no token holds is blank. -/
theorem isBlank_of_uncovered : ∀ (rest : List Char) (position : Nat) (front : List Char) (c : Char)
    (after : List Char), rest = front ++ c :: after →
      (∀ t ∈ scanFrom ⟨rest, position⟩, ¬t.span.Holds (position + byteLength front)) →
        Text.isBlank c := by
  intro rest
  induction rest using pieces_induction with
  | nil => intro _ front c after h; simp at h
  | blank d rest hd ih =>
    intro position front c after h huncovered
    rcases List.cons_eq_append_iff.mp h with ⟨rfl, h⟩ | ⟨front, rfl, rfl⟩
    · cases h
      exact hd
    · rw [scanFrom_blank hd] at huncovered
      rw [Text.byteLength_cons, ← Nat.add_assoc] at huncovered
      exact ih _ front c after rfl huncovered
  | symbol d rest hd ih =>
    intro position front c after h huncovered
    rw [scanFrom_symbol hd] at huncovered
    obtain ⟨hfirst, hrest⟩ := List.forall_mem_cons.mp huncovered
    rcases List.cons_eq_append_iff.mp h with ⟨rfl, h⟩ | ⟨front, rfl, rfl⟩
    · exact absurd ⟨Nat.le_refl _, Nat.add_lt_add_left d.utf8Size_pos position⟩ hfirst
    · rw [Text.byteLength_cons, ← Nat.add_assoc] at hrest
      exact ih _ front c after rfl hrest
  | run run rest hne hrun hafter ih =>
    intro position front c after h huncovered
    rw [scanFrom_run hne hrun hafter] at huncovered
    obtain ⟨hfirst, hrest⟩ := List.forall_mem_cons.mp huncovered
    by_cases hlt : byteLength front < byteLength run
    · exact absurd ⟨Nat.le_add_right _ _, Nat.add_lt_add_left hlt position⟩ hfirst
    · -- the character stands behind the run
      have hprefix : run <+: front ++ c :: after := ⟨rest, h⟩
      obtain ⟨more, rfl⟩ := Text.prefix_of_byteLength_le hprefix (List.prefix_append _ _)
        (Nat.le_of_not_lt hlt)
      rw [List.append_assoc, List.append_cancel_left_eq] at h
      rw [Text.byteLength_append, ← Nat.add_assoc] at hrest
      exact ih _ more c after h hrest

/-- **Scanning finds the tokens as they are described.** -/
theorem tokenizes_scan (source : String) : Tokenizes source.toList (scan source) := by
  have hstart : scan source = scanFrom ⟨source.toList, byteLength []⟩ := rfl
  have hlexeme : ∀ t ∈ scan source, ∃ before after,
      t.span.Cuts source.toList before t.text.toList after ∧
        IsLexeme before t.text.toList after := by
    rw [hstart]
    exact lexeme_of_mem_scanFrom source.toList [] (by simp [Parted])
  refine ⟨fun t ht => ?_, pairwise_scanFrom _ _, hlexeme, fun before c after h huncovered => ?_⟩
  · obtain ⟨before, after, hcuts, hwhole⟩ := hlexeme t ht
    exact hcuts.start_lt hwhole.ne_nil
  · exact isBlank_of_uncovered _ 0 before c after h (by simpa [hstart] using huncovered)

/-! ### There are no others -/

variable {text before before' piece piece' after after' : List Char} {t t' : Token}
  {tokens tokens' : List Token}

/-- What is read of a text that begins with a token. -/
def firstLexeme : List Char → List Char
  | [] => []
  | c :: rest => if isSymbol c then [c] else (c :: rest).takeWhile isPlain

/-- A token is what is read where it begins. -/
theorem IsLexeme.firstLexeme_append (h : IsLexeme before piece after) :
    firstLexeme (piece ++ after) = piece := by
  cases h with
  | symbol hc => rw [List.singleton_append, firstLexeme, if_pos (isSymbol_iff.mpr hc)]
  | run hne hrun _ hafter =>
    have hplain : ∀ c ∈ piece, isPlain c := fun c hc => not_separates_iff.mp (hrun c hc)
    have hread := takeWhile_run hplain fun c hc => separates_iff.mp (hafter c hc)
    obtain ⟨d, piece, rfl⟩ := List.exists_cons_of_ne_nil hne
    have hd : ¬isSymbol d := by
      have := hplain d List.mem_cons_self
      simp only [isPlain, Bool.and_eq_true, Bool.not_eq_true'] at this
      simp [this.2]
    rw [List.cons_append] at hread ⊢
    rw [firstLexeme, if_neg hd, hread]

/-- A token goes on to its end: it does not start within another one. -/
theorem IsLexeme.eq_nil_of_append {front back : List Char}
    (h : IsLexeme before (front ++ back) after) (h' : IsLexeme (before ++ front) piece' after')
    (hne : back ≠ []) (heq : back ++ after = piece' ++ after') : front = [] := by
  by_contra hfront
  obtain ⟨d, back, rfl⟩ := List.exists_cons_of_ne_nil hne
  generalize hpiece : front ++ d :: back = piece at h
  cases h with
  | symbol hc =>
    have hlength := congrArg List.length hpiece
    have := List.length_pos_of_ne_nil hfront
    simp only [List.length_append, List.length_cons, List.length_nil] at hlength
    omega
  | run _ hrun _ _ =>
    subst hpiece
    cases h' with
    | symbol hc =>
      -- the second token is a symbol, which no run contains
      cases heq
      exact hrun d (by simp) (.inr hc)
    | run _ _ hbefore _ =>
      -- the second token is a run, which starts behind a separating character
      have hlast : front.getLast hfront ∈ (before ++ front).getLast? := by
        rw [List.getLast?_append_of_ne_nil _ hfront, List.getLast?_eq_some_getLast hfront]
        rfl
      exact hrun _ (List.mem_append_left _ (List.getLast_mem hfront)) (hbefore _ hlast)

/-- Of two tokens of a text, none starts within the other. -/
theorem eq_of_holds (h : t.span.Cuts text before t.text.toList after)
    (hwhole : IsLexeme before t.text.toList after)
    (h' : t'.span.Cuts text before' t'.text.toList after')
    (hwhole' : IsLexeme before' t'.text.toList after') (hholds : t.span.Holds t'.span.start) :
    t = t' := by
  obtain ⟨front, back, rfl, hpiece, hne, heq⟩ := h.overlap h' hholds
  rw [hpiece] at hwhole
  obtain rfl : front = [] := hwhole.eq_nil_of_append hwhole' hne heq
  rw [List.append_nil] at h' hwhole'
  rw [List.nil_append] at hpiece hwhole
  have htext : t.text.toList = t'.text.toList := by
    rw [hpiece, ← hwhole.firstLexeme_append, heq, hwhole'.firstLexeme_append]
  have hspan : t.span = t'.span := by rw [h.eq_mk, h'.eq_mk, htext]
  obtain ⟨text, span⟩ := t
  obtain ⟨text', span'⟩ := t'
  rw [mk.injEq]
  exact ⟨String.toList_injective htext, hspan⟩

/-- Two rows of tokens of one text have the same tokens. -/
theorem Tokenizes.subset (h : Tokenizes text tokens) (h' : Tokenizes text tokens') :
    tokens ⊆ tokens' := by
  intro t ht
  obtain ⟨before, after, hcuts, hwhole⟩ := h.lexeme t ht
  -- the first character of the token is not blank, so a token of the other row holds it
  obtain ⟨c, piece, hpiece⟩ := List.exists_cons_of_ne_nil hwhole.ne_nil
  have hc : ¬Text.isBlank c := by
    rw [hpiece] at hwhole
    exact hwhole.not_isBlank _ List.mem_cons_self
  obtain ⟨t', ht', hholds⟩ : ∃ t' ∈ tokens', t'.span.Holds t.span.start := by
    by_contra hnone
    simp only [not_exists, not_and, hcuts.start_eq] at hnone
    exact hc (h'.blank before c (piece ++ after) (by rw [hcuts.text_eq, hpiece]; rfl) hnone)
  obtain ⟨before', after', hcuts', hwhole'⟩ := h'.lexeme t' ht'
  rwa [← eq_of_holds hcuts' hwhole' hcuts hwhole hholds]

theorem Tokenizes.pairwise_lt (h : Tokenizes text tokens) :
    tokens.Pairwise fun t u => t.span.start < u.span.start :=
  h.ordered.imp_of_mem fun ht _ hle => Nat.lt_of_lt_of_le (h.start_lt _ ht) hle

/-- **A text has one row of tokens.** -/
theorem Tokenizes.eq (h : Tokenizes text tokens) (h' : Tokenizes text tokens') :
    tokens = tokens' := by
  have hnodup {ts : List Token} (hts : Tokenizes text ts) : ts.Nodup :=
    hts.pairwise_lt.imp fun {t u} hlt (heq : t = u) => by simp [heq] at hlt
  have hperm : tokens.Perm tokens' := (List.perm_ext_iff_of_nodup (hnodup h) (hnodup h')).mpr
    fun t => ⟨fun ht => h.subset h' ht, fun ht => h'.subset h ht⟩
  exact hperm.eq_of_pairwise (fun _ _ _ _ hlt hgt => absurd hlt (Nat.lt_asymm hgt))
    h.pairwise_lt h'.pairwise_lt

/-! ### The roles of tokens -/

theorem role_ne_operand_of_symbol {c : Char} (hc : c ∈ symbols) (ht : t.text.toList = [c]) :
    t.role ≠ .operand := by
  have htext : t.text = String.ofList [c] := by rw [← ht, String.ofList_toList]
  simp only [symbols, List.mem_cons, List.not_mem_nil, or_false] at hc
  rw [role, htext]
  rcases hc with rfl | rfl | rfl | rfl | rfl | rfl | rfl <;> decide

/-- **The tokens of a text are those that scanning finds.**  No other row of tokens fits the text.
A symbol is never an operand and a run of other characters always is, so a token has the role in
which it was read. -/
theorem tokenizes_iff_eq_scan (source : String) (tokens : List Token) :
    (Tokenizes source.toList tokens ↔ tokens = scan source) ∧
      ∀ t ∈ scan source,
        (∀ c ∈ symbols, t.text.toList = [c] → t.role ≠ .operand) ∧
          ((∀ c ∈ t.text.toList, ¬Separates c) → t.role = .operand) := by
  refine ⟨⟨fun h => h.eq (tokenizes_scan source), ?_⟩, fun t _ => ⟨?_, ?_⟩⟩
  · rintro rfl
    exact tokenizes_scan source
  · exact fun c hc ht => role_ne_operand_of_symbol hc ht
  · exact fun hrun => role_eq_operand_of_plain fun c hc => not_separates_iff.mp (hrun c hc)

/-- The positions of tokens count bytes: the name has three, and the blank behind it has three. -/
example : scan "né\u2003*2" = [⟨"né", ⟨0, 3⟩⟩, ⟨"*", ⟨6, 7⟩⟩, ⟨"2", ⟨7, 8⟩⟩] := by cbv

end Reckon.Token
