import Reckon.Proofs.Grammar.Placement

/-!
# Carets under the place of an error

The line with the error is shown behind a gutter, and below it stands a row of carets behind a
gutter of the same width.  A reader counts columns, one for each character, but the carets are
placed and counted in bytes.  So they are under the piece of text that is meant as long as all
characters up to its end take one byte each, and only then.

## Main definitions

* `Source.WithinLine text span` — the span lies within one line of the text.
* `Source.OnLine` — the parts of that line: what stands before the piece, the piece, the rest.
* `Source.CaretsAt row first count` — the carets of a row are in these columns.

## Main results

* `Source.underline_of_lineAt` — the two lines that are shown.
* `SyntaxError.caretsAt_iff` — **where the carets are**, and when they are under the piece.
-/

namespace Reckon

/-! ### Bytes and columns -/

namespace Text

variable {cs : List Char}

theorem length_le_byteLength (cs : List Char) : cs.length ≤ byteLength cs := by
  induction cs with
  | nil => exact Nat.le_refl 0
  | cons c cs ih =>
    have hpos : 0 < c.utf8Size := c.utf8Size_pos
    rw [List.length_cons, byteLength_cons]
    omega

/-- A text has as many bytes as characters if each of them takes one byte, and only then. -/
theorem byteLength_eq_length_iff : byteLength cs = cs.length ↔ ∀ c ∈ cs, c.utf8Size = 1 := by
  induction cs with
  | nil => simp
  | cons c cs ih =>
    have hpos : 0 < c.utf8Size := c.utf8Size_pos
    have hle : cs.length ≤ byteLength cs := length_le_byteLength cs
    rw [List.forall_mem_cons, ← ih, byteLength_cons, List.length_cons]
    omega

/-- Nothing is trimmed up to a character that is not blank. -/
theorem trimEnd_append (h : ∀ c ∈ cs.getLast?, ¬isBlank c) (back : List Char) :
    trimEnd (cs ++ back) = cs ++ trimEnd back := by
  have hcs : cs.reverse.dropWhile isBlank = cs.reverse := by
    rw [← List.head?_reverse] at h
    cases hreverse : cs.reverse with
    | nil => rfl
    | cons c rest =>
      rw [hreverse] at h
      rw [List.dropWhile_cons_of_neg (h c rfl)]
  rw [trimEnd, List.reverse_append, List.dropWhile_append, hcs, trimEnd]
  split
  · next hempty => simp [List.isEmpty_iff.mp hempty]
  · simp

theorem trimEnd_concat_of_isBlank {c : Char} (h : isBlank c) (cs : List Char) :
    trimEnd (cs ++ [c]) = trimEnd cs := by
  simp [trimEnd, h]

theorem mem_of_mem_trimEnd {c : Char} (h : c ∈ trimEnd cs) : c ∈ cs := by
  rw [trimEnd, List.mem_reverse] at h
  exact List.mem_reverse.mp ((List.dropWhile_sublist _).subset h)

end Text

namespace Source

open Text (byteLength)

variable {text before front piece back after : List Char} {span : Span}

/-- The span lies within one line of the text. -/
def WithinLine (text : List Char) (span : Span) : Prop :=
  ∃ before line after, LineAt text span.start before line after ∧
    span.stop ≤ byteLength before + byteLength line

/-- The line on which a span lies: `front` stands on it before the piece that the span covers, and
`back` stands behind. -/
structure OnLine (text : List Char) (span : Span) (before front piece back after : List Char) :
    Prop where
  line : LineAt text span.start before (front ++ (piece ++ back)) after
  cuts : span.Cuts text (before ++ front) piece (back ++ after)

/-- A span that cuts a text and lies within one line cuts that line. -/
theorem exists_onLine {left right : List Char} (hcuts : span.Cuts text left piece right)
    (h : WithinLine text span) : ∃ before front back after,
      OnLine text span before front piece back after := by
  obtain ⟨before, line, after, hline, hstop⟩ := h
  obtain ⟨front, rfl⟩ := Text.prefix_of_byteLength_le hline.begins hcuts.begins
    (hcuts.start_eq ▸ hline.start_le)
  have hle : byteLength (before ++ front ++ piece) ≤ byteLength (before ++ line) := by
    rw [Text.byteLength_append _ piece, Text.byteLength_append before line, ← hcuts.stop_eq]
    exact hstop
  obtain ⟨back, hback⟩ := Text.prefix_of_byteLength_le hcuts.reaches hline.reaches hle
  obtain rfl : line = front ++ (piece ++ back) := by
    simpa only [List.append_assoc, List.append_cancel_left_eq] using hback.symm
  obtain rfl : right = back ++ after := by
    have htext := hcuts.text_eq.symm.trans hline.text_eq
    simpa only [List.append_assoc, List.append_cancel_left_eq] using htext
  exact ⟨before, front, back, after, hline, hcuts⟩

/-! ### The two lines that are shown -/

theorem isBlank_of_isBreak {c : Char} (h : isBreak c) : Text.isBlank c := by
  simp only [isBreak, Bool.or_eq_true, beq_iff_eq] at h
  rcases h with rfl | rfl <;> rfl

/-- What ends a line is trimmed. -/
theorem LineAt.not_isBreak_of_mem_trimEnd {line : List Char} {position : Nat}
    (h : LineAt text position before line after) : ∀ c ∈ Text.trimEnd line, ¬isBreak c := by
  intro c hc
  have hne : line ≠ [] := by
    rintro rfl
    have hstart := h.start_le
    exact absurd h.lt_stop (Nat.not_lt.mpr hstart)
  obtain ⟨body, last, rfl⟩ := (List.eq_nil_or_concat' line).resolve_left hne
  have hbody : ∀ c ∈ body, ¬isBreak c := by simpa using h.inside
  by_cases hlast : Text.isBlank last
  · rw [Text.trimEnd_concat_of_isBlank hlast] at hc
    exact hbody c (Text.mem_of_mem_trimEnd hc)
  · rcases List.mem_append.mp (Text.mem_of_mem_trimEnd hc) with hc | hc
    · exact hbody c hc
    · rw [List.mem_singleton.mp hc]
      exact fun hbreak => hlast (isBlank_of_isBreak hbreak)

/-- What stands in front of a line that is shown: a label and a bar. -/
def gutter (label : List Char) : List Char := label ++ ['|', ' ']

/-- The first line: a gutter with the number, and the line of the text. -/
def shownLine (number : Nat) (line : List Char) : List Char :=
  gutter (toString number).toList ++ line

/-- The second line: a gutter as wide, the padding and the carets. -/
def caretLine (number padding carets : Nat) : List Char :=
  gutter (List.replicate (toString number).length ' ') ++ List.replicate padding ' ' ++
    List.replicate carets '^'

/-- **The two lines that are shown** for a span on a line. -/
theorem underline_of_lineAt {source : String} {line : List Char}
    (h : LineAt source.toList span.start before line after) :
    underline source span =
      some (String.ofList (shownLine (before.countP isBreak + 1) (Text.trimEnd line)) ++ "\n" ++
        String.ofList (caretLine (before.countP isBreak + 1) (span.start - byteLength before)
          (max span.length 1))) := by
  rw [underline, Line.find?_of_lineAt h, Option.map_some, Option.some_inj, ← String.toList_inj]
  simp [shownLine, caretLine, gutter]

theorem linefeed_notMem_shownLine {line : List Char} (h : '\n' ∉ line) (number : Nat) :
    '\n' ∉ shownLine number line := by
  have hnumber : '\n' ∉ (toString number).toList := by
    intro hmem
    have hdigits : '\n' ∈ Nat.toDigits 10 number := by simpa using hmem
    exact absurd (Nat.isDigit_of_mem_toDigits (by decide) (by decide) hdigits) (by decide)
  simp only [shownLine, gutter, List.mem_append, not_or]
  exact ⟨⟨hnumber, by decide⟩, h⟩

theorem linefeed_notMem_caretLine (number padding carets : Nat) :
    '\n' ∉ caretLine number padding carets := by
  simp [caretLine, gutter, List.mem_replicate]

/-- The carets of a row are in `count` columns from column `first` on, and in no other. -/
def CaretsAt (row : List Char) (first count : Nat) : Prop :=
  ∀ i, row[i]? = some '^' ↔ first ≤ i ∧ i < first + count

theorem caretsAt_append {init : List Char} (h : '^' ∉ init) (count : Nat) :
    CaretsAt (init ++ List.replicate count '^') init.length count := by
  intro i
  rcases Nat.lt_or_ge i init.length with hlt | hge
  · rw [List.getElem?_append_left hlt]
    exact iff_of_false (fun hcaret => h (List.mem_of_getElem? hcaret)) (by omega)
  · rw [List.getElem?_append_right hge, List.getElem?_replicate]
    split
    · exact iff_of_true rfl (by omega)
    · exact iff_of_false (by simp) (by omega)

/-- The carets of a row are in one range of columns only. -/
theorem CaretsAt.unique {row : List Char} {first count first' count' : Nat}
    (h : CaretsAt row first count) (h' : CaretsAt row first' count') (hpos : 0 < count) :
    first = first' ∧ count = count' := by
  have hiff : ∀ i, first ≤ i ∧ i < first + count ↔
      first' ≤ i ∧ i < first' + count' := fun i => (h i).symm.trans (h' i)
  have hfirst := hiff first
  have hlast := hiff (first + count - 1)
  have hfirst' := hiff first'
  have hlast' := hiff (first' + count' - 1)
  omega

/-- The gutters of the two lines are equally wide. -/
theorem length_gutter_blank (number : Nat) :
    (gutter (List.replicate (toString number).length ' ')).length =
      (gutter (toString number).toList).length := by
  simp only [gutter, List.length_append, List.length_replicate, String.length_toList]

/-- **Where the carets are.** -/
theorem caretsAt_caretLine (number padding carets : Nat) :
    CaretsAt (caretLine number padding carets)
      ((gutter (toString number).toList).length + padding) carets := by
  have hinit : '^' ∉ gutter (List.replicate (toString number).length ' ') ++
      List.replicate padding ' ' := by
    simp [gutter, List.mem_replicate]
  have hcarets := caretsAt_append hinit carets
  rwa [List.length_append, List.length_replicate, length_gutter_blank] at hcarets

/-- The carets under a piece are in its columns if its line has no wider character up to the end of
the piece, and only then. -/
theorem caretsAt_columns_iff {row : List Char} {width : Nat} (hne : piece ≠ [])
    (h : CaretsAt row (width + byteLength front) (byteLength piece)) :
    CaretsAt row (width + front.length) piece.length ↔ ∀ c ∈ front ++ piece, c.utf8Size = 1 := by
  rw [List.forall_mem_append, ← Text.byteLength_eq_length_iff, ← Text.byteLength_eq_length_iff]
  constructor
  · intro hcolumns
    obtain ⟨hfirst, hcount⟩ := h.unique hcolumns (Text.byteLength_pos hne)
    exact ⟨by omega, hcount⟩
  · rintro ⟨hfront, hpiece⟩
    rwa [hfront, hpiece] at h

end Source

/-! ### The place of an error -/

namespace SyntaxError

open Source (WithinLine OnLine CaretsAt underline)
open Text (byteLength)

variable {source : String} {error : SyntaxError}

/-- The place of an error ends where a token ends. -/
theorem Origin.exists_stop (h : Origin (Token.scan source) error)
    (hlt : error.span.start < error.span.stop) :
    ∃ t ∈ Token.scan source, error.span.stop = t.span.stop := by
  cases h with
  | operator ht => exact ⟨_, (Token.mem_operators.mp ht).1, rfl⟩
  | closing ht _ => exact ⟨_, ht, rfl⟩
  | opening ht _ => exact ⟨_, ht, rfl⟩
  | nothing => exact absurd hlt (Nat.lt_irrefl 0)
  | piece h =>
    have hend := Yard.endOf_of_leftover h (inOrder_operands_scan source)
    obtain ⟨final, hfinal, hstop⟩ := hend.stop_eq
    exact ⟨final, (Token.mem_operands.mp (List.mem_of_getLast? hfinal)).1, hstop⟩

/-- The piece that an error points at does not end with a blank. -/
theorem Origin.not_isBlank_getLast {before piece after : List Char}
    (h : Origin (Token.scan source) error)
    (hcuts : error.span.Cuts source.toList before piece after) (hne : piece ≠ []) :
    ∀ c ∈ piece.getLast?, ¬Text.isBlank c := by
  intro c hc
  obtain ⟨t, ht, hstop⟩ := h.exists_stop (hcuts.start_lt hne)
  obtain ⟨before', after', hcuts', hlexeme⟩ := (Token.tokenizes_scan source).lexeme t ht
  rw [hcuts.getLast?_eq hcuts' hstop hne hlexeme.ne_nil] at hc
  exact hlexeme.not_isBlank c (List.mem_of_getLast? hc)

/-- **Where the carets are.**  When the place of an error is not empty and lies within one line,
that line is shown without the blanks at its end, and so with the whole piece at the place.  The
carets start as many columns behind the gutter as there are bytes before the piece, and there are as
many as it has bytes.  These are the columns of the piece if every character up to its end takes
one byte, and only then. -/
theorem caretsAt_iff (h : Expr.ofTokens (Token.scan source) = .error error)
    (hlt : error.span.start < error.span.stop) (hline : WithinLine source.toList error.span) :
    ∃ before front piece back after, OnLine source.toList error.span before front piece back after ∧
      ∃ gutter first second : List Char,
        underline source error.span = some (String.ofList first ++ "\n" ++ String.ofList second) ∧
          '\n' ∉ first ∧ '\n' ∉ second ∧
            first = gutter ++ (front ++ piece ++ Text.trimEnd back) ∧
              CaretsAt second (gutter.length + byteLength front) (byteLength piece) ∧
                (CaretsAt second (gutter.length + front.length) piece.length ↔
                  ∀ c ∈ front ++ piece, c.utf8Size = 1) := by
  have horigin : Origin (Token.scan source) error := origin_of_ofTokens h
  obtain ⟨piece, left, right, hleft⟩ := horigin.covers
  obtain ⟨before, front, back, after, hon⟩ := Source.exists_onLine hleft hline
  obtain ⟨hlineAt, hcuts⟩ := hon
  have hne : piece ≠ [] := by
    rintro rfl
    rw [hcuts.start_eq, hcuts.stop_eq] at hlt
    exact Nat.lt_irrefl _ hlt
  -- the piece is on the line that is shown, since it does not end with a blank
  have hlast : ∀ c ∈ (front ++ piece).getLast?, ¬Text.isBlank c := by
    rw [List.getLast?_append_of_ne_nil _ hne]
    exact horigin.not_isBlank_getLast hcuts hne
  have hshown : Text.trimEnd (front ++ (piece ++ back)) = front ++ piece ++ Text.trimEnd back := by
    rw [← List.append_assoc, Text.trimEnd_append hlast]
  have hpadding : error.span.start - byteLength before = byteLength front := by
    rw [hcuts.start_eq, Text.byteLength_append]
    omega
  have hcount : max error.span.length 1 = byteLength piece := by
    have hpos : 0 < byteLength piece := Text.byteLength_pos hne
    rw [Span.length, hcuts.start_eq, hcuts.stop_eq]
    omega
  have hunderline := Source.underline_of_lineAt hlineAt
  rw [hpadding, hcount] at hunderline
  have hcarets := Source.caretsAt_caretLine (before.countP Source.isBreak + 1) (byteLength front)
    (byteLength piece)
  have hbreak : '\n' ∉ Text.trimEnd (front ++ (piece ++ back)) :=
    fun hmem => hlineAt.not_isBreak_of_mem_trimEnd _ hmem rfl
  exact ⟨before, front, piece, back, after, ⟨hlineAt, hcuts⟩,
    Source.gutter (toString (before.countP Source.isBreak + 1)).toList, _, _, hunderline,
    Source.linefeed_notMem_shownLine hbreak _, Source.linefeed_notMem_caretLine _ _ _,
    by rw [Source.shownLine, hshown], hcarets, Source.caretsAt_columns_iff hne hcarets⟩

/-- A sum on the second line lacks an operator before it.  There is a wider character on the first
line, but none on the second, so the carets are under the sum. -/
theorem caretsAt_iff_second_line :
    let source := "größe +\n  2 3*x  "
    let error : SyntaxError := ⟨.whole, .missingOperator ⟨12, 17⟩⟩
    Expr.ofTokens (Token.scan source) = .error error ∧ error.span.start < error.span.stop ∧
      WithinLine source.toList error.span ∧
        ∃ before front piece back after,
          OnLine source.toList error.span before front piece back after ∧
            ∃ gutter first second : List Char,
              underline source error.span =
                  some (String.ofList first ++ "\n" ++ String.ofList second) ∧
                '\n' ∉ first ∧ '\n' ∉ second ∧
                  first = gutter ++ (front ++ piece ++ Text.trimEnd back) ∧
                    CaretsAt second (gutter.length + byteLength front) (byteLength piece) ∧
                      (CaretsAt second (gutter.length + front.length) piece.length ↔
                        ∀ c ∈ front ++ piece, c.utf8Size = 1) := by
  intro source error
  have h : Expr.ofTokens (Token.scan source) = .error error := by decide +kernel
  have hlt : error.span.start < error.span.stop := by decide
  have hline : WithinLine source.toList error.span :=
    ⟨"größe +\n".toList, "  2 3*x  ".toList, [], by decide +kernel, by decide +kernel⟩
  exact ⟨h, hlt, hline, caretsAt_iff h hlt hline⟩

/-- The carets are one column too far to the right behind a wider character, and a wider character
gets two of them. -/
theorem not_caretsAt_wide :
    let span : Span := ⟨3, 5⟩
    Expr.ofTokens (Token.scan "é ü") = .error ⟨.whole, .missingOperator span⟩ ∧
      OnLine "é ü".toList span [] ['é', ' '] ['ü'] [] [] ∧
        underline "é ü" span = some ("1| é ü" ++ "\n" ++ " |    ^^") ∧
          "1| é ü".toList = ['1', '|', ' '] ++ (['é', ' '] ++ ['ü']) ∧
            ¬CaretsAt " |    ^^".toList (3 + 2) 1 := by
  refine ⟨by decide +kernel, ⟨by decide +kernel, by decide +kernel⟩, by decide +kernel,
    by decide +kernel, fun hcarets => ?_⟩
  have hcaret : " |    ^^".toList[5]? = some '^' := (hcarets 5).mpr (by decide)
  exact absurd hcaret (by decide +kernel)

end SyntaxError

end Reckon
