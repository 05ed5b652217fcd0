import Mathlib.Order.Bounds.Basic
import Reckon.Proofs.Report.Columns

/-!
# The line of a position, by the breaks around it

The line that is found for a byte position is told here by the breaks of the text alone: it starts
behind the last break before the position, and goes on through the next break at or behind it.  The
positions of one line share its number, and lines further on have greater numbers.  As no line
starts behind its position, the padding below it is never cut short.

## Main definitions

* `Text.TrimsTo cs kept` — `kept` is what is left of `cs` without the blanks at its end.
* `Source.BreakAt text position` — a character that ends a line stands at the position.
* `Source.startsUpTo`, `Source.stopsFrom` — where lines may start up to a position, and where they
  may end from there on.
* `Source.Line.Locates line text position` — `line` is the line of the position.

## Main results

* `Source.LineAt.stop_le_of_breakAt` — a break on a line is at its end.
* `Source.Line.locates_of_find?` — the line that is found is the line of the position.
* `Source.Line.number_le_and_eq_iff` — positions in order are on lines in order.
* `Source.Line.find?_locates` — **every byte position of a text is located**.
-/

namespace Reckon

namespace Text

/-- `kept` is what is left of `cs` without the blanks at its end. -/
def TrimsTo (cs kept : List Char) : Prop :=
  ∃ blanks, cs = kept ++ blanks ∧ (∀ c ∈ blanks, isBlank c) ∧ ∀ c ∈ kept.getLast?, ¬isBlank c

theorem trimsTo_trimEnd (cs : List Char) : TrimsTo cs (trimEnd cs) := by
  refine ⟨(cs.reverse.takeWhile isBlank).reverse, ?_, ?_, ?_⟩
  · rw [trimEnd, ← List.reverse_append, List.takeWhile_append_dropWhile, List.reverse_reverse]
  · intro c hc
    exact List.all_eq_true.mp List.all_takeWhile c (List.mem_reverse.mp hc)
  · intro c hc
    rw [trimEnd, List.getLast?_reverse] at hc
    have hhead := List.head?_dropWhile_not isBlank cs.reverse
    rw [hc] at hhead
    simpa using hhead

end Text

namespace Source

open Text (byteLength)

variable {text front before body after back : List Char} {position : Nat} {c : Char}

/-! ### Breaks -/

/-- A character that ends a line, a line feed or a carriage return, stands at a byte position. -/
def BreakAt (text : List Char) (position : Nat) : Prop :=
  ∃ front c back, text = front ++ c :: back ∧ (c = '\n' ∨ c = '\r') ∧ byteLength front = position

/-- The positions, up to a given one, at which a line may start: the start of the text, and those
behind a break. -/
def startsUpTo (text : List Char) (position : Nat) : Set Nat :=
  insert 0 {start | ∃ b < position, BreakAt text b ∧ start = b + 1}

/-- The positions, from a given one on, at which a line may end: the end of the text, and those
behind a break. -/
def stopsFrom (text : List Char) (position : Nat) : Set Nat :=
  insert (byteLength text) {stop | ∃ b ≥ position, BreakAt text b ∧ stop = b + 1}

theorem isBreak_iff : isBreak c ↔ c = '\n' ∨ c = '\r' := by
  simp [isBreak]

/-- A break takes one byte. -/
theorem utf8Size_of_isBreak (h : isBreak c) : c.utf8Size = 1 := by
  rcases isBreak_iff.mp h with rfl | rfl <;> rfl

theorem breakAt_of_append (h : isBreak c) : BreakAt (front ++ c :: back) (byteLength front) :=
  ⟨front, c, back, rfl, isBreak_iff.mp h, rfl⟩

theorem startsUpTo_mono {p q : Nat} (h : p ≤ q) : startsUpTo text p ⊆ startsUpTo text q := by
  rintro start (rfl | ⟨b, hb, hbreak, rfl⟩)
  · exact .inl rfl
  · exact .inr ⟨b, Nat.lt_of_lt_of_le hb h, hbreak, rfl⟩

namespace LineAt

/-- **A break on a line is at its end.** -/
theorem stop_le_of_breakAt {b : Nat} (h : LineAt text position before body after)
    (hbreak : BreakAt text b) (hle : byteLength before ≤ b) :
    byteLength before + byteLength body ≤ b + 1 := by
  obtain ⟨front, c, back, htext, hc, rfl⟩ := hbreak
  have hsize : c.utf8Size = 1 := utf8Size_of_isBreak (isBreak_iff.mpr hc)
  by_contra hlt
  have hfront : front ++ [c] <+: text := ⟨back, by rw [htext]; simp⟩
  obtain ⟨mid, rfl⟩ := Text.prefix_of_byteLength_le h.begins ⟨c :: back, htext.symm⟩ hle
  have hbefore : byteLength (before ++ mid ++ [c]) ≤ byteLength (before ++ body) := by
    rw [Text.byteLength_concat, Text.byteLength_append before body, hsize]
    omega
  obtain ⟨more, hmore⟩ := Text.prefix_of_byteLength_le hfront h.reaches hbefore
  obtain rfl : body = mid ++ [c] ++ more := by
    simpa only [List.append_assoc, List.append_cancel_left_eq] using hmore.symm
  -- so the line has nothing behind the break, and its end is where the break is
  have hlast : c ∈ (mid ++ [c]).getLast? := by simp
  obtain rfl := h.eq_nil_of_isBreak hlast (isBreak_iff.mpr hc)
  apply hlt
  rw [List.append_nil, Text.byteLength_concat, Text.byteLength_append, hsize]
  omega

/-- The line starts behind the last break before the position, if there is one. -/
theorem isGreatest_start (h : LineAt text position before body after) :
    IsGreatest (startsUpTo text position) (byteLength before) := by
  have hstart : byteLength before ≤ position := h.start_le
  constructor
  · rcases List.eq_nil_or_concat' before with rfl | ⟨init, c, rfl⟩
    · exact .inl rfl
    · have hbreak : isBreak c := h.starts c (by simp)
      have hsize : byteLength (init ++ [c]) = byteLength init + 1 := by
        rw [Text.byteLength_concat, utf8Size_of_isBreak hbreak]
      refine .inr ⟨byteLength init, by omega, ?_, hsize⟩
      rw [h.text_eq, List.append_assoc]
      exact breakAt_of_append hbreak
  · rintro start (rfl | ⟨b, hb, hbreak, rfl⟩)
    · exact Nat.zero_le _
    · -- a break on the line would be at its end, behind the position
      by_contra hlt
      have hstop := h.stop_le_of_breakAt hbreak (by omega)
      have hlt_stop : position < byteLength before + byteLength body := h.lt_stop
      omega

/-- The line goes on through the next break at the position or behind it, if there is one. -/
theorem isLeast_stop (h : LineAt text position before body after) :
    IsLeast (stopsFrom text position) (byteLength before + byteLength body) := by
  have hstop : position < byteLength before + byteLength body := h.lt_stop
  constructor
  · rcases h.ends with rfl | ⟨c, hc, hbreak⟩
    · refine .inl ?_
      rw [h.text_eq, List.append_nil, Text.byteLength_append]
    · obtain ⟨init, rfl⟩ := List.getLast?_eq_some_iff.mp hc
      have hsize : byteLength (init ++ [c]) = byteLength init + 1 := by
        rw [Text.byteLength_concat, utf8Size_of_isBreak hbreak]
      have hinit : byteLength (before ++ init) = byteLength before + byteLength init :=
        Text.byteLength_append before init
      refine .inr ⟨byteLength (before ++ init), by omega, ?_, by omega⟩
      have htext : text = before ++ init ++ c :: after := by rw [h.text_eq]; simp
      rw [htext]
      exact breakAt_of_append hbreak
  · rintro stop (rfl | ⟨b, hb, hbreak, rfl⟩)
    · rw [h.text_eq, Text.byteLength_append, Text.byteLength_append]
      omega
    · exact h.stop_le_of_breakAt hbreak (Nat.le_trans h.start_le hb)

end LineAt

/-! ### The line that is found -/

namespace Line

variable {source : String} {line line' : Line} {p q : Nat}

/-- The line is the line of a position of the text. -/
structure Locates (line : Line) (text : List Char) (position : Nat) : Prop where
  number_pos : 1 ≤ line.number
  number_eq : line.start = 0 → line.number = 1
  start_le : line.start ≤ position
  /-- It starts behind the last break before the position, or else at the start of the text. -/
  start : IsGreatest (startsUpTo text position) line.start
  /-- It goes on through the next break from the position on, or else to the end of the text, and
  is kept without the blanks at its end. -/
  text : ∃ stop body, IsLeast (stopsFrom text position) stop ∧
    Span.Covers ⟨line.start, stop⟩ text body ∧ Text.TrimsTo body line.text.toList

/-- The line that is found is the line of the position. -/
theorem locates_of_find? (h : find? source position = some line) :
    line.Locates source.toList position := by
  obtain ⟨before, body, after, hline, rfl⟩ := lineAt_of_find? h
  refine ⟨Nat.le_add_left 1 _, ?_, hline.start_le, hline.isGreatest_start, ?_⟩
  · intro hzero
    have hbefore : before = [] := Text.byteLength_eq_zero_iff.mp hzero
    rw [hbefore, List.countP_nil]
  · refine ⟨_, body, hline.isLeast_stop, ⟨before, after, hline.text_eq, rfl, rfl⟩, ?_⟩
    rw [String.toList_ofList]
    exact Text.trimsTo_trimEnd body

/-- **Positions in order are on lines in order**, and share the number only if they share the
line. -/
theorem number_le_and_eq_iff (hle : p ≤ q) (hp : find? source p = some line)
    (hq : find? source q = some line') :
    line.number ≤ line'.number ∧ (line.number = line'.number ↔ line.start = line'.start) := by
  obtain ⟨before, body, after, hline, rfl⟩ := lineAt_of_find? hp
  obtain ⟨before', body', after', hline', rfl⟩ := lineAt_of_find? hq
  have hstart : byteLength before ≤ byteLength before' :=
    hline'.isGreatest_start.2 (startsUpTo_mono hle hline.isGreatest_start.1)
  obtain ⟨more, rfl⟩ := Text.prefix_of_byteLength_le hline.begins hline'.begins hstart
  dsimp only
  rw [List.countP_append, Text.byteLength_append]
  refine ⟨by omega, ?_⟩
  -- what lies between the starts of two lines ends with a break
  rcases List.eq_nil_or_concat' more with rfl | ⟨init, c, rfl⟩
  · simp
  · have hbreak : isBreak c := hline'.starts c (by simp)
    have hcount : 0 < (init ++ [c]).countP isBreak :=
      List.countP_pos_iff.mpr ⟨c, by simp, hbreak⟩
    have hlength : 0 < byteLength (init ++ [c]) := Text.byteLength_pos (by simp)
    exact iff_of_false (by omega) (by omega)

/-- The padding below a line is what lies between its start and the position. -/
theorem exists_padding {span : Span} (h : find? source span.start = some line) :
    ∃ padding, line.start + padding = span.start ∧
      underline source span =
        some (String.ofList (shownLine line.number line.text.toList) ++ "\n" ++
          String.ofList (caretLine line.number padding (max span.length 1))) := by
  obtain ⟨before, body, after, hline, rfl⟩ := lineAt_of_find? h
  refine ⟨span.start - byteLength before, Nat.add_sub_cancel' hline.start_le, ?_⟩
  rw [String.toList_ofList]
  exact underline_of_lineAt hline

/-- **Every byte position of a text is located.**  A line is found for the positions within the text
and for no others.  It is the line of the position, as the breaks around it have it; positions in
order are on lines in order; and the line starts at or before the position, so the padding that is
shown for a span is exactly as long as what stands on the line before the span. -/
theorem find?_locates (source : String) :
    (∀ position, find? source position = none ↔ source.utf8ByteSize ≤ position) ∧
      (∀ position line, find? source position = some line →
        line.Locates source.toList position) ∧
      (∀ p q line line', p ≤ q → find? source p = some line → find? source q = some line' →
        line.number ≤ line'.number ∧ (line.number = line'.number ↔ line.start = line'.start)) ∧
      ∀ (span : Span) line, find? source span.start = some line →
        ∃ padding, line.start + padding = span.start ∧
          underline source span =
            some (String.ofList (shownLine line.number line.text.toList) ++ "\n" ++
              String.ofList (caretLine line.number padding (max span.length 1))) :=
  ⟨fun _ => find?_eq_none_iff, fun _ _ => locates_of_find?,
    fun _ _ _ _ => number_le_and_eq_iff, fun _ _ => exists_padding⟩

/-- Four positions of a text with both kinds of breaks: inside the wider character, in the blanks
that are trimmed, at the break behind them, and at the start of the last line, which lacks a
break. -/
theorem find?_locates_tail :
    let source := "x +\r é  \n)"
    let second : Line := ⟨2, 4, " é"⟩
    let third : Line := ⟨3, 10, ")"⟩
    (find? source 6 = some second ∧ second.Locates source.toList 6) ∧
      (find? source 8 = some second ∧ find? source 9 = some second ∧
        second.Locates source.toList 9) ∧
      (find? source 10 = some third ∧ third.Locates source.toList 10 ∧
        (second.number = third.number ↔ second.start = third.start)) ∧
      (find? source 11 = none ∧ source.utf8ByteSize ≤ 11) ∧
      ∃ padding, second.start + padding = 8 ∧ underline source ⟨8, 9⟩ =
        some (String.ofList (shownLine second.number second.text.toList) ++ "\n" ++
          String.ofList (caretLine second.number padding 1)) := by
  intro source second third
  obtain ⟨hnone, hlocates, hnumbers, hpadding⟩ := find?_locates source
  have h6 : find? source 6 = some second := by decide +kernel
  have h8 : find? source 8 = some second := by decide +kernel
  have h9 : find? source 9 = some second := by decide +kernel
  have h10 : find? source 10 = some third := by decide +kernel
  have h11 : find? source 11 = none := by decide +kernel
  exact ⟨⟨h6, hlocates 6 second h6⟩, ⟨h8, h9, hlocates 9 second h9⟩,
    ⟨h10, hlocates 10 third h10, (hnumbers 9 10 second third (by decide) h9 h10).2⟩,
    ⟨h11, (hnone 11).mp h11⟩, hpadding ⟨8, 9⟩ second h8⟩

end Line

end Source

end Reckon
