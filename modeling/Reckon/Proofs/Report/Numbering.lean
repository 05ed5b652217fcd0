import Reckon.Proofs.Report.Positions

/-!
# The number of a line

Each carriage return and each line feed ends a line by itself, so a text in which the two together
end a line has an empty line between them, and every such pair in front of a position makes the
number of its line one greater than it is when the breaks are counted.

## Main definitions

* `Source.lineBreaks` — the number of line breaks of a text, a pair counted once.
* `Source.pairs` — the number of these pairs.

## Main results

* `Source.countP_isBreak` — the characters that end a line are the line breaks and the pairs.
* `Source.LineAt.countP_isBreak_eq` — a position comes behind as many of them as its line does.
* `Source.Line.number_eq_lineBreaks_iff` — **the number of a line**, and when it counts line breaks.
-/

namespace Reckon.Source

open Text (byteLength)

/-! ### Line breaks -/

/-- The number of line breaks of a text.  A carriage return and a line feed behind it are one line
break. -/
def lineBreaks : List Char → Nat
  | [] => 0
  | '\r' :: '\n' :: cs => lineBreaks cs + 1
  | c :: cs => if isBreak c then lineBreaks cs + 1 else lineBreaks cs

/-- The number of carriage returns with a line feed behind them. -/
def pairs : List Char → Nat
  | [] => 0
  | '\r' :: '\n' :: cs => pairs cs + 1
  | _ :: cs => pairs cs

/-- **The characters that end a line** are one for each line break, and one more for each pair. -/
theorem countP_isBreak (cs : List Char) : cs.countP isBreak = lineBreaks cs + pairs cs := by
  fun_induction lineBreaks cs with
  | case1 => rfl
  | case2 cs ih =>
    rw [List.countP_cons_of_pos (by decide), List.countP_cons_of_pos (by decide), ih, pairs]
    omega
  | case3 c cs hpair hbreak ih =>
    rw [List.countP_cons_of_pos hbreak, ih, pairs.eq_3 c cs hpair]
    omega
  | case4 c cs hpair hbreak ih =>
    rw [List.countP_cons_of_neg hbreak, ih, pairs.eq_3 c cs hpair]

theorem pairs_eq_zero_iff (cs : List Char) : pairs cs = 0 ↔ ¬['\r', '\n'] <:+: cs := by
  fun_induction pairs cs with
  | case1 => simp
  | case2 cs ih =>
    have hinfix : ['\r', '\n'] <:+: '\r' :: '\n' :: cs := ⟨[], cs, rfl⟩
    exact iff_of_false (Nat.succ_ne_zero _) (not_not_intro hinfix)
  | case3 c cs hpair ih =>
    -- no pair starts at `c`, so a pair is behind it
    rw [ih, List.infix_cons_iff, not_or]
    refine (and_iff_right ?_).symm
    rintro ⟨more, hmore⟩
    rw [List.cons_append, List.cons_append, List.nil_append, List.cons.injEq] at hmore
    exact hpair more hmore.1.symm hmore.2.symm

/-! ### The number of a line -/

variable {text front before body after back : List Char} {position : Nat} {c : Char}

/-- Between the start of a line and a position on it no line ends. -/
theorem LineAt.countP_isBreak_eq (h : LineAt text position before body after)
    (htext : text = front ++ c :: back) (hle : byteLength front ≤ position)
    (hlt : position < byteLength front + c.utf8Size) :
    front.countP isBreak = before.countP isBreak := by
  have hstart : byteLength before ≤ position := h.start_le
  have hstop : position < byteLength before + byteLength body := h.lt_stop
  have hfront : front <+: text := ⟨c :: back, htext.symm⟩
  have hchar : front ++ [c] <+: text := ⟨back, by rw [htext]; simp⟩
  -- the character at the position stands on the line
  have hbefore : before <+: front := by
    rcases List.prefix_concat_iff.mp (Text.prefix_of_byteLength_le h.begins hchar (by
      rw [Text.byteLength_concat]; omega)) with heq | hprefix
    · rw [heq, Text.byteLength_concat] at hstart
      omega
    · exact hprefix
  obtain ⟨mid, rfl⟩ := hbefore
  rw [Text.byteLength_append] at hle
  obtain ⟨rest, hrest⟩ := Text.prefix_of_byteLength_le hfront h.reaches (by
    rw [Text.byteLength_append, Text.byteLength_append]; omega)
  obtain rfl : body = mid ++ rest := by
    simpa only [List.append_assoc, List.append_cancel_left_eq] using hrest.symm
  have hne : rest ≠ [] := by
    rintro rfl
    rw [List.append_nil] at hstop
    omega
  have hmid : mid.countP isBreak = 0 := by
    refine List.countP_eq_zero.mpr fun d hd => h.inside d ?_
    rw [List.dropLast_append_of_ne_nil hne]
    exact List.mem_append_left _ hd
  rw [List.countP_append, hmid, Nat.add_zero]

namespace Line

variable {source : String}

/-- **The number of a line.**  For the position of a character, it is one more than the line breaks
and the pairs in front of that character.  So it counts the line breaks if there is no pair among
them, and only then; and it is the number that is shown. -/
theorem number_eq_lineBreaks_iff (htext : source.toList = front ++ c :: back)
    (hle : byteLength front ≤ position) (hlt : position < byteLength front + c.utf8Size) :
    ∃ line, find? source position = some line ∧
      line.number = lineBreaks front + pairs front + 1 ∧
        (line.number = lineBreaks front + 1 ↔ ¬['\r', '\n'] <:+: front) ∧
          ∀ span : Span, span.start = position → ∃ below, underline source span =
            some (toString line.number ++ "| " ++ line.text ++ "\n" ++ below) := by
  have hfound : ¬find? source position = none := by
    rw [find?_eq_none_iff, ← Text.byteLength_toList, htext, Text.byteLength_append,
      Text.byteLength_cons]
    omega
  obtain ⟨line, hline⟩ := Option.ne_none_iff_exists'.mp hfound
  obtain ⟨before, body, after, hlineAt, rfl⟩ := lineAt_of_find? hline
  have hcount : before.countP isBreak = lineBreaks front + pairs front := by
    rw [← hlineAt.countP_isBreak_eq htext hle hlt, countP_isBreak]
  refine ⟨_, hline, by rw [hcount], ?_, ?_⟩
  · rw [← pairs_eq_zero_iff]
    dsimp only
    omega
  · rintro span rfl
    rw [underline, hline]
    simp only [Option.map_some, String.append_assoc]
    exact ⟨_, rfl⟩

/-- Behind a carriage return, a line feed and a pair, the line that is the fourth by its line breaks
is the fifth. -/
theorem number_eq_lineBreaks_iff_mixed :
    let front := "2\r+\n3\r\né".toList
    let source := "2\r+\n3\r\né)"
    source.toList = front ++ ')' :: [] ∧ byteLength front ≤ 9 ∧ 9 < byteLength front + 1 ∧
      ∃ line, find? source 9 = some line ∧ line.number = lineBreaks front + pairs front + 1 ∧
        (line.number = lineBreaks front + 1 ↔ ¬['\r', '\n'] <:+: front) ∧
          ∀ span : Span, span.start = 9 → ∃ below, underline source span =
            some (toString line.number ++ "| " ++ line.text ++ "\n" ++ below) := by
  intro front source
  have htext : source.toList = front ++ ')' :: [] := by decide +kernel
  have hle : byteLength front ≤ 9 := by decide +kernel
  have hlt : 9 < byteLength front + 1 := by decide +kernel
  exact ⟨htext, hle, hlt, number_eq_lineBreaks_iff htext hle hlt⟩

/-- Behind one line break that is a pair, the second line is found and shown as the third. -/
theorem number_ne_lineBreaks_pair :
    Expr.ofTokens (Token.scan "2\r\n)") = .error ⟨.group, .unmatchedClosing ⟨")", ⟨3, 4⟩⟩⟩ ∧
      "2\r\n)".toList = ['2', '\r', '\n'] ++ ')' :: [] ∧ byteLength ['2', '\r', '\n'] = 3 ∧
        lineBreaks ['2', '\r', '\n'] = 1 ∧ find? "2\r\n)" 3 = some ⟨3, 3, ")"⟩ ∧
          underline "2\r\n)" ⟨3, 4⟩ = some "3| )\n | ^" ∧
            ¬∃ line, find? "2\r\n)" 3 = some line ∧
              line.number = lineBreaks ['2', '\r', '\n'] + 1 := by
  have hfind : find? "2\r\n)" 3 = some ⟨3, 3, ")"⟩ := by decide +kernel
  refine ⟨by decide +kernel, by decide +kernel, by decide +kernel, by decide +kernel, hfind,
    by decide +kernel, ?_⟩
  rintro ⟨line, hline, hnumber⟩
  rw [hfind, Option.some_inj] at hline
  subst hline
  exact absurd hnumber (by decide +kernel)

end Line

end Reckon.Source
