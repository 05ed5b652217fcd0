import Mathlib.Data.List.TakeWhile
import Reckon.Proofs.Source.Cut
import Reckon.Source.Underline

/-!
# Which line a position is on

A line starts at the start of a text or behind a character that ends a line, and goes on through
the next such character or to the end of the text.  Every position within a text is on one line,
and looking for the line of a position finds that one.

## Main definitions

* `Source.LineAt text position before line after` — `line` is the line of `text` on which the
  position is.

## Main results

* `Source.LineAt.unique` — a position is on one line.
* `Source.lines_induction` — a text is made of lines.
* `Source.Line.find?_eq_none_iff` — every position within a text is on a line.
* `Source.Line.lineAt_of_find?` — **the line that is found is the line of the position**, and
  `Source.Line.find?_of_lineAt` finds it.
* `Source.lineAt_of_underline` — so is the line that is shown.
-/

namespace Reckon.Source

open Text (byteLength)

/-- The line of a text on which a position is, with what stands before and behind it. -/
structure LineAt (text : List Char) (position : Nat) (before line after : List Char) : Prop where
  text_eq : text = before ++ (line ++ after)
  /-- The line starts at the start of the text, or behind the end of another line. -/
  starts : ∀ c ∈ before.getLast?, isBreak c
  /-- Only its last character may end it. -/
  inside : ∀ c ∈ line.dropLast, ¬isBreak c
  /-- It goes on to such a character, or to the end of the text. -/
  ends : after = [] ∨ ∃ c ∈ line.getLast?, isBreak c
  start_le : byteLength before ≤ position
  lt_stop : position < byteLength before + byteLength line

/-! ### One line for each position -/

namespace LineAt

variable {text before before' line line' after after' front back : List Char} {position : Nat}
  {c : Char}

/-- What a line is can be computed. -/
theorem iff_all : LineAt text position before line after ↔
    text = before ++ (line ++ after) ∧ before.getLast?.all isBreak ∧
      line.dropLast.all (!isBreak ·) ∧ (after.isEmpty || line.getLast?.any isBreak) ∧
        byteLength before ≤ position ∧ position < byteLength before + byteLength line := by
  have hstarts : before.getLast?.all isBreak ↔ ∀ c ∈ before.getLast?, isBreak c := by
    simp [Option.all_eq_true]
  have hinside : line.dropLast.all (!isBreak ·) ↔ ∀ c ∈ line.dropLast, ¬isBreak c := by
    simp
  have hends : (after.isEmpty || line.getLast?.any isBreak) ↔
      after = [] ∨ ∃ c ∈ line.getLast?, isBreak c := by
    simp [Option.any_eq_true]
  rw [hstarts, hinside, hends]
  exact ⟨fun ⟨h₁, h₂, h₃, h₄, h₅, h₆⟩ => ⟨h₁, h₂, h₃, h₄, h₅, h₆⟩,
    fun ⟨h₁, h₂, h₃, h₄, h₅, h₆⟩ => ⟨h₁, h₂, h₃, h₄, h₅, h₆⟩⟩

instance : Decidable (LineAt text position before line after) := decidable_of_iff _ iff_all.symm

/-- The text begins with what stands before the line. -/
theorem begins (h : LineAt text position before line after) : before <+: text :=
  ⟨line ++ after, h.text_eq.symm⟩

/-- It goes on with the line. -/
theorem reaches (h : LineAt text position before line after) : before ++ line <+: text :=
  ⟨after, by rw [h.text_eq, List.append_assoc]⟩

theorem lt_byteLength (h : LineAt text position before line after) :
    position < byteLength text := by
  have hstop := h.lt_stop
  rw [h.text_eq, Text.byteLength_append, Text.byteLength_append]
  omega

/-- Behind a character that ends it a line has nothing. -/
theorem eq_nil_of_isBreak (h : LineAt text position before (front ++ back) after)
    (hc : c ∈ front.getLast?) (hbreak : isBreak c) : back = [] := by
  by_contra hne
  have hmem : c ∈ (front ++ back).dropLast := by
    rw [List.dropLast_append_of_ne_nil hne]
    exact List.mem_append_left _ (List.mem_of_getLast? hc)
  exact h.inside c hmem hbreak

/-- No line of the position starts later than another. -/
theorem start_le_start (h : LineAt text position before line after)
    (h' : LineAt text position before' line' after') : byteLength before' ≤ byteLength before := by
  by_contra hlt
  have hstart : byteLength before' ≤ position := h'.start_le
  have hstop : position < byteLength before + byteLength line := h.lt_stop
  obtain ⟨front, rfl⟩ := Text.prefix_of_byteLength_le h.begins h'.begins (by omega)
  have hle : byteLength (before ++ front) ≤ byteLength (before ++ line) := by
    rw [Text.byteLength_append before line]
    omega
  obtain ⟨back, hback⟩ := Text.prefix_of_byteLength_le h'.begins h.reaches hle
  rw [Text.byteLength_append] at hlt hstart
  rw [List.append_assoc, List.append_cancel_left_eq] at hback
  subst hback
  rw [Text.byteLength_append] at hstop
  -- the other line starts within this one, so a break in front of it ends this one there
  have hne : front ≠ [] := by
    rintro rfl
    exact hlt (Nat.le_refl _)
  have hlast := List.getLast?_eq_some_getLast hne
  have hbreak : isBreak (front.getLast hne) :=
    h'.starts _ (by rw [List.getLast?_append_of_ne_nil _ hne]; exact hlast)
  rw [h.eq_nil_of_isBreak hlast hbreak, Text.byteLength_nil] at hstop
  omega

/-- A line that goes on as far as it can is not longer than another. -/
theorem eq_nil_of_append (h : LineAt text position before line (back ++ after))
    (h' : LineAt text position before (line ++ back) after) : back = [] := by
  rcases h.ends with hend | ⟨c, hc, hbreak⟩
  · exact (List.append_eq_nil_iff.mp hend).1
  · exact h'.eq_nil_of_isBreak hc hbreak

/-- **A position is on one line.** -/
theorem unique (h : LineAt text position before line after)
    (h' : LineAt text position before' line' after') :
    before = before' ∧ line = line' ∧ after = after' := by
  have hlength : byteLength before = byteLength before' :=
    Nat.le_antisymm (start_le_start h' h) (start_le_start h h')
  obtain rfl := Text.eq_of_byteLength_eq h.begins h'.begins hlength
  have htext := h.text_eq.symm.trans h'.text_eq
  rw [List.append_cancel_left_eq] at htext
  rcases List.append_eq_append_iff.mp htext with ⟨back, rfl, rfl⟩ | ⟨back, rfl, rfl⟩
  · obtain rfl := eq_nil_of_append h h'
    simp
  · obtain rfl := eq_nil_of_append h' h
    simp

end LineAt

/-! ### The lines of a text -/

variable {body rest : List Char} {c : Char}

/-- **A text is made of lines**, each of which ends behind the next character that ends one. -/
@[elab_as_elim]
theorem lines_induction {P : List Char → Prop} (nil : P [])
    (last : ∀ body, body ≠ [] → (∀ c ∈ body, ¬isBreak c) → P body)
    (line : ∀ body c rest, (∀ c ∈ body, ¬isBreak c) → isBreak c → P rest →
      P (body ++ c :: rest)) : ∀ text, P text := by
  intro text
  induction hn : text.length using Nat.strong_induction_on generalizing text with
  | _ n ih =>
    subst hn
    have hbody : ∀ c ∈ text.takeWhile (!isBreak ·), ¬isBreak c := fun c hc => by
      simpa using List.all_eq_true.mp List.all_takeWhile c hc
    have happend := List.takeWhile_append_dropWhile (p := (!isBreak ·)) (l := text)
    cases hrest : text.dropWhile (!isBreak ·) with
    | nil =>
      rw [hrest, List.append_nil] at happend
      rw [happend] at hbody
      by_cases hne : text = []
      · rw [hne]
        exact nil
      · exact last text hne hbody
    | cons c rest =>
      have hbreak : isBreak c := by
        have := List.head?_dropWhile_not (!isBreak ·) text
        rw [hrest] at this
        simpa using this
      rw [hrest] at happend
      have hlength := congrArg List.length happend
      rw [List.length_append, List.length_cons] at hlength
      rw [← happend]
      exact line _ c rest hbody hbreak (ih _ (by omega) rest rfl)

theorem splitLines_of_forall_not (hne : body ≠ []) (hbody : ∀ c ∈ body, ¬isBreak c) :
    splitLines body = [body] := by
  induction body with
  | nil => exact absurd rfl hne
  | cons d body ih =>
    obtain ⟨hd, hbody⟩ := List.forall_mem_cons.mp hbody
    rw [splitLines, if_neg hd]
    cases body with
    | nil => rfl
    | cons d' body => rw [ih (List.cons_ne_nil _ _) hbody]

/-- **The first line** ends behind the first character that ends one. -/
theorem splitLines_append_cons (hbody : ∀ c ∈ body, ¬isBreak c) (hc : isBreak c)
    (rest : List Char) : splitLines (body ++ c :: rest) = (body ++ [c]) :: splitLines rest := by
  induction body with
  | nil => rw [List.nil_append, splitLines, if_pos hc, List.nil_append]
  | cons d body ih =>
    obtain ⟨hd, hbody⟩ := List.forall_mem_cons.mp hbody
    rw [List.cons_append, splitLines, if_neg hd, ih hbody]
    rfl

/-! ### The line of a position -/

namespace Line

variable {position : Nat} {line : Line}

theorem findFrom?_eq_none_iff : ∀ (lines : List (List Char)) (number start : Nat),
    start ≤ position → (findFrom? position number start lines = none ↔
      start + byteLength lines.flatten ≤ position) := by
  intro lines
  induction lines with
  | nil => intro number start h; simpa [findFrom?] using h
  | cons line lines ih =>
    intro number start h
    rw [findFrom?, List.flatten_cons, Text.byteLength_append, ← Nat.add_assoc]
    by_cases hlt : position < start + byteLength line
    · rw [if_pos hlt]
      exact iff_of_false (Option.some_ne_none _) (by omega)
    · rw [if_neg hlt]
      exact ih _ _ (Nat.le_of_not_lt hlt)

/-- **Every position within a text is on a line**, and no other is. -/
theorem find?_eq_none_iff {source : String} :
    find? source position = none ↔ source.utf8ByteSize ≤ position := by
  rw [find?, findFrom?_eq_none_iff _ 1 0 (Nat.zero_le _), flatten_splitLines,
    Text.byteLength_toList, Nat.zero_add]

/-- What is found among the lines behind `before`. -/
theorem lineAt_of_findFrom? : ∀ (rest before : List Char), (∀ c ∈ before.getLast?, isBreak c) →
    byteLength before ≤ position →
      findFrom? position (before.countP isBreak + 1) (byteLength before) (splitLines rest) =
          some line →
        ∃ front body after, LineAt (before ++ rest) position front body after ∧
          line = ⟨front.countP isBreak + 1, byteLength front,
            String.ofList (Text.trimEnd body)⟩ := by
  intro rest
  induction rest using lines_induction with
  | nil => intro before _ _ h; cases h
  | last body hne hbody =>
    intro before hbefore hle h
    rw [splitLines_of_forall_not hne hbody, findFrom?] at h
    split at h
    · next hlt =>
      cases h
      exact ⟨before, body, [], ⟨by rw [List.append_nil], hbefore,
        fun c hc => hbody c (List.mem_of_mem_dropLast hc), .inl rfl, hle, hlt⟩, rfl⟩
    · cases h
  | line body c rest hbody hc ih =>
    intro before hbefore hle h
    rw [splitLines_append_cons hbody hc, findFrom?] at h
    split at h
    · next hlt =>
      cases h
      exact ⟨before, body ++ [c], rest, ⟨by simp, hbefore, by simpa using hbody,
        .inr ⟨c, by simp, hc⟩, hle, hlt⟩, rfl⟩
    · -- the position is on a line behind this one
      next hge =>
      have hcount : (before ++ (body ++ [c])).countP isBreak = before.countP isBreak + 1 := by
        have hnone : body.countP isBreak = 0 := List.countP_eq_zero.mpr hbody
        simp [List.countP_append, hnone, hc]
      have hlast : ∀ d ∈ (before ++ (body ++ [c])).getLast?, isBreak d := by
        intro d hd
        rw [← List.append_assoc, List.getLast?_concat, Option.mem_some_iff] at hd
        exact hd ▸ hc
      rw [← Text.byteLength_append, ← hcount] at h
      rw [← Text.byteLength_append, Nat.not_lt] at hge
      have hline := ih (before ++ (body ++ [c])) hlast hge h
      simpa only [List.append_assoc, List.singleton_append] using hline

/-- **The line that is found is the line of the position.** -/
theorem lineAt_of_find? {source : String} (h : find? source position = some line) :
    ∃ before body after, LineAt source.toList position before body after ∧
      line = ⟨before.countP isBreak + 1, byteLength before,
        String.ofList (Text.trimEnd body)⟩ :=
  lineAt_of_findFrom? source.toList [] (by simp) (Nat.zero_le _) h

/-- The line of a position is found, with its number and without the blanks at its end. -/
theorem find?_of_lineAt {source : String} {before body after : List Char}
    (h : LineAt source.toList position before body after) :
    find? source position = some ⟨before.countP isBreak + 1, byteLength before,
      String.ofList (Text.trimEnd body)⟩ := by
  cases hfind : find? source position with
  | none =>
    rw [find?_eq_none_iff, ← Text.byteLength_toList] at hfind
    exact absurd (Nat.lt_of_lt_of_le h.lt_byteLength hfind) (Nat.lt_irrefl _)
  | some found =>
    obtain ⟨before', body', after', h', rfl⟩ := lineAt_of_find? hfind
    obtain ⟨rfl, rfl, rfl⟩ := h.unique h'
    rfl

end Line

/-! ### The line that is shown -/

variable {source : String} {span : Span}

/-- A span is shown if it starts within the text. -/
theorem underline_eq_none_iff :
    underline source span = none ↔ source.utf8ByteSize ≤ span.start := by
  rw [underline, Option.map_eq_none_iff, Line.find?_eq_none_iff]

/-- **The line that is shown is the line on which the span starts.** -/
theorem lineAt_of_underline (h : span.start < source.utf8ByteSize) :
    ∃ before line after, LineAt source.toList span.start before line after ∧
      ∃ below, underline source span = some (toString (before.countP isBreak + 1) ++ "| " ++
        String.ofList (Text.trimEnd line) ++ "\n" ++ below) := by
  cases hfind : Line.find? source span.start with
  | none => exact absurd (Line.find?_eq_none_iff.mp hfind) (Nat.not_le.mpr h)
  | some line =>
    obtain ⟨before, body, after, hline, rfl⟩ := Line.lineAt_of_find? hfind
    refine ⟨before, body, after, hline, ?_⟩
    rw [underline, hfind]
    simp only [Option.map_some, String.append_assoc]
    exact ⟨_, rfl⟩

end Reckon.Source
