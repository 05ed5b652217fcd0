import Mathlib.Data.List.Infix
import Reckon.Span
import Reckon.Text.Bytes

/-!
# Cutting a text at byte positions

A byte position need not be the boundary of a character.  A span is fit to be looked up in a
text when both its ends are, and then it cuts the text into three parts: what stands before it,
the piece that it covers, and what stands behind.

## Main definitions

* `Span.Cuts span text before piece after` — the span cuts the text into these three parts.
* `Span.Covers span text piece` — the span covers `piece`, whatever stands around it.
* `Span.Holds span position` — the position lies in the span.

## Main results

* `Text.prefix_of_byteLength_le` — of two beginnings of a text, the shorter one in bytes is a
  beginning of the other.
* `Span.Cuts.stop_le` — a span that cuts a text ends within it.
* `Span.Cuts.overlap` — how two pieces lie to one another when one starts within the other.
-/

namespace Reckon

namespace Text

variable {as bs cs : List Char}

theorem byteLength_concat (cs : List Char) (c : Char) :
    byteLength (cs ++ [c]) = byteLength cs + c.utf8Size := by
  rw [byteLength_append, byteLength_cons, byteLength_nil, Nat.add_zero]

theorem byteLength_pos (h : cs ≠ []) : 0 < byteLength cs := by
  cases cs with
  | nil => exact absurd rfl h
  | cons c cs => exact Nat.add_pos_left c.utf8Size_pos _

theorem byteLength_eq_zero_iff : byteLength cs = 0 ↔ cs = [] := by
  constructor
  · intro h
    by_contra hne
    exact absurd h (Nat.ne_of_gt (byteLength_pos hne))
  · rintro rfl
    rfl

/-- Of two beginnings of a text, the one with fewer bytes is a beginning of the other. -/
theorem prefix_of_byteLength_le (ha : as <+: cs) (hb : bs <+: cs)
    (h : byteLength as ≤ byteLength bs) : as <+: bs := by
  rcases List.prefix_or_prefix_of_prefix ha hb with hab | ⟨more, rfl⟩
  · exact hab
  · -- what `as` has more than `bs` has no bytes
    rw [byteLength_append] at h
    rw [byteLength_eq_zero_iff.mp (by omega : byteLength more = 0), List.append_nil]

/-- Two beginnings of a text with as many bytes are equal. -/
theorem eq_of_byteLength_eq (ha : as <+: cs) (hb : bs <+: cs)
    (h : byteLength as = byteLength bs) : as = bs := by
  have hab := prefix_of_byteLength_le ha hb (Nat.le_of_eq h)
  have hba := prefix_of_byteLength_le hb ha (Nat.le_of_eq h.symm)
  exact hab.eq_of_length (Nat.le_antisymm hab.length_le hba.length_le)

end Text

namespace Span

open Text (byteLength)

/-- The position lies in the span. -/
def Holds (span : Span) (position : Nat) : Prop := span.start ≤ position ∧ position < span.stop

/-- The span cuts a text into what stands before it, the piece that it covers, and what stands
behind.  So both its ends are boundaries of characters. -/
structure Cuts (span : Span) (text before piece after : List Char) : Prop where
  text_eq : text = before ++ (piece ++ after)
  start_eq : span.start = byteLength before
  stop_eq : span.stop = byteLength before + byteLength piece

instance (span : Span) (text before piece after : List Char) :
    Decidable (span.Cuts text before piece after) :=
  decidable_of_iff (text = before ++ (piece ++ after) ∧ span.start = byteLength before ∧
      span.stop = byteLength before + byteLength piece)
    ⟨fun ⟨htext, hstart, hstop⟩ => ⟨htext, hstart, hstop⟩,
      fun ⟨htext, hstart, hstop⟩ => ⟨htext, hstart, hstop⟩⟩

/-- The span covers `piece` in the text. -/
def Covers (span : Span) (text piece : List Char) : Prop :=
  ∃ before after, span.Cuts text before piece after

variable {span span' : Span} {text before before' piece piece' after after' : List Char}

theorem Cuts.covers (h : span.Cuts text before piece after) : span.Covers text piece :=
  ⟨before, after, h⟩

theorem Cuts.start_le (h : span.Cuts text before piece after) : span.start ≤ span.stop := by
  rw [h.start_eq, h.stop_eq]
  exact Nat.le_add_right _ _

/-- The text begins with what stands before the piece. -/
theorem Cuts.begins (h : span.Cuts text before piece after) : before <+: text :=
  ⟨piece ++ after, h.text_eq.symm⟩

/-- It goes on with the piece. -/
theorem Cuts.reaches (h : span.Cuts text before piece after) : before ++ piece <+: text :=
  ⟨after, by rw [h.text_eq, List.append_assoc]⟩

/-- A span that cuts a text ends within it. -/
theorem Cuts.stop_le (h : span.Cuts text before piece after) : span.stop ≤ byteLength text := by
  rw [h.text_eq, h.stop_eq, Text.byteLength_append, Text.byteLength_append]
  omega

/-- A span that covers something is not empty. -/
theorem Cuts.start_lt (h : span.Cuts text before piece after) (hne : piece ≠ []) :
    span.start < span.stop := by
  rw [h.start_eq, h.stop_eq]
  exact Nat.lt_add_of_pos_right (Text.byteLength_pos hne)

/-- The parts of a text say where the span is. -/
theorem Cuts.eq_mk (h : span.Cuts text before piece after) :
    span = ⟨byteLength before, byteLength before + byteLength piece⟩ := by
  obtain ⟨start, stop⟩ := span
  rw [Span.mk.injEq]
  exact ⟨h.start_eq, h.stop_eq⟩

/-- Pieces that end at one position end with one character. -/
theorem Cuts.getLast?_eq (h : span.Cuts text before piece after)
    (h' : span'.Cuts text before' piece' after') (hstop : span.stop = span'.stop)
    (hne : piece ≠ []) (hne' : piece' ≠ []) : piece.getLast? = piece'.getLast? := by
  have hlength : byteLength (before ++ piece) = byteLength (before' ++ piece') := by
    rw [Text.byteLength_append, Text.byteLength_append, ← h.stop_eq, ← h'.stop_eq, hstop]
  rw [← List.getLast?_append_of_ne_nil before hne, ← List.getLast?_append_of_ne_nil before' hne',
    Text.eq_of_byteLength_eq h.reaches h'.reaches hlength]

/-- What goes from the start of one piece to the end of another is a piece too. -/
theorem Cuts.exists_covers (h : span.Cuts text before piece after)
    (h' : span'.Cuts text before' piece' after') (hle : span.start ≤ span'.stop) :
    ∃ between, Covers ⟨span.start, span'.stop⟩ text between := by
  rw [h.start_eq, h'.stop_eq, ← Text.byteLength_append] at *
  obtain ⟨between, hbetween⟩ := Text.prefix_of_byteLength_le h.begins h'.reaches hle
  refine ⟨between, before, after', ?_, rfl, ?_⟩
  · rw [h'.text_eq, ← List.append_assoc, ← hbetween, List.append_assoc]
  · rw [← hbetween, Text.byteLength_append]

/-- **Two pieces of which the second starts within the first.**  Some beginning `front` of the
first stands before the second, and what is left of the first is not empty. -/
theorem Cuts.overlap (h : span.Cuts text before piece after)
    (h' : span'.Cuts text before' piece' after') (hholds : span.Holds span'.start) :
    ∃ front back, before' = before ++ front ∧ piece = front ++ back ∧ back ≠ [] ∧
      back ++ after = piece' ++ after' := by
  obtain ⟨hle, hlt⟩ := hholds
  rw [h.start_eq, h'.start_eq] at hle
  rw [h.stop_eq, h'.start_eq, ← Text.byteLength_append] at hlt
  obtain ⟨front, rfl⟩ := Text.prefix_of_byteLength_le h.begins h'.begins hle
  obtain ⟨back, hback⟩ := Text.prefix_of_byteLength_le h'.begins h.reaches (Nat.le_of_lt hlt)
  rw [List.append_assoc, List.append_cancel_left_eq] at hback
  subst hback
  refine ⟨front, back, rfl, rfl, ?_, ?_⟩
  · rintro rfl
    rw [List.append_nil] at hlt
    exact Nat.lt_irrefl _ hlt
  · have htext := h.text_eq.symm.trans h'.text_eq
    rwa [List.append_assoc, List.append_assoc, List.append_cancel_left_eq,
      List.append_cancel_left_eq] at htext

end Span

end Reckon
