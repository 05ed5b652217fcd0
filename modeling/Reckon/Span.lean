/-!
# Byte ranges

A span says where a piece of source text stands.  Positions count the bytes of the
UTF-8 encoding, so a character may be one to four positions wide.

## Main definitions

* `Span` — a half-open range of byte positions.
* `Span.cover a b` — the smallest span that holds both `a` and `b`.
-/

namespace Reckon

/-- A half-open range of byte positions: `start` is its first position and `stop` is the
first position behind it. -/
structure Span where
  start : Nat
  stop : Nat
  deriving DecidableEq, Repr, Inhabited

namespace Span

/-- The span of a text that was not read from any source. -/
def nowhere : Span := ⟨0, 0⟩

/-- The number of bytes in the range. -/
def length (s : Span) : Nat := s.stop - s.start

/-- The smallest span that holds both `a` and `b`. -/
def cover (a b : Span) : Span := ⟨min a.start b.start, max a.stop b.stop⟩

/-- The written form, such as `1..9`. -/
def text (s : Span) : String := toString s.start ++ ".." ++ toString s.stop

@[simp] theorem start_cover (a b : Span) : (a.cover b).start = min a.start b.start := rfl

@[simp] theorem stop_cover (a b : Span) : (a.cover b).stop = max a.stop b.stop := rfl

end Span

end Reckon
