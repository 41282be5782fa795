import Reckon.Text.Utf8

/-!
# Spans

A span is a stretch of a text. Places in a text are counted in bytes of its UTF-8 form, so a
character may count for up to four.
-/

namespace Reckon

/-- The bytes of a text from `start` on and before `stop`. -/
structure Span where
  /-- The first byte. -/
  start : Nat
  /-- The byte after the last one. -/
  stop : Nat
  deriving DecidableEq, Repr, Inhabited

namespace Span

/-- The empty span at a place. -/
def point (place : Nat) : Span := ⟨place, place⟩

/-- The span of the given text at a place. -/
def covering (start : Nat) (text : List Char) : Span := ⟨start, start + byteLength text⟩

/-- The span of the same length `n` bytes further on. -/
def shift (n : Nat) (span : Span) : Span := ⟨n + span.start, n + span.stop⟩

end Span

end Reckon
