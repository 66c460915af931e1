/-!
# Ranges of character positions

A span says which characters of a source text something was read from. Positions count
characters from zero and a span is half open. Hand-made programs may carry any two positions,
so `start ≤ stop` is not part of the type.
-/

namespace Keystroke

/-- Characters `start`, `start + 1`, …, up to and excluding `stop`. -/
structure Span where
  start : Nat
  stop : Nat
  deriving DecidableEq, Repr, Inhabited

namespace Span

/-- The empty span at the first character. It stands for "no position known". -/
def origin : Span := ⟨0, 0⟩

/-- The empty span just past the end of `s`. -/
def after (s : Span) : Span := ⟨s.stop, s.stop⟩

/-- The span of the same width, `n` characters further on. -/
def shift (n : Nat) (s : Span) : Span := ⟨n + s.start, n + s.stop⟩

/-- Text of a span, as in `3..7`. -/
def text (s : Span) : String :=
  s.start.repr ++ ".." ++ s.stop.repr

@[simp] theorem shift_start (n : Nat) (s : Span) : (s.shift n).start = n + s.start := rfl

@[simp] theorem shift_stop (n : Nat) (s : Span) : (s.shift n).stop = n + s.stop := rfl

@[simp] theorem after_shift (n : Nat) (s : Span) : (s.shift n).after = s.after.shift n := rfl

end Span

end Keystroke
