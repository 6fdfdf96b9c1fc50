namespace CommandTemplate

/-- A stretch of a text in characters. Length zero marks a place between two characters. -/
structure Span where
  start : Nat
  length : Nat
deriving DecidableEq

namespace Span

/-- The first character offset after the stretch. -/
def stop (s : Span) : Nat :=
  s.start + s.length

/-- The place in front of the character at `offset`. -/
def place (offset : Nat) : Span :=
  ⟨offset, 0⟩

/-- The same stretch, `offset` characters further on. -/
def shift (offset : Nat) (s : Span) : Span :=
  ⟨s.start + offset, s.length⟩

end Span

end CommandTemplate
