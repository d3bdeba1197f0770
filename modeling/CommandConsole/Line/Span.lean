/-!
# Spans of a line

A span is a half open range of byte offsets. The hull of two spans is the least span that holds
both.
-/

namespace CommandConsole

/-- The byte offsets from start up to stop. -/
structure Span where
  start : Nat
  stop : Nat
  deriving DecidableEq, Repr

namespace Span

def atOffset (n : Nat) : Span := ⟨n, n⟩

def hull (a b : Span) : Span := ⟨min a.start b.start, max a.stop b.stop⟩

def isEmpty (s : Span) : Bool := s.start == s.stop

def size (s : Span) : Nat := s.stop - s.start

theorem hull_assoc (a b c : Span) : (a.hull b).hull c = a.hull (b.hull c) := by
  simp only [hull, Span.mk.injEq]
  omega

theorem hull_comm (a b : Span) : a.hull b = b.hull a := by
  simp only [hull, Span.mk.injEq]
  omega

@[simp] theorem hull_self (a : Span) : a.hull a = a := by
  simp [hull]

end Span

end CommandConsole
