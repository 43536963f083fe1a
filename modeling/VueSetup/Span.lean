/-!
# VueSetup.Span

A stretch of a text, as the two byte offsets that bound it. Every syntax node, every block of a
single-file component and every edit is addressed by one.
-/

namespace VueSetup

/-- The bytes from `start` up to, and without, `stop`. -/
structure Span where
  start : Nat
  stop : Nat
  deriving DecidableEq, Repr, Inhabited

namespace Span

/-- The offset lies between the ends and on neither of them. -/
def encloses (s : Span) (offset : Nat) : Bool :=
  s.start < offset && offset < s.stop

end Span

end VueSetup
