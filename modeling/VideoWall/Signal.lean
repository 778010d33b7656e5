/-! A completion signal between a worker and whoever waits for it.

    A raise before the wait is not lost, and several raises before one wait count as one. -/

namespace VideoWall

/-- A signal: raised or not. -/
structure Signal where
  raised : Bool := false
  deriving DecidableEq, Repr

namespace Signal

/-- Raises the signal; a raised one stays so. -/
def raise (_ : Signal) : Signal := ⟨true⟩

/-- Takes a raised signal down; a wait for one that is down would block. -/
def wait? (s : Signal) : Option Signal := if s.raised then some ⟨false⟩ else none

end Signal

end VideoWall
