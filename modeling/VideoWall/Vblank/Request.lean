/-! Requests to be woken at the next vblank of a pipe. -/

namespace VideoWall.Vblank

/-- A vblank request: its kind word, and how many vblanks to wait. -/
structure Request where
  kind : Nat
  sequence : Nat
  deriving DecidableEq, Repr

namespace Request

/-- Bit 0 makes the count relative to now; bits 1 to 5 hold the pipe, so pipes 0 to 31 can be told
    apart. -/
def next (pipe : Nat) : Request := ⟨1 ||| ((pipe <<< 1) &&& 0x3e), 1⟩

def describe (r : Request) : String :=
  s!"VblankRequest \x7b kind: {r.kind}, sequence: {r.sequence} \x7d"

/-- The answer of a device that refuses the request. -/
def refusal : String := "vblank wait request failed"

end Request

end VideoWall.Vblank
