import VideoWall.Limits

/-! One averaged vsync out of the vblanks of several outputs.

    A cycle waits for as many timestamps as outputs are connected. The timestamp that completes it
    yields the mean of all of them, one division toward zero after a saturating sum, and the next
    cycle begins. When outputs disappear in the middle of a cycle, and as many remain as timestamps
    are still awaited, the cycle is cut short and yields the mean of the timestamps it has. -/

namespace VideoWall.Vsync

/-- The cycle in progress: timestamps still awaited, outputs that take part, the sum so far, and
    whether any timestamp has come in. -/
structure Cycle where
  awaited : Nat := 0
  divisor : Nat := 0
  total : Int := 0
  pending : Bool := false
  deriving DecidableEq, Repr

namespace Cycle

/-- A cycle that has not begun, for `outputs` outputs. -/
def fresh (outputs : Nat) : Cycle := ⟨outputs, outputs, 0, false⟩

/-- Takes one timestamp in; without outputs it is ignored. -/
def observe (c : Cycle) (t : Int) : Cycle × Option Int :=
  if c.divisor = 0 then (c, none) else
    let total := Limits.time (c.total + t)
    if c.awaited - 1 = 0 then (fresh c.divisor, some (total.tdiv c.divisor))
    else ({ c with awaited := c.awaited - 1, total, pending := true }, none)

/-- What a cycle cut short by a change to `outputs` outputs yields: the mean of its timestamps, when
    a flush is asked for and as many outputs remain as timestamps are awaited. -/
def cutShort (c : Cycle) (outputs : Nat) (flush : Bool) : Option Int :=
  let collected := c.divisor - c.awaited
  if flush && c.pending && 0 < outputs && c.awaited == outputs && collected != 0 then
    some (c.total.tdiv collected)
  else none

/-- The number of outputs has changed: the cycle starts over for the new number. -/
def retarget (c : Cycle) (outputs : Nat) (flush : Bool) : Cycle × Option Int :=
  (fresh outputs, c.cutShort outputs flush)

/-- Forgets the timestamps of the cycle in progress. -/
def restart (c : Cycle) : Cycle := fresh c.divisor

end Cycle

end VideoWall.Vsync
