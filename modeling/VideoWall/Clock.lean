import VideoWall.Limits

/-! Times of page flips, in nanoseconds, and the intervals between them. -/

namespace VideoWall

/-- The time of a flip that happened `seconds` and `micros` after the clock's start. -/
def flipTime (seconds micros : UInt32) : Int :=
  (seconds.toNat : Int) * 1000000000 + (micros.toNat : Int) * 1000

/-- The time of the last flip, if there was one since the tracker was reset. -/
structure FrameInterval where
  last : Option Int := none
  deriving DecidableEq, Repr

/-- The difference of two times does not fit their range. -/
inductive IntervalError where | overflow
  deriving DecidableEq, Repr

/-- The text of the error. -/
def IntervalError.message : IntervalError → String
  | .overflow => "attempt to subtract with overflow"

namespace FrameInterval

/-- Notes a time and gives the time since the one before it; nothing is noted when that is out of
    range. -/
def observe (i : FrameInterval) (t : Int) : Except IntervalError (FrameInterval × Option Int) :=
  match i.last with
  | none => .ok (⟨some t⟩, none)
  | some last =>
    if Limits.minTime ≤ t - last ∧ t - last ≤ Limits.maxTime then .ok (⟨some t⟩, some (t - last))
    else .error .overflow

/-- Forgets the last time. -/
def reset (_ : FrameInterval) : FrameInterval := {}

end FrameInterval

end VideoWall
