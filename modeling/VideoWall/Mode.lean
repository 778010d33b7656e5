import VideoWall.Limits
import VideoWall.Display

/-! The mode of several outputs seen as one display.

    Widths add up from left to right, the tallest output gives the height, refresh and densities are
    means, and the preferred output is the one that refreshes fastest. Sums are taken before the one
    division, which truncates toward zero. -/

namespace VideoWall

/-- What one output contributes. -/
structure OutputMode where
  width : Nat
  height : Nat
  refresh : Int
  dpiX : Int
  dpiY : Int
  deriving DecidableEq, Repr

/-- The mode of the whole wall. -/
structure CompositeMode where
  width : Nat := 0
  height : Nat := 0
  refresh : Int := 0
  dpiX : Int := 0
  dpiY : Int := 0
  preferred : Nat := 0
  deriving DecidableEq, Repr

/-- The fastest output seen so far: its index, its refresh, and whether there was one at all. -/
structure Preference where
  index : Nat := 0
  best : Int := 0
  found : Bool := false
  deriving DecidableEq, Repr

/-- A strictly faster output takes the preference over; a tie does not. -/
def Preference.see (p : Preference) (x : Nat × Int) : Preference :=
  if p.best < x.2 then ⟨x.1, x.2, true⟩ else p

/-- The first output with the highest refresh, if any refresh is positive. -/
def preferredOutput (refreshes : List (Nat × Int)) : Option Nat :=
  let p := refreshes.foldl Preference.see {}
  if p.found then some p.index else none

/-- The refreshes of some modes, each with its position. -/
def indexedRefreshes (modes : List OutputMode) : List (Nat × Int) :=
  modes.zipIdx.map fun m => (m.2, m.1.refresh)

namespace CompositeMode

/-- One division after summing, toward zero. -/
def mean (xs : List Int) : Int := Limits.measure ((xs.foldl (· + ·) 0).tdiv xs.length)

/-- Widths add up and stop at the largest count. -/
def totalWidth (modes : List OutputMode) : Nat :=
  modes.foldl (fun w m => Limits.count (w + m.width)) 0

/-- The height of the tallest output. -/
def maxHeight (modes : List OutputMode) : Nat := modes.foldl (fun h m => max h m.height) 0

/-- The mode of outputs given from left to right; without outputs it is all zero. -/
def ofOutputs (modes : List OutputMode) : CompositeMode where
  width := totalWidth modes
  height := maxHeight modes
  refresh := mean (modes.map (·.refresh))
  dpiX := mean (modes.map (·.dpiX))
  dpiY := mean (modes.map (·.dpiY))
  preferred := (preferredOutput (indexedRefreshes modes)).getD 0

/-- The value of an attribute; sizes stop at the largest measure, and a wall has no config group. -/
def report (m : CompositeMode) : Attribute → Except Unsupported Int
  | .width => .ok (Limits.measure m.width)
  | .height => .ok (Limits.measure m.height)
  | .refreshRate => .ok m.refresh
  | .dpiX => .ok m.dpiX
  | .dpiY => .ok m.dpiY
  | .configGroup => .error ⟨.configGroup⟩

def describe (m : CompositeMode) : String :=
  s!"CompositeMode \x7b width: {m.width}, height: {m.height}, refresh: {m.refresh}, " ++
  s!"dpi_x: {m.dpiX}, dpi_y: {m.dpiY}, preferred_output: {m.preferred} \x7d"

end CompositeMode

end VideoWall
