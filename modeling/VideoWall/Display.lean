/-! The vocabulary of displays: identities, power modes, and the attributes a display can be asked
    for. Every type here has one `describe` that gives its text. -/

namespace VideoWall

/-- Identity of a physical output: its position from the left. -/
structure OutputId where
  index : Nat
  deriving DecidableEq, Repr

/-- Identity of a display as its host knows it. -/
structure DisplayId where
  value : Nat := 0
  deriving DecidableEq, Repr

/-- Stable identity of a layer. -/
structure LayerId where
  value : Nat
  deriving DecidableEq, Repr

def OutputId.describe (o : OutputId) : String := s!"OutputId({o.index})"

def DisplayId.describe (d : DisplayId) : String := s!"DisplayId({d.value})"

def LayerId.describe (l : LayerId) : String := s!"LayerId({l.value})"

/-- Power modes; a display starts off. -/
inductive PowerMode where | off | doze | on | dozeSuspend
  deriving DecidableEq, Repr, Inhabited

namespace PowerMode

/-- Frames are shown in the fully powered mode alone. -/
def isOn : PowerMode → Bool
  | .on => true
  | _ => false

def describe : PowerMode → String
  | .off => "Off"
  | .doze => "Doze"
  | .on => "On"
  | .dozeSuspend => "DozeSuspend"

end PowerMode

/-- What a display can be asked to report. -/
inductive Attribute where | width | height | refreshRate | dpiX | dpiY | configGroup
  deriving DecidableEq, Repr

def Attribute.describe : Attribute → String
  | .width => "Width"
  | .height => "Height"
  | .refreshRate => "RefreshRate"
  | .dpiX => "DpiX"
  | .dpiY => "DpiY"
  | .configGroup => "ConfigGroup"

/-- The answer to a question about an attribute that a display does not have. -/
structure Unsupported where
  asked : Attribute
  deriving DecidableEq, Repr

namespace Unsupported

def message (u : Unsupported) : String :=
  s!"display attribute {u.asked.describe} is not supported"

/-- The number written where a host wants an integer for an unsupported attribute. -/
def sentinel : Int := -1

end Unsupported

end VideoWall
