import VideoWall.Mode
import VideoWall.Window
import VideoWall.Fence
import VideoWall.Vblank.Loop

/-! A physical output: what it can show, whether it is connected, who listens to it, and the release
    fences it has handed out.

    An output may own a vblank loop. Whatever the loop forwards goes the same way as the output's
    own vblanks, so the loop's callback carries no information of its own. -/

namespace VideoWall

/-- A configuration of an output; an output need not know its refresh or densities. -/
structure OutputConfig where
  width : Nat
  height : Nat
  refresh : Option Int
  dpiX : Option Int
  dpiY : Option Int
  deriving DecidableEq, Repr

/-- Why an output does not show a frame. -/
inductive PresentError where | rejected (message : String) | io
  deriving DecidableEq, Repr

/-- The text of the reason. -/
def PresentError.message : PresentError → String
  | .rejected m => s!"output rejected the frame: {m}"
  | .io => "frame submission failed"

/-- What can be listened for. -/
inductive Channel where | vsync | refresh | hotplug
  deriving DecidableEq, Repr

/-- A call made to an output. -/
inductive OutputCall where
  | setActiveConfig (config : Nat)
  | setPowerMode (mode : PowerMode)
  | register (channel : Channel) (display : DisplayId)
  | control (enabled : Bool)
  | present (layers : List TileLayer) (upload failed : Bool)
  deriving DecidableEq, Repr

/-- An output. The fields `onVsync`, `onRefresh` and `onHotplug` say for which display the listener
    of each channel was registered; `issued` counts the fences made so far, and `live` holds those
    that somebody still has. -/
structure Output where
  configs : List OutputConfig := []
  active : Nat := 0
  connected : Bool := true
  logicalIndex : Nat := 0
  pipe : Nat := 0
  formats : List Nat := []
  fences : Bool := false
  failure : Option PresentError := none
  onVsync : Option DisplayId := none
  onRefresh : Option DisplayId := none
  onHotplug : Option DisplayId := none
  forwarding : Bool := false
  loop : Option (Vblank.Loop Unit) := none
  issued : Nat := 0
  live : List Fence := []
  deriving DecidableEq, Repr

/-- A silent change to an output; what is left out stays. -/
structure OutputChange where
  connected : Option Bool := none
  logicalIndex : Option Nat := none
  fences : Option Bool := none
  failure : Option (Option PresentError) := none
  deriving DecidableEq, Repr

namespace Output

/-- Makes a silent change; nobody is told. -/
def change (o : Output) (c : OutputChange) : Output :=
  { o with
    connected := c.connected.getD o.connected
    logicalIndex := c.logicalIndex.getD o.logicalIndex
    fences := c.fences.getD o.fences
    failure := c.failure.getD o.failure }

/-- Width of the active configuration. -/
def width (o : Output) : Nat := (o.configs[o.active]?.map (·.width)).getD 0

/-- Height of the active configuration. -/
def height (o : Output) : Nat := (o.configs[o.active]?.map (·.height)).getD 0

/-- An attribute at a configuration, active or not; sizes stop at the largest measure. -/
def report (o : Output) (config : Nat) (a : Attribute) : Except Unsupported Int :=
  let value := o.configs[config]?.bind fun c =>
    match a with
    | .width => some (Limits.measure c.width)
    | .height => some (Limits.measure c.height)
    | .refreshRate => c.refresh
    | .dpiX => c.dpiX
    | .dpiY => c.dpiY
    | .configGroup => none
  match value with
  | some x => .ok x
  | none => .error ⟨a⟩

/-- An attribute, or zero where the output has none. -/
def reportOrZero (o : Output) (config : Nat) (a : Attribute) : Int :=
  match o.report config a with
  | .ok x => x
  | .error _ => 0

/-- The size the output has now, with refresh and densities of the given configuration. -/
def mode (o : Output) (config : Nat) : OutputMode where
  width := o.width
  height := o.height
  refresh := o.reportOrZero config .refreshRate
  dpiX := o.reportOrZero config .dpiX
  dpiY := o.reportOrZero config .dpiY

/-- Switches to a configuration; one that the output does not have is ignored. -/
def setActiveConfig (o : Output) (config : Nat) : Output :=
  if config < o.configs.length then { o with active := config } else o

/-- Replaces the loop, if there is one. -/
def mapLoop (o : Output) (f : Vblank.Loop Unit → Vblank.Loop Unit) : Output :=
  { o with loop := o.loop.map f }

/-- The power mode matters to the loop alone. -/
def setPowerMode (o : Output) (mode : PowerMode) : Output := o.mapLoop (·.setPower mode)

/-- Registers the listener of a channel under the output's own pipe; the loop serves vsync too. -/
def register (o : Output) : Channel → Output
  | .vsync => { o with onVsync := some ⟨o.pipe⟩ }.mapLoop (·.register () ⟨o.pipe⟩)
  | .refresh => { o with onRefresh := some ⟨o.pipe⟩ }
  | .hotplug => { o with onHotplug := some ⟨o.pipe⟩ }

/-- Switches vblank delivery, of the loop too. -/
def control (o : Output) (enabled : Bool) : Output :=
  { o with forwarding := enabled }.mapLoop fun l => (l.control enabled).1

/-- Shows a frame, unless the output is set to fail; it may come with a new release fence. -/
def present (o : Output) : Output × Except PresentError (Option Fence) :=
  match o.failure with
  | some cause => (o, .error cause)
  | none =>
    if o.fences then
      ({ o with issued := o.issued + 1, live := o.live ++ [⟨o.issued⟩] }, .ok (some ⟨o.issued⟩))
    else (o, .ok none)

/-- A holder lets go of one of the output's fences. -/
def release (o : Output) : Option Fence → Output
  | none => o
  | some f => { o with live := o.live.erase f }

end Output

end VideoWall
