import VideoWall.Mode
import VideoWall.Vsync.Cycle

/-! What the controller of a wall remembers, and what it decides.

    The controller averages the vblanks of its outputs into one vsync, folds their hotplugs into one
    connection state, and passes refresh requests on while there is something to see. Each decision
    is a function from the state to the next state and to the notices that have to be delivered; the
    listener and the display of a notice are settled when it is decided, not when it is
    delivered. -/

namespace VideoWall

/-- What a listener is told. -/
inductive Notice where | vsync (time : Int) | refresh | hotplug (connected : Bool)
  deriving DecidableEq, Repr

/-- A notice for the listener with the given number, on behalf of a display. -/
structure Delivery where
  listener : Nat
  display : DisplayId
  notice : Notice
  deriving DecidableEq, Repr

/-- The state of a controller. `connected` is the connection state last told to the host, and
    `stale` says that a hotplug has come in since the workers were last matched with the outputs.
    Listeners are known by number; all of them share one display. -/
structure Controller where
  activeConfig : Nat := 0
  mode : CompositeMode
  power : PowerMode := .off
  display : DisplayId := {}
  vsyncEnabled : Bool := false
  cycle : Vsync.Cycle
  connected : Bool
  stale : Bool := true
  vsyncListener : Option Nat := none
  refreshListener : Option Nat := none
  hotplugListener : Option Nat := none
  deriving DecidableEq, Repr

namespace Controller

/-- A controller at configuration 0, powered off, with `outputs` of its outputs connected. -/
def create (mode : CompositeMode) (outputs : Nat) : Controller where
  mode
  cycle := .fresh outputs
  connected := 0 < outputs

/-- Sets the listener of one kind of notice, and the display for all of them. -/
def listenVsync (c : Controller) (listener : Nat) (display : DisplayId) : Controller :=
  { c with display, vsyncListener := some listener }

def listenRefresh (c : Controller) (listener : Nat) (display : DisplayId) : Controller :=
  { c with display, refreshListener := some listener }

def listenHotplug (c : Controller) (listener : Nat) (display : DisplayId) : Controller :=
  { c with display, hotplugListener := some listener }

/-- Switches vsync; a change drops the cycle in progress. -/
def control (c : Controller) (enabled : Bool) : Controller :=
  if c.vsyncEnabled = enabled then c
  else { c with vsyncEnabled := enabled, cycle := c.cycle.restart }

/-- A vblank of some output: it counts while vsync is enabled and somebody listens. -/
def vblank (c : Controller) (time : Int) : Controller × List Delivery :=
  match c.vsyncEnabled, c.vsyncListener with
  | true, some listener =>
    let (cycle, mean) := c.cycle.observe time
    ({ c with cycle }, mean.toList.map fun t => ⟨listener, c.display, .vsync t⟩)
  | _, _ => (c, [])

/-- Whether a hotplug to `connected`, with `outputs` outputs connected by now, changes the
    connection state: it has to differ, and a wall stays connected as long as any output is. -/
def turns (c : Controller) (outputs : Nat) (connected : Bool) : Bool :=
  c.connected != connected && (connected || outputs == 0)

/-- A hotplug of some output, with `outputs` outputs connected by now. A cycle that is cut short is
    delivered first, then the connection state if it turns; without a listener it never turns. -/
def hotplug (c : Controller) (outputs : Nat) (connected : Bool) : Controller × List Delivery :=
  let (cycle, mean) := c.cycle.retarget outputs (c.vsyncEnabled && c.vsyncListener.isSome)
  let flushed := match c.vsyncListener, mean with
    | some listener, some t => [⟨listener, c.display, .vsync t⟩]
    | _, _ => []
  let c := { c with cycle, stale := true }
  match c.turns outputs connected, c.hotplugListener with
  | true, some listener =>
    ({ c with connected }, flushed ++ [⟨listener, c.display, .hotplug connected⟩])
  | _, _ => (c, flushed)

/-- A refresh request of some output: it is passed on while the wall is connected and fully
    powered. -/
def refresh (c : Controller) : List Delivery :=
  if c.connected && c.power.isOn then
    c.refreshListener.toList.map fun listener => ⟨listener, c.display, .refresh⟩
  else []

/-- The name that a wall reports. -/
def title : String := "Mosaic"

/-- The bytes of the name. -/
def name : List UInt8 := title.toUTF8.toList

/-- The name for a host that gives no buffer, as its length, or for one that gives a buffer, as the
    number of bytes copied and the buffer: as much of the name as fits, and a zero behind it. -/
def copyName : Option (List UInt8) → Nat × Option (List UInt8)
  | none => (name.length, none)
  | some [] => (0, some [])
  | some buffer =>
    let copied := min name.length (buffer.length - 1)
    (copied, some (name.take copied ++ 0 :: buffer.drop (copied + 1)))

/-- The configurations of a wall: always the one with index 0, written to the buffer's first
    slot. -/
def copyConfigs : Option (List Nat) → Nat × Option (List Nat)
  | some (_ :: rest) => (1, some (0 :: rest))
  | buffer => (1, buffer)

end Controller

end VideoWall
