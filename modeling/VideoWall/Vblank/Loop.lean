import VideoWall.Display
import VideoWall.Log
import VideoWall.Drm.Decode
import VideoWall.Vblank.Request

/-! The event loop of one output, which turns page flips into vsync timestamps.

    While it runs, the loop handles one reading of its device after another: every completed flip in
    it is passed to the registered callback, and then the next vblank is asked for. The interval
    tracker sees every flip, forwarded or not, and forgets the last one whenever the callback or the
    forwarding changes. The loop is generic in what a callback is. -/

namespace VideoWall.Vblank

/-- Why a device could not be read. -/
inductive ReadError where | wouldBlock | interrupted | other
  deriving DecidableEq, Repr

/-- Every failure reads alike. -/
def ReadError.message (_ : ReadError) : String := "scripted read failure"

/-- What one read of a device gives. -/
inductive Reading where | bytes (bytes : List UInt8) | failure (cause : ReadError)
  deriving DecidableEq, Repr

/-- What the loop of a pipe has to say. -/
inductive Remark where
  | forwardingChanged (enabled : Bool)
  | pageFlip (crtc : Option UInt32) (frameMicros : Int)
  | malformed (cause : Drm.DecodeError)
  | readFailed (cause : ReadError)
  | requestFailed
  deriving DecidableEq, Repr

/-- The log line of a remark about a pipe. -/
def Remark.line (pipe : Nat) : Remark → Log.Line
  | .forwardingChanged enabled =>
    ⟨.trace, "vblank forwarding changed", [("pipe", .int pipe), ("enabled", .flag enabled)]⟩
  | .pageFlip crtc micros =>
    let name := match crtc with
      | none => "None"
      | some c => s!"Some({c})"
    ⟨.trace, "page flip",
      [("pipe", .int pipe), ("crtc", .text name), ("frame_time_us", .int micros)]⟩
  | .malformed cause =>
    ⟨.warn, "discarding malformed DRM events", [("pipe", .int pipe), ("err", .text cause.message)]⟩
  | .readFailed cause =>
    ⟨.error, "failed to read DRM events", [("pipe", .int pipe), ("err", .text cause.message)]⟩
  | .requestFailed =>
    ⟨.trace, "vblank request failed", [("pipe", .int pipe), ("err", .text Request.refusal)]⟩

/-- The device of a loop: readings not yet handled, whether it refuses vblank requests for now or
    for good, how many it has had, and the last of them. -/
structure Device where
  queued : List Reading := []
  refuses : Bool := false
  inert : Bool := false
  armed : Nat := 0
  request : Option Request := none
  deriving DecidableEq, Repr

/-- A loop whose callbacks are of type `κ`. -/
structure Loop (κ : Type) where
  pipe : Nat
  running : Bool := false
  callback : Option κ := none
  display : DisplayId := {}
  enabled : Bool := false
  interval : FrameInterval := {}
  idle : Option κ := none
  device : Device := {}
  deriving DecidableEq, Repr

/-- A timestamp on its way to a callback. -/
structure Call (κ : Type) where
  callback : κ
  display : DisplayId
  time : Int
  deriving DecidableEq, Repr

/-- What there is to do about a reading, one thing at a time. -/
inductive Item where | flip (body : Drm.Flip) | remark (remark : Remark)
  deriving DecidableEq, Repr

/-- Room for one read; what does not fit is lost. -/
def bufferLength : Nat := 1024

/-- Completed flips are forwarded and malformed bytes remarked on; other records are of no
    interest. -/
def Item.ofDecoded : Except Drm.DecodeError Drm.Event → Option Item
  | .ok (.flipComplete body) => some (.flip body)
  | .ok _ => none
  | .error cause => some (.remark (.malformed cause))

/-- Whether an item is a completed flip. -/
def Item.isFlip : Item → Bool
  | .flip _ => true
  | .remark _ => false

/-- The items of a reading; a read that would block has none. -/
def Reading.items : Reading → List Item
  | .bytes bs => (Drm.decode (bs.take bufferLength)).filterMap Item.ofDecoded
  | .failure .wouldBlock => []
  | .failure cause => [.remark (.readFailed cause)]

namespace Loop

variable {κ : Type}

/-- Sets the callback and the display it is told about. -/
def register (l : Loop κ) (callback : κ) (display : DisplayId) : Loop κ :=
  { l with callback := some callback, display, interval := l.interval.reset }

/-- Switches forwarding; asking for what already holds does nothing. -/
def control (l : Loop κ) (enabled : Bool) : Loop κ × List Remark :=
  if l.enabled = enabled then (l, [])
  else ({ l with enabled, interval := l.interval.reset }, [.forwardingChanged enabled])

/-- Installs the hook that runs at the top of every iteration. -/
def setIdle (l : Loop κ) (hook : κ) : Loop κ := { l with idle := some hook }

/-- The loop runs from now on. A loop that does not start, which would only be logged, is not
    modelled. -/
def start (l : Loop κ) : Loop κ := { l with running := true }

/-- The loop rests from now on; readings wait on the device. -/
def stop (l : Loop κ) : Loop κ := { l with running := false }

/-- A loop runs while its output is fully powered. -/
def setPower (l : Loop κ) (mode : PowerMode) : Loop κ := if mode.isOn then l.start else l.stop

/-- Puts a reading behind those that wait on the device. -/
def enqueue (l : Loop κ) (r : Reading) : Loop κ :=
  { l with device := { l.device with queued := l.device.queued ++ [r] } }

/-- The next reading of a running loop. -/
def take? (l : Loop κ) : Option (Reading × Loop κ) :=
  match l.running, l.device.queued with
  | true, r :: rest => some (r, { l with device := { l.device with queued := rest } })
  | _, _ => none

/-- A reading is taken off the front, and nothing else changes. -/
theorem of_take?_eq_some {l m : Loop κ} {r : Reading} (h : l.take? = some (r, m)) :
    l.running = true ∧ l.device.queued = r :: m.device.queued ∧
      m = { l with device := { l.device with queued := m.device.queued } } := by
  unfold take? at h
  split at h
  · next hr hq =>
    simp only [Option.some.injEq, Prod.mk.injEq] at h
    obtain ⟨rfl, rfl⟩ := h
    exact ⟨hr, hq, rfl⟩
  · cases h

/-- A running loop finds a reading, unless none waits. -/
theorem queued_of_take?_eq_none {l : Loop κ} (h : l.take? = none) (hr : l.running = true) :
    l.device.queued = [] := by
  cases hq : l.device.queued with
  | nil => rfl
  | cons r rest => simp [take?, hr, hq] at h

/-- Whether some reading that waits on the device will make a call, as things stand. -/
def isCalling (l : Loop κ) : Bool :=
  l.enabled && l.callback.isSome && l.device.queued.any fun r => r.items.any Item.isFlip

/-- The call that a flip makes: forwarding has to be enabled and a callback registered. -/
def forward? (l : Loop κ) (f : Drm.Flip) : Option (Call κ) :=
  if l.enabled then l.callback.map fun c => ⟨c, l.display, f.time⟩ else none

/-- Handles a completed flip: the time since the flip before it is remarked on, and the flip is
    forwarded. An interval out of range, which two flips never have, would lose the flip. -/
def flip (l : Loop κ) (f : Drm.Flip) : Loop κ × List Remark × Option (Call κ) :=
  match l.interval.observe f.time with
  | .error _ => (l, [], none)
  | .ok (interval, delta) =>
    let l := { l with interval }
    (l, (delta.map fun d => Remark.pageFlip f.crtc? (d.tdiv 1000)).toList, l.forward? f)

/-- Asks the device for the next vblank of the loop's own pipe. -/
def arm (l : Loop κ) : Loop κ × List Remark :=
  ({ l with device := { l.device with
      armed := l.device.armed + 1
      request := some (Request.next l.pipe) } },
    if l.device.refuses || l.device.inert then [.requestFailed] else [])

def describe (l : Loop κ) : String :=
  s!"VblankEventLoop \x7b pipe: {l.pipe}, request: {(Request.next l.pipe).describe}, " ++
  s!"running: {l.running}, .. \x7d"

end Loop

end VideoWall.Vblank
