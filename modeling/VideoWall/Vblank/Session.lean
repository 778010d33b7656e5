import VideoWall.Vblank.Loop

/-! A loop in use: it is started and stopped, its callbacks are replaced, and readings arrive.

    A callback, and the hook that runs at the top of every iteration, may change the loop they are
    called from: each carries a script of changes and a number of invocations on which it performs
    them. A running loop handles one reading at a turn. An operation that is run brings the loop to
    rest afterwards: it has handled every reading and waits for another. -/

namespace VideoWall.Vblank

/-- A change to a loop that is allowed while one of its callbacks runs. A new callback or hook comes
    with the script it performs on its first `limit` invocations. -/
inductive Change where
  | register (display : DisplayId) (script : List Change) (limit : Nat)
  | control (enabled : Bool)
  | idle (tag : String) (script : List Change) (limit : Nat)

/-- An operation on a loop. -/
inductive Operation where
  | start
  | stop
  | power (mode : PowerMode)
  | change (change : Change)
  | read (reading : Reading)
  | refuse (refuses : Bool)
  | describe

/-- An installed callback or hook: its script, and how many invocations still perform it. -/
structure Hook where
  tag : String := ""
  script : List Change
  left : Nat

/-- What a loop does: it starts or stops, begins an iteration, takes a reading off its device, comes
    to a completed flip, asks for a vblank, gets another callback or has forwarding switched, runs
    the hook or calls the callback with the given number, or remarks on something. -/
inductive Event where
  | started
  | stopped
  | iteration
  | took (reading : Reading)
  | flipped (body : Drm.Flip)
  | armed (request : Request)
  | registered (callback : Nat) (display : DisplayId)
  | switched (enabled : Bool)
  | idle (hook : Nat) (tag : String)
  | vsync (callback : Nat) (display : DisplayId) (time : Int)
  | remark (remark : Remark)
  deriving DecidableEq, Repr

/-- Hooks, callbacks and remarks can be noticed from outside the loop. -/
def Event.isVisible : Event → Bool
  | .idle .. | .vsync .. | .remark _ => true
  | _ => false

/-- A loop with the hooks and callbacks installed so far, by number, and what it did since last
    asked. -/
structure Session where
  loop : Loop Nat
  hooks : List Hook := []
  events : List Event := []

namespace Session

/-- A stopped loop on a pipe; an inert device refuses every vblank request. -/
def create (pipe : Nat) (inert : Bool) : Session := { loop := { pipe, device := { inert } } }

/-- Notes what the loop did. -/
def emit (s : Session) (es : List Event) : Session := { s with events := s.events ++ es }

/-- Notes what the loop has to say. -/
def remarks (s : Session) (rs : List Remark) : Session := s.emit (rs.map .remark)

/-- Performs one change. -/
def apply (s : Session) : Change → Session
  | .register display script limit =>
    { s.emit [.registered s.hooks.length display] with
      loop := s.loop.register s.hooks.length display
      hooks := s.hooks ++ [{ script, left := limit }] }
  | .control enabled =>
    let (loop, rs) := s.loop.control enabled
    ({ s with loop }.emit [.switched enabled]).remarks rs
  | .idle tag script limit =>
    { s with
      loop := s.loop.setIdle s.hooks.length
      hooks := s.hooks ++ [{ tag, script, left := limit }] }

/-- Runs the script of a hook, unless it is used up. -/
def perform (s : Session) (id : Nat) : Session :=
  match s.hooks[id]? with
  | some { tag, script, left := left + 1 } =>
    script.foldl apply { s with hooks := s.hooks.set id { tag, script, left } }
  | _ => s

/-- The top of an iteration: the hook installed by now runs. -/
def begin (s : Session) : Session :=
  let s := s.emit [.iteration]
  match s.loop.idle with
  | none => s
  | some id => (s.emit [.idle id ((s.hooks[id]?.map (·.tag)).getD "")]).perform id

/-- Handles one item of a reading. -/
def item (s : Session) : Item → Session
  | .remark r => s.remarks [r]
  | .flip f =>
    let (loop, rs, call) := s.loop.flip f
    let s := ({ s with loop }.emit [.flipped f]).remarks rs
    match call with
    | none => s
    | some c => (s.emit [.vsync c.callback c.display c.time]).perform c.callback

/-- The rest of an iteration once a reading is there: its items, the next vblank request, and the
    top of the iteration after it. -/
def handle (s : Session) (r : Reading) : Session :=
  let s := r.items.foldl item (s.emit [.took r])
  let (loop, rs) := s.loop.arm
  (({ s with loop }.emit [.armed (.next s.loop.pipe)]).remarks rs).begin

/-- Handles the reading that has waited longest, if the loop runs. -/
def turn (s : Session) : Session :=
  match s.loop.take? with
  | some (r, loop) => { s with loop }.handle r
  | none => s

/-- Handles every reading that waits, if the loop runs. -/
def settle (s : Session) : Session := Nat.repeat turn s.loop.device.queued.length s

/-- Starts a loop unless it runs already; its first iteration begins at once. -/
def start (s : Session) : Session :=
  if s.loop.running then s else ({ s with loop := s.loop.start }.emit [.started]).begin

/-- Stops a loop between two of its turns. -/
def stop (s : Session) : Session :=
  if s.loop.running then { s with loop := s.loop.stop }.emit [.stopped] else s

/-- Performs one operation; the loop has not yet had a turn since. -/
def act (s : Session) : Operation → Session
  | .start => s.start
  | .stop => s.stop
  | .power mode => if mode.isOn then s.start else s.stop
  | .change c => s.apply c
  | .read r => { s with loop := s.loop.enqueue r }
  | .refuse refuses => { s with loop := { s.loop with device := { s.loop.device with refuses } } }
  | .describe => s

/-- Performs one operation and brings the loop to rest. -/
def run (s : Session) (op : Operation) : Session := (s.act op).settle

end Session

end VideoWall.Vblank
