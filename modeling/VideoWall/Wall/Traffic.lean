import VideoWall.Wall.Run

/-! A wall on which several threads act at once.

    Hosts, loops, and whoever brings readings work on threads of their own. A power mode, a change
    of vsync and a new listener change the controller at once. Then the call goes to one output
    after another, and other threads may do anything in between. So may they between the moment at
    which a loop looks at a flip and the moment at which it forwards it. `Wall.perform` is what
    comes of an operation if nobody else does anything meanwhile. -/

namespace VideoWall

/-- A call that the controller makes to its outputs, one after another. -/
inductive Fanout where
  | power (mode : PowerMode)
  | control (enabled : Bool)
  | register (channel : Channel)
  deriving DecidableEq, Repr

/-- Something that a loop can be told: to run, to forward, or to call the controller. -/
inductive Aspect where | running | forwarding | calling
  deriving DecidableEq, Repr

namespace Fanout

/-- What becomes of an output that the call comes to. -/
def apply : Fanout → Output → Output
  | .power mode, o => o.setPowerMode mode
  | .control enabled, o => o.control enabled
  | .register channel, o => o.register channel

/-- Whether the call starts the loop of the output. -/
def starts (f : Fanout) (o : Output) : Bool :=
  match f with
  | .power mode => o.loop.any fun l => mode.isOn && !l.running
  | _ => false

/-- What the call tells a loop, if it tells it anything about that. -/
def says? : Fanout → Aspect → Option Bool
  | .power mode, .running => some mode.isOn
  | .control enabled, .forwarding => some enabled
  | .register .vsync, .calling => some true
  | _, _ => none

/-- Whether two calls tell a loop different things. -/
def contradicts (f g : Fanout) : Bool :=
  [Aspect.running, .forwarding, .calling].any fun a =>
    (f.says? a).isSome && (g.says? a).isSome && f.says? a != g.says? a

end Fanout

/-- A call on its way: the thread that makes it, the next output that it comes to, and whether it
    has come to an output ahead of an earlier call that tells the loop there something else. -/
structure Walk where
  author : Nat
  call : Fanout
  next : Nat := 0
  early : Bool := false
  deriving DecidableEq, Repr

/-- Something that a thread has left to do: a task, a flip to forward, or a call on its way, by its
    number. -/
inductive Chore where
  | task (task : Task)
  | forward (time : Int)
  | walk (number : Nat)

/-- A wall, what each thread has left to do, and all calls to the outputs so far, oldest first,
    those on their way and those that are through. -/
structure Traffic where
  wall : Wall
  threads : List (List Chore)
  walks : List Walk := []

/-- What comes of a chore: the wall after it, what is left to do because of it, and the tiles whose
    loops get to their readings on threads of their own. -/
structure Outcome where
  wall : Wall
  chores : List Chore := []
  late : List Nat := []

namespace Wall

/-- What an operation changes at the controller before it goes to the outputs, and the call with
    which it goes there; most operations make no such call. -/
def commit? (w : Wall) (op : Op) : Option (Wall × Fanout) :=
  match w.held, w.controller with
  | true, some c =>
    match op with
    | .setPowerMode mode =>
      some ({ w with controller := some { c with power := mode } }, .power mode)
    | .control enabled =>
      if c.vsyncEnabled = enabled then none
      else some ({ w with controller := some (c.control enabled) }, .control enabled)
    | .listen channel display tag script limit =>
      let controller := some (c.listen channel w.listeners.length display)
      some ({ w.addListener { tag, script, left := limit } with controller }, .register channel)
    | _ => none
  | _, _ => none

/-- What comes of a chore that is done in one go; `mark` is the number of events so far, which are
    not kept. -/
def dispose (w : Wall) (mark : Nat) : Chore → Outcome
  | .task (.item i (.flip f)) =>
    match w.outputs[i]?.bind (·.loop) with
    | none => ⟨w, [], []⟩
    | some l =>
      let (l', _, call) := l.flip f
      ⟨w.setOutput i (·.mapLoop fun _ => l'), (call.map fun c => .forward c.time).toList, []⟩
  | .task t =>
    let e := w.exec mark t
    ⟨e.wall, e.tasks.map .task, e.late⟩
  | .forward time =>
    let e := w.enter (·.vblank time)
    ⟨e.wall, e.tasks.map .task, e.late⟩
  | .walk _ => ⟨w, [], []⟩

/-- A flip without a loop comes to nothing. Otherwise its loop notes it, and calls later if the flip
    is to be forwarded. -/
theorem dispose_flip_cases (w : Wall) (mark i : Nat) (f : Drm.Flip) :
    w.outputs[i]?.bind (·.loop) = none ∧ w.dispose mark (.task (.item i (.flip f))) = ⟨w, [], []⟩ ∨
      ∃ l, w.outputs[i]?.bind (·.loop) = some l ∧
        w.dispose mark (.task (.item i (.flip f))) =
          ⟨w.setOutput i (·.mapLoop fun _ => (l.flip f).1),
            ((l.flip f).2.2.map fun c => Chore.forward c.time).toList, []⟩ := by
  rw [dispose]
  cases hl : w.outputs[i]?.bind (·.loop) with
  | none => exact .inl ⟨rfl, rfl⟩
  | some l => exact .inr ⟨l, rfl, rfl⟩

end Wall

namespace Traffic

/-- A new wall, and threads with nothing to do. -/
def create (outputs : List Output) (policy : Policy) (threads : Nat) : Traffic where
  wall := .create outputs policy
  threads := .replicate threads []

/-- The loop of a tile gets to its readings on a thread of its own. -/
def loopThread (tile : Nat) : List Chore := [.task (.poll tile)]

/-- The operation that a chore performs, what it changes at the controller first, and the call with
    which it goes to the outputs then. -/
def commit? (s : Traffic) : Chore → Option (Op × Wall × Fanout)
  | .task (.perform op) => (s.wall.commit? op).map (op, ·)
  | _ => none

/-- The call that a chore takes to its next output, with its number and the tile that it comes
    to. -/
def visit? (s : Traffic) : Chore → Option (Nat × Walk × Tile)
  | .walk k => do
    let v ← s.walks[k]?
    let t ← s.wall.tiles[v.next]?
    some (k, v, t)
  | _ => none

/-- Whether a call comes to its next output ahead of an earlier one that tells the loop there
    something else. -/
def overtakes (s : Traffic) (number : Nat) (v : Walk) : Bool :=
  (s.walks.take number).any fun u => decide (u.next ≤ v.next) && u.call.contradicts v.call

/-- Thread `j` changes the controller, and takes a new call to the outputs before anything else. -/
def commit (s : Traffic) (j : Nat) (op : Op) (rest : List Chore) (w : Wall) (call : Fanout) :
    Traffic where
  wall := w
  threads := s.threads.set j (.walk s.walks.length :: .task (.report op .ok) :: rest)
  walks := s.walks ++ [{ author := j, call }]

/-- A call comes to its next output. -/
def visit (s : Traffic) (number : Nat) (v : Walk) (t : Tile) : Traffic where
  wall := s.wall.setOutput v.next v.call.apply
  threads := s.threads ++ if v.call.starts t.output then [loopThread v.next] else []
  walks := s.walks.set number
    { v with next := v.next + 1, early := v.early || s.overtakes number v }

/-- Thread `j` does a chore in one go. -/
def dispose (s : Traffic) (j mark : Nat) (x : Chore) (rest : List Chore) : Traffic :=
  let o := s.wall.dispose mark x
  { s with
    wall := o.wall
    threads := s.threads.set j (o.chores ++ rest) ++ o.late.map loopThread }

/-- Thread `j` does the first thing that it has left to do. -/
def turn (s : Traffic) (j mark : Nat) : Traffic :=
  match s.threads[j]? with
  | some (x :: rest) =>
    match s.commit? x, s.visit? x with
    | some (op, w, call), _ => s.commit j op rest w call
    | none, some (k, v, t) => s.visit k v t
    | none, none => s.dispose j mark x rest
  | _ => s

/-- What happens next: a thread that has nothing left to do begins an operation, or a thread takes a
    turn. -/
inductive Move where
  | begin (thread : Nat) (op : Op)
  | turn (thread mark : Nat)

/-- Makes a move. -/
def move (s : Traffic) : Move → Traffic
  | .begin j op =>
    match s.threads[j]? with
    | some [] => { s with threads := s.threads.set j [.task (.perform op)] }
    | _ => s
  | .turn j mark => s.turn j mark

/-- Makes some moves. -/
def moves (s : Traffic) (ms : List Move) : Traffic := ms.foldl move s

/-- Whether somebody has ever listened for vsync. -/
def listened (s : Traffic) : Bool := s.walks.any (·.call == .register .vsync)

end Traffic

end VideoWall
