import VideoWall.Wall.Task

/-! Running an operation to its end. -/

namespace VideoWall

/-- A wall in the middle of an operation: what is left to do, first things first, the tiles whose
    loops get their turn after that, and what could be seen and was logged so far. -/
structure Run where
  wall : Wall
  tasks : List Task := []
  late : List Nat := []
  events : List Event := []
  log : List Log.Line := []

/-- How an operation went. -/
structure Report where
  reply : Reply
  events : List Event
  log : List Log.Line

/-! ### The cost of an operation

    Scripts run a bounded number of times, so the number of steps that an operation takes is bounded
    by what it holds and by what the listeners, scripts and readings of the wall still hold. -/

/-- Steps for several things, one after another. -/
def sumSteps (steps : List Nat) : Nat := steps.foldr (· + ·) 0

/-- Steps for one reading of a loop, once it is there. -/
def Vblank.Reading.cost (r : Vblank.Reading) : Nat := 3 * r.items.length + 2

mutual

/-- Steps for one operation on a wall of `n` tiles, without what the wall already holds. -/
def Op.cost (n : Nat) : Op → Nat
  | .listen _ _ _ script limit => 4 * n + 8 + limit * Op.costs n script
  | .change _ _ onPresent => 4 * n + 8 + Op.costsOf n onPresent
  | .feed _ readings => 4 * n + 8 + sumSteps (readings.map fun r => r.cost + 3)
  | _ => 4 * n + 8

/-- Steps for a script. -/
def Op.costs (n : Nat) : List Op → Nat
  | [] => 0
  | op :: rest => Op.cost n op + Op.costs n rest

/-- Steps for a script that may be missing. -/
def Op.costsOf (n : Nat) : Option (List Op) → Nat
  | none => 0
  | some script => Op.costs n script

end

/-- Steps that a listener still holds. -/
def Listener.cost (n : Nat) (l : Listener) : Nat := l.left * Op.costs n l.script

/-- Steps that a tile still holds: its script and the readings of its loop. -/
def Tile.cost (n : Nat) (t : Tile) : Nat :=
  Op.costs n t.onPresent +
    match t.output.loop with
    | none => 0
    | some l => sumSteps (l.device.queued.map (·.cost))

/-- Steps that a wall still holds. -/
def Wall.cost (w : Wall) : Nat :=
  sumSteps (w.listeners.map (·.cost w.tiles.length)) +
    sumSteps (w.tiles.map (·.cost w.tiles.length))

/-! ### Steps -/

namespace Run

/-- Whether nothing is left to do. -/
def isAtRest (r : Run) : Bool := r.tasks.isEmpty && r.late.isEmpty

/-- Does the first task; when there is none left, the loops get their turn. -/
def next (r : Run) : Run :=
  match r.tasks with
  | [] => { r with tasks := r.late.map .poll, late := [] }
  | .group mark :: rest =>
    { r with tasks := rest, events := r.events.take mark ++ Event.grouped (r.events.drop mark) }
  | t :: rest =>
    let e := r.wall.exec r.events.length t
    { wall := e.wall
      tasks := e.tasks ++ rest
      late := r.late ++ e.late
      events := r.events ++ e.events
      log := r.log ++ e.log }

/-- Takes steps until nothing is left to do, at most `fuel` of them. -/
def steps : Nat → Run → Run
  | 0, r => r
  | fuel + 1, r => if r.isAtRest then r else steps fuel r.next

end Run

/-- The run of an operation, with all that it causes: it takes as many steps as the operation and
    the wall can cost. -/
def Wall.runOf (w : Wall) (op : Op) : Run :=
  let e := w.begin 0 op
  Run.steps (op.cost w.tiles.length + w.cost) ⟨e.wall, e.tasks, e.late, e.events, e.log⟩

/-- Performs an operation. -/
def Wall.perform (w : Wall) (op : Op) : Wall × Report :=
  let r := w.runOf op
  (r.wall, ⟨(w.begin 0 op).reply, r.events, Log.Line.alerts r.log⟩)

end VideoWall
