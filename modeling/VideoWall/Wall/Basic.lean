import VideoWall.Wall.Op

/-! A wall: outputs side by side, the workers that present to them, and the controller in front.

    A listener stays known by its number for good, so a notice that is already on its way reaches
    the listener it was meant for even when another one has taken its place. The controller lives as
    long as it is held or a call on it is in progress; when it goes, all workers retire. -/

namespace VideoWall

/-- A listener of the host: its script runs on the next `left` notices. -/
structure Listener where
  tag : String
  script : List Op
  left : Nat

/-- An output, its worker while it has one, and what it does while showing the next frame. -/
structure Tile where
  output : Output
  worker : Option Worker := none
  onPresent : List Op := []

/-- A wall. `held` says whether the host still holds the controller; `delivering` and `presenting`
    count the calls on it that are in progress, those that deliver notices and those that
    present. -/
structure Wall where
  policy : Policy
  tiles : List Tile
  controller : Option Controller
  held : Bool := true
  delivering : Nat := 0
  presenting : Nat := 0
  listeners : List Listener := []
  uploads : Nat := 0

/-- What a wall does that can be seen: calls to outputs, notices to the listeners with the given
    number and tag, and the operations that scripts perform. -/
inductive Event where
  | call (output : Nat) (call : OutputCall)
  | told (listener : Nat) (tag : String) (display : DisplayId) (notice : Notice)
  | performed (op : Op) (reply : Reply)

/-- The output that an event is a call to. -/
def Event.output? : Event → Option Nat
  | .call i _ => some i
  | _ => none

/-- Events by output, those without one first; otherwise they keep their order. -/
def Event.grouped (es : List Event) : List Event :=
  es.mergeSort fun a b =>
    match a.output?, b.output? with
    | none, _ => true
    | some _, none => false
    | some i, some j => decide (i ≤ j)

namespace Tile

/-- Ends the tile's worker, which lets go of its fence. -/
def retire (t : Tile) : Tile :=
  match t.worker with
  | none => t
  | some w => { t with worker := none, output := (w.retire t.output).2 }

/-- Gives a connected output a worker, unless it has one, and takes it from a disconnected output.
    A worker that does not start, so that the tile goes without one until the next frame, is not
    modelled. -/
def reconcile (t : Tile) (index : Nat) : Tile :=
  if t.output.connected then { t with worker := some (t.worker.getD { id := ⟨index⟩ }) }
  else t.retire

/-- Ends a job; the fence of a frame whose worker is gone is let go at once. -/
def finish (t : Tile) (s : Submission) : Tile :=
  match t.worker, s with
  | some w, s =>
    let r := w.settle t.output s
    { t with worker := some r.1, output := r.2 }
  | none, .shown fence => { t with output := t.output.release fence }
  | none, _ => t

end Tile

namespace Wall

/-- A wall over some outputs, with a controller at configuration 0. -/
def create (outputs : List Output) (policy : Policy) : Wall where
  policy
  tiles := outputs.map ({ output := · })
  controller := some <| .create (.ofOutputs (outputs.map (·.mode 0)))
    (outputs.countP (·.connected))

/-- The outputs from left to right. -/
def outputs (w : Wall) : List Output := w.tiles.map (·.output)

/-- Changes one tile, if it is there. -/
def setTile (w : Wall) (i : Nat) (f : Tile → Tile) : Wall := { w with tiles := w.tiles.modify i f }

/-- Changes one output, if it is there. -/
def setOutput (w : Wall) (i : Nat) (f : Output → Output) : Wall :=
  w.setTile i fun t => { t with output := f t.output }

/-- Changes every output alike. -/
def setOutputs (w : Wall) (f : Output → Output) : Wall :=
  { w with tiles := w.tiles.map fun t => { t with output := f t.output } }

/-- Calls every output alike. -/
def callAll (w : Wall) (c : OutputCall) : List Event :=
  (List.range w.tiles.length).map fun i => .call i c

/-- How many outputs are connected. -/
def connectedCount (w : Wall) : Nat := w.outputs.countP (·.connected)

/-- Whether some output is connected, whatever the host was told. -/
def isConnected (w : Wall) : Bool := w.outputs.any (·.connected)

/-- How many tiles have a worker. -/
def workerCount (w : Wall) : Nat := w.tiles.countP (·.worker.isSome)

/-- Fences of each output that somebody still holds. -/
def liveFences (w : Wall) : List Nat := w.outputs.map (·.live.length)

/-- The loops of the outputs that own one. -/
def loops (w : Wall) : List (Vblank.Loop Unit) := w.outputs.filterMap (·.loop)

/-- The end of the controller: every worker retires. -/
def dissolve (w : Wall) : Wall :=
  { w with controller := none, tiles := w.tiles.map Tile.retire }

/-- Lets the controller go unless somebody still needs it. -/
def settle (w : Wall) : Wall :=
  if w.held || w.delivering != 0 || w.presenting != 0 then w else w.dissolve

/-- Gives the controller up. -/
def drop (w : Wall) : Wall := { w with held := false }.settle

/-- Adds a listener, under the next number. -/
def addListener (w : Wall) (l : Listener) : Wall := { w with listeners := w.listeners ++ [l] }

/-! ### Questions -/

def describe (w : Wall) (c : Controller) : String :=
  s!"MosaicController \x7b outputs: {w.tiles.length}, config: {w.policy.describe}, " ++
  s!"mode: {c.mode.describe}, power_mode: {c.power.describe}, workers: {w.workerCount}, .. \x7d"

/-- Pipe and plane formats of a wall are those of its first output. -/
def answer (w : Wall) (c : Controller) : Question → Reply
  | .report _ a => .report (c.mode.report a)
  | .name buffer => let (n, b) := Controller.copyName buffer; .name n b
  | .configs buffer => let (n, b) := Controller.copyConfigs buffer; .configs n b
  | .planeFormat f => .planeFormat (w.outputs.head?.any (·.formats.contains f))
  | .overview => .overview
    { width := c.mode.width
      height := c.mode.height
      preferred := c.mode.preferred
      pipe := w.outputs.head?.map (·.pipe)
      policy := w.policy }
  | .cycle => .cycle c.cycle
  | .describe => .text (w.describe c)

/-! ### Frames -/

/-- Matches the workers with the connected outputs if a hotplug has come in, and prefers the fastest
    of these outputs if one of them refreshes at all. -/
def reconcile (w : Wall) (c : Controller) : Wall :=
  if c.stale then
    let refreshes := w.tiles.zipIdx.filterMap fun (t, i) =>
      if t.output.connected then some (i, t.output.reportOrZero c.activeConfig .refreshRate)
      else none
    let preferred := (preferredOutput refreshes).getD c.mode.preferred
    { w with
      tiles := w.tiles.mapIdx fun i t => t.reconcile i
      controller := some { c with stale := false, mode := { c.mode with preferred } } }
  else w

/-- The positions of the tiles that have a worker, from left to right. -/
def staffed (w : Wall) : List (Nat × Footprint) :=
  w.tiles.zipIdx.filterMap fun (t, i) =>
    if t.worker.isSome then some (i, ⟨t.output.width, t.output.logicalIndex⟩) else none

/-- The jobs of a frame: the windows of all tiles with a worker are laid out together, and the
    policy says how many of them get the frame. -/
def jobs (w : Wall) (layers : List Layer) (upload : Bool) : List (Nat × Job) :=
  let staffed := w.staffed
  let windows := Window.layout (staffed.map (·.2))
  ((staffed.zip windows).take (w.policy.tilesPerFrame staffed.length)).map fun (t, window) =>
    (t.1, { window, layers, upload })

end Wall

end VideoWall
