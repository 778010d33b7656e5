import VideoWall.Wall.Basic

/-! The single steps of an operation.

    An operation changes the wall and leaves tasks behind: notices to deliver, jobs to hand to
    workers, readings to handle. Tasks are done one at a time, and what a task leaves behind is done
    before whatever else is left. So a script that a notice sets off runs to its end, with all that
    its own operations cause, before the next notice is delivered.

    Loops work on their own. A loop that is started gets to its readings only when the operation has
    come to its end. So does a loop whose reading arrives while notices are delivered, if it is
    about to make a call: it has to wait for its turn to deliver. -/

namespace VideoWall

/-- Something left to do. -/
inductive Task where
  | perform (op : Op)
  | report (op : Op) (reply : Reply)
  | deliver (delivery : Delivery)
  | leave
  | endFrame
  | dispatch (tile : Nat) (job : Job)
  | work (tile : Nat)
  | finish (tile : Nat) (upload : Bool) (submission : Submission)
  | await (tile : Nat)
  | group (mark : Nat)
  | arrive (tile : Nat) (reading : Vblank.Reading)
  | poll (tile : Nat)
  | item (tile : Nat) (item : Vblank.Item)
  | arm (tile : Nat)

/-- What holds of every item of a tile, of its next vblank request and of its next reading holds of
    all tasks of an iteration. -/
theorem Task.forall_iteration {P : Task → Prop} {i : Nat} (item : ∀ x, P (.item i x))
    (arm : P (.arm i)) (poll : P (.poll i)) (xs : List Vblank.Item) :
    ∀ t ∈ xs.map (.item i) ++ [.arm i, .poll i], P t := by
  intro t ht
  simp only [List.mem_append, List.mem_map, List.mem_cons, List.not_mem_nil, or_false] at ht
  rcases ht with ⟨x, -, rfl⟩ | rfl | rfl
  · exact item x
  · exact arm
  · exact poll

/-- What a step does: the wall after it, what could be seen, what was logged, what is left to do
    because of it, and the tiles whose loops get their turn when the operation ends. -/
structure Effect where
  wall : Wall
  events : List Event := []
  log : List Log.Line := []
  tasks : List Task := []
  late : List Nat := []
  reply : Reply := .ok

/-- The controller with a listener for one kind of notice. -/
def Controller.listen (c : Controller) (channel : Channel) (listener : Nat)
    (display : DisplayId) : Controller :=
  match channel with
  | .vsync => c.listenVsync listener display
  | .refresh => c.listenRefresh listener display
  | .hotplug => c.listenHotplug listener display

namespace Wall

/-- A call on the controller, as long as there is one: it decides at once, and then delivers. -/
def enter (w : Wall) (decide : Controller → Controller × List Delivery) : Effect :=
  match w.controller with
  | none => { wall := w }
  | some c =>
    let (c, deliveries) := decide c
    { wall := { w with controller := some c, delivering := w.delivering + 1 }
      tasks := deliveries.map .deliver ++ [.leave] }

/-- Without a controller nothing happens. Otherwise its notices are left to be delivered, and then
    the call ends. -/
theorem enter_cases (w : Wall) (decide : Controller → Controller × List Delivery) :
    w.controller = none ∧ w.enter decide = { wall := w } ∨
      ∃ c, w.controller = some c ∧ w.enter decide =
        { wall := { w with controller := some (decide c).1, delivering := w.delivering + 1 }
          tasks := (decide c).2.map .deliver ++ [.leave] } := by
  rw [enter]
  cases hc : w.controller with
  | none => exact .inl ⟨rfl, rfl⟩
  | some c => exact .inr ⟨c, rfl, rfl⟩

/-- A call through a listener that the controller has registered with an output. -/
def through (w : Wall) (registered : Bool)
    (decide : Controller → Controller × List Delivery) : Effect :=
  if registered then w.enter decide else { wall := w }

/-- The call comes through, or nothing happens. -/
theorem through_cases (w : Wall) (registered : Bool)
    (decide : Controller → Controller × List Delivery) :
    registered = true ∧ w.through registered decide = w.enter decide ∨
      registered = false ∧ w.through registered decide = { wall := w } := by
  cases registered with
  | true => exact .inl ⟨rfl, rfl⟩
  | false => exact .inr ⟨rfl, rfl⟩

/-- A call by the holder of the controller; afterwards there is none to call. -/
def asHolder (w : Wall) (f : Controller → Effect) : Effect :=
  match w.held, w.controller with
  | true, some c => f c
  | _, _ => { wall := w, reply := .dropped }

/-- What comes of a call by the holder: there is a controller to hold and it takes the call, or
    nothing happens. -/
theorem asHolder_cases (w : Wall) (f : Controller → Effect) :
    (∃ c, w.held = true ∧ w.controller = some c ∧ w.asHolder f = f c) ∨
      (w.held = false ∨ w.controller = none) ∧
        w.asHolder f = { wall := w, reply := .dropped } := by
  rw [asHolder]
  split
  · next c hh hc => exact .inl ⟨c, hh, hc, rfl⟩
  · next hnot =>
    refine .inr ⟨?_, rfl⟩
    cases hh : w.held with
    | false => exact .inl rfl
    | true => exact .inr (Option.eq_none_iff_forall_ne_some.2 fun c hc => hnot c hh hc)

/-- Every output switches to the configuration, and the mode is that of all outputs, connected or
    not. -/
def setActiveConfig (w : Wall) (c : Controller) (config : Nat) : Effect :=
  let w' := w.setOutputs (·.setActiveConfig config)
  let mode := CompositeMode.ofOutputs (w'.outputs.map (·.mode config))
  { wall := { w' with controller := some { c with activeConfig := config, mode } }
    events := w.callAll (.setActiveConfig config) }

/-- The tiles whose loops a power mode starts. -/
def starting (w : Wall) (mode : PowerMode) : List Nat :=
  w.tiles.zipIdx.filterMap fun (t, i) =>
    match t.output.loop with
    | some l => if mode.isOn && !l.running then some i else none
    | none => none

/-- The loops that a power mode starts get to their readings when the operation ends. -/
def setPowerMode (w : Wall) (c : Controller) (mode : PowerMode) : Effect :=
  { wall := { w.setOutputs (·.setPowerMode mode) with controller := some { c with power := mode } }
    events := w.callAll (.setPowerMode mode)
    late := w.starting mode }

/-- Asking for the vsync state that already holds does not reach the outputs. -/
def control (w : Wall) (c : Controller) (enabled : Bool) : Effect :=
  if c.vsyncEnabled = enabled then { wall := w } else
    { wall := { w.setOutputs (·.control enabled) with controller := some (c.control enabled) }
      events := w.callAll (.control enabled) }

/-- The host's listener takes the place of the one before it, and every output gets a listener of
    the controller's own. -/
def listen (w : Wall) (c : Controller) (channel : Channel) (display : DisplayId)
    (listener : Listener) : Effect :=
  let controller := some (c.listen channel w.listeners.length display)
  { wall := { (w.setOutputs (·.register channel)).addListener listener with controller }
    events := w.tiles.mapIdx fun i t => .call i (.register channel ⟨t.output.pipe⟩) }

/-- The order in which jobs are handed out, handled and waited for. -/
def schedule (p : Pipeline) (jobs : List (Nat × Job)) : List Task :=
  match p with
  | .sequential => jobs.flatMap fun (i, job) => [.dispatch i job, .work i, .await i]
  | .barrier =>
    jobs.map (fun (i, job) => .dispatch i job) ++ jobs.map (fun (i, _) => .work i) ++
      jobs.map fun (i, _) => .await i

/-- Presents a frame, if the wall is fully powered. Under the barrier pipeline the events of the
    frame, which come after the first `mark` ones, are grouped by output. -/
def present (w : Wall) (c : Controller) (layers : List Layer) (upload : Bool) (mark : Nat) :
    Effect :=
  if c.power.isOn then
    let w := w.reconcile c
    { wall := { w with presenting := w.presenting + 1 }
      tasks := schedule w.policy.pipeline (w.jobs layers upload) ++
        (match w.policy.pipeline with
          | .sequential => []
          | .barrier => [.group mark]) ++ [.endFrame]
      reply := .presented }
  else { wall := w, reply := .presented }

/-- Begins an operation; `mark` is the number of events so far. -/
def begin (w : Wall) (mark : Nat) : Op → Effect
  | .setActiveConfig config => w.asHolder fun c => w.setActiveConfig c config
  | .setPowerMode mode => w.asHolder fun c => w.setPowerMode c mode
  | .control enabled => w.asHolder fun c => w.control c enabled
  | .vsyncUpdate time => w.asHolder fun _ => w.enter (·.vblank time)
  | .hotplugUpdate connected => w.asHolder fun _ => w.enter (·.hotplug w.connectedCount connected)
  | .refreshUpdate => w.asHolder fun _ => w.enter fun c => (c, c.refresh)
  | .listen channel display tag script limit =>
    w.asHolder fun c => w.listen c channel display { tag, script, left := limit }
  | .present layers upload => w.asHolder fun c => w.present c layers upload mark
  | .ask question => w.asHolder fun c => { wall := w, reply := w.answer c question }
  | .vblank i time force =>
    w.through (w.outputs[i]?.any fun o => o.onVsync.isSome && (o.forwarding || force))
      (·.vblank time)
  | .plug i connected =>
    let w := w.setOutput i fun o => { o with connected }
    w.through (w.outputs[i]?.any (·.onHotplug.isSome)) (·.hotplug w.connectedCount connected)
  | .requestRefresh i =>
    w.through (w.outputs[i]?.any (·.onRefresh.isSome)) fun c => (c, c.refresh)
  | .change i change onPresent =>
    let w := w.setOutput i (·.change change)
    match onPresent with
    | none => { wall := w }
    | some script => { wall := w.setTile i fun t => { t with onPresent := script } }
  | .feed i readings => { wall := w, tasks := readings.map (.arrive i) }
  | .drop => { wall := w.drop }

/-- Tells a listener something; its script runs unless it is used up. -/
def deliver (w : Wall) (d : Delivery) : Effect :=
  match w.listeners[d.listener]? with
  | none => { wall := w }
  | some l =>
    let events := [Event.told d.listener l.tag d.display d.notice]
    match l.left with
    | 0 => { wall := w, events }
    | left + 1 =>
      { wall := { w with listeners := w.listeners.set d.listener { l with left } }
        events
        tasks := l.script.map .perform }

/-- Nobody is told, or a listener is told that may not act any more, or its script runs. -/
theorem deliver_cases (w : Wall) (d : Delivery) :
    w.deliver d = { wall := w } ∧ w.listeners[d.listener]? = none ∨
    ∃ l, w.listeners[d.listener]? = some l ∧
      (l.left = 0 ∧
        w.deliver d = { wall := w, events := [.told d.listener l.tag d.display d.notice] } ∨
      ∃ left, l.left = left + 1 ∧
        w.deliver d =
          { wall := { w with listeners := w.listeners.set d.listener { l with left } }
            events := [.told d.listener l.tag d.display d.notice]
            tasks := l.script.map .perform }) := by
  rw [deliver]
  cases hl : w.listeners[d.listener]? with
  | none => exact .inl ⟨rfl, rfl⟩
  | some l =>
    refine .inr ⟨l, rfl, ?_⟩
    dsimp only
    cases hleft : l.left with
    | zero => exact .inl ⟨rfl, rfl⟩
    | succ left => exact .inr ⟨left, rfl, rfl⟩

/-- Hands a job to the worker of a tile; a worker that is gone takes none. -/
def dispatch (w : Wall) (i : Nat) (job : Job) : Effect :=
  let refusal : Exited := ⟨⟨i⟩⟩
  match w.tiles[i]?.bind (·.worker) with
  | none =>
    { wall := w
      log := [⟨.error, "tile dispatch failed",
        [("output_id", .text refusal.id.describe), ("err", .text refusal.message)]⟩] }
  | some worker =>
    match worker.present job with
    | .ok worker => { wall := w.setTile i fun t => { t with worker := some worker } }
    | .error _ => { wall := w }

/-- Nobody takes the job, which at most is logged, or it waits behind the worker's other jobs. -/
theorem dispatch_cases (w : Wall) (i : Nat) (job : Job) :
    (∃ log, w.dispatch i job = { wall := w, log } ∧
      ∀ k, w.tiles[i]?.bind (·.worker) = some k → k.exited = true) ∨
    ∃ k, w.tiles[i]?.bind (·.worker) = some k ∧ k.exited = false ∧
      w.dispatch i job =
        { wall := w.setTile i fun t =>
            { t with worker := some { k with queue := k.queue ++ [job] } } } := by
  rw [dispatch]
  cases hk : w.tiles[i]?.bind (·.worker) with
  | none => exact .inl ⟨_, rfl, nofun⟩
  | some k =>
    dsimp only
    rw [Worker.present]
    by_cases hx : k.exited = true
    · rw [if_pos hx]
      refine .inl ⟨[], rfl, ?_⟩
      rintro _ ⟨⟩
      exact hx
    · rw [if_neg hx]
      exact .inr ⟨k, rfl, Bool.eq_false_iff.2 hx, rfl⟩

/-- Has a worker compose its next job. While the output shows the frame, the tile's script runs,
    once. -/
def work (w : Wall) (i : Nat) : Effect :=
  match w.tiles[i]? with
  | none => { wall := w }
  | some t =>
    match t.worker.bind Worker.take? with
    | none => { wall := w }
    | some (job, worker) =>
      let (worker, output, submission) := worker.compose t.output job
      let call := submission.call? worker.retained job.upload
      let (script, log) := match submission with
        | .shown _ => (t.onPresent, [])
        | .refused cause => ([], [cause.line worker.id])
        | .blank => ([], [])
      let onPresent := match submission with
        | .shown _ => []
        | _ => t.onPresent
      { wall := w.setTile i fun _ => { output, worker := some worker, onPresent }
        events := (call.map (Event.call i)).toList
        log
        tasks := script.map .perform ++ [.finish i job.upload submission] }

/-- The job that the worker of a tile would handle next. -/
def nextJob? (w : Wall) (i : Nat) : Option Job :=
  ((w.tiles[i]?.bind (·.worker)).bind Worker.take?).map Prod.fst

/-- A worker composes its next job, or there is none. If the output shows the frame, the tile's
    script is left to run, and the tile is without one. -/
theorem work_cases (w : Wall) (i : Nat) :
    w.work i = { wall := w } ∧ w.nextJob? i = none ∨
    ∃ t k job k', w.tiles[i]? = some t ∧ t.worker = some k ∧ k.take? = some (job, k') ∧
      ∃ script onPresent log,
        w.work i =
          { wall := w.setTile i fun _ =>
              ⟨(k'.compose t.output job).2.1, some (k'.compose t.output job).1, onPresent⟩
            events := (((k'.compose t.output job).2.2.call? (k'.compose t.output job).1.retained
              job.upload).map (Event.call i)).toList
            log
            tasks := script.map .perform ++
              [.finish i job.upload (k'.compose t.output job).2.2] } ∧
        (script = [] ∧ onPresent = t.onPresent ∨ script = t.onPresent ∧ onPresent = []) := by
  rw [work, nextJob?]
  cases ht : w.tiles[i]? with
  | none => exact .inl ⟨rfl, rfl⟩
  | some t =>
    cases hk : t.worker with
    | none =>
      dsimp only
      rw [Option.bind_some, hk]
      exact .inl ⟨rfl, rfl⟩
    | some k =>
      cases htake : k.take? with
      | none =>
        dsimp only
        rw [Option.bind_some, hk, Option.bind_some, htake]
        exact .inl ⟨rfl, rfl⟩
      | some taken =>
        obtain ⟨job, k'⟩ := taken
        refine .inr ⟨t, k, job, k', rfl, hk, htake, ?_⟩
        dsimp only
        rw [hk, Option.bind_some, htake]
        dsimp only
        rcases k'.compose t.output job with ⟨k₁, o, submission⟩
        cases submission with
        | blank => exact ⟨[], t.onPresent, [], rfl, .inl ⟨rfl, rfl⟩⟩
        | refused cause => exact ⟨[], t.onPresent, _, rfl, .inl ⟨rfl, rfl⟩⟩
        | shown fence => exact ⟨t.onPresent, [], [], rfl, .inr ⟨rfl, rfl⟩⟩

/-- Ends a job, and counts its uploads. -/
def finish (w : Wall) (i : Nat) (upload : Bool) (submission : Submission) : Effect :=
  let w := { w with uploads := w.uploads + submission.uploads upload }
  { wall := w.setTile i (·.finish submission) }

/-- A reading arrives at a tile's loop, which gets to it at once unless a call has to wait. -/
def arrive (w : Wall) (i : Nat) (r : Vblank.Reading) : Effect :=
  let w := w.setOutput i (·.mapLoop (·.enqueue r))
  if w.delivering != 0 && (w.outputs[i]?.bind (·.loop)).any (·.isCalling) then
    { wall := w, late := [i] }
  else { wall := w, tasks := [.poll i] }

/-- The reading waits on the device, and the loop gets its turn, now or when the operation ends. -/
theorem arrive_cases (w : Wall) (i : Nat) (r : Vblank.Reading) :
    w.arrive i r = { wall := w.setOutput i (·.mapLoop (·.enqueue r)), late := [i] } ∧
        w.delivering ≠ 0 ∨
      w.arrive i r = { wall := w.setOutput i (·.mapLoop (·.enqueue r)), tasks := [.poll i] } := by
  rw [arrive]
  split
  · next h => exact .inl ⟨rfl, bne_iff_ne.1 (Bool.and_eq_true_iff.1 h).1⟩
  · exact .inr rfl

/-- The next reading of a tile's loop: its items, the next vblank request, and then the reading
    after it. -/
def poll (w : Wall) (i : Nat) : Effect :=
  match (w.outputs[i]?.bind (·.loop)).bind Vblank.Loop.take? with
  | none => { wall := w }
  | some (r, l) =>
    { wall := w.setOutput i (·.mapLoop fun _ => l)
      tasks := r.items.map (.item i) ++ [.arm i, .poll i] }

/-- Nothing to read, or one reading is taken off the device and an iteration of the loop is left. -/
theorem poll_cases (w : Wall) (i : Nat) :
    w.poll i = { wall := w } ∧ (w.outputs[i]?.bind (·.loop)).bind Vblank.Loop.take? = none ∨
      ∃ l r m, w.outputs[i]?.bind (·.loop) = some l ∧ l.take? = some (r, m) ∧
        w.poll i =
          { wall := w.setOutput i (·.mapLoop fun _ => m)
            tasks := r.items.map (.item i) ++ [.arm i, .poll i] } := by
  rw [poll]
  cases hl : w.outputs[i]?.bind (·.loop) with
  | none => exact .inl ⟨rfl, rfl⟩
  | some l =>
    rw [Option.bind_some]
    cases htake : l.take? with
    | none => exact .inl ⟨rfl, rfl⟩
    | some taken => exact .inr ⟨l, taken.1, taken.2, rfl, htake, rfl⟩

/-- Handles one item of a reading; a forwarded flip is a vblank of the output. -/
def item (w : Wall) (i : Nat) (x : Vblank.Item) : Effect :=
  match w.outputs[i]?.bind (·.loop) with
  | none => { wall := w }
  | some l =>
    match x with
    | .remark r => { wall := w, log := [r.line l.pipe] }
    | .flip f =>
      let (l', rs, call) := l.flip f
      let w := w.setOutput i (·.mapLoop fun _ => l')
      let log := rs.map (·.line l.pipe)
      match call with
      | none => { wall := w, log }
      | some call => { w.enter (·.vblank call.time) with log }

/-- Without a loop nothing happens, and a remark is only logged. A flip is noted by its loop, and a
    flip that is forwarded is a vblank. -/
theorem item_cases (w : Wall) (i : Nat) (x : Vblank.Item) :
    (∃ log, w.item i x = { wall := w, log } ∧
      (w.outputs[i]?.bind (·.loop) = none ∨ x.isFlip = false)) ∨
    ∃ l f log, w.outputs[i]?.bind (·.loop) = some l ∧ x = .flip f ∧
      ((l.flip f).2.2 = none ∧
        w.item i x = { wall := w.setOutput i (·.mapLoop fun _ => (l.flip f).1), log } ∨
      ∃ call, (l.flip f).2.2 = some call ∧
        w.item i x =
          { (w.setOutput i (·.mapLoop fun _ => (l.flip f).1)).enter (·.vblank call.time)
            with log }) := by
  rw [item]
  cases hl : w.outputs[i]?.bind (·.loop) with
  | none => exact .inl ⟨[], rfl, .inl rfl⟩
  | some l =>
    cases x with
    | remark r => exact .inl ⟨_, rfl, .inr rfl⟩
    | flip f =>
      refine .inr ⟨l, f, (l.flip f).2.1.map (·.line l.pipe), rfl, rfl, ?_⟩
      dsimp only
      cases hcall : (l.flip f).2.2 with
      | none => exact .inl ⟨rfl, rfl⟩
      | some call => exact .inr ⟨call, rfl, rfl⟩

/-- Has a tile's loop ask for the next vblank. -/
def arm (w : Wall) (i : Nat) : Effect :=
  match w.outputs[i]?.bind (·.loop) with
  | none => { wall := w }
  | some l =>
    { wall := w.setOutput i (·.mapLoop fun _ => l.arm.1), log := l.arm.2.map (·.line l.pipe) }

/-- A loop, if there is one, asks its device for the next vblank. -/
theorem arm_cases (w : Wall) (i : Nat) :
    w.arm i = { wall := w } ∧ w.outputs[i]?.bind (·.loop) = none ∨
      ∃ l, w.outputs[i]?.bind (·.loop) = some l ∧
        w.arm i =
          { wall := w.setOutput i (·.mapLoop fun _ => l.arm.1)
            log := l.arm.2.map (·.line l.pipe) } := by
  rw [arm]
  cases hl : w.outputs[i]?.bind (·.loop) with
  | none => exact .inl ⟨rfl, rfl⟩
  | some l => exact .inr ⟨l, rfl, rfl⟩

/-- Does one task; `mark` is the number of events so far. -/
def exec (w : Wall) (mark : Nat) : Task → Effect
  | .perform op =>
    let e := w.begin mark op
    { e with tasks := e.tasks ++ [.report op e.reply] }
  | .report op reply => { wall := w, events := [.performed op reply] }
  | .deliver d => w.deliver d
  | .leave => { wall := { w with delivering := w.delivering - 1 }.settle }
  | .endFrame => { wall := { w with presenting := w.presenting - 1 }.settle }
  | .dispatch i job => w.dispatch i job
  | .work i => w.work i
  | .finish i upload submission => w.finish i upload submission
  | .await i => { wall := w.setTile i fun t => { t with worker := t.worker.map Worker.wait } }
  | .group _ => { wall := w }
  | .arrive i r => w.arrive i r
  | .poll i => w.poll i
  | .item i x => w.item i x
  | .arm i => w.arm i

end Wall

end VideoWall
