import Mathlib.Data.List.Basic
import VideoWall.Proofs.Custody
import VideoWall.Proofs.Drain
import VideoWall.Proofs.Ordinary

/-! A wall but for what its outputs refuse.

    Whether an output shows a frame or refuses it makes a difference to the fences it hands out and
    to those that workers hold, and to the count of uploads. The outline of a wall leaves these out,
    with what is about to be refused; the outline of a run leaves out the log, too. As long as no
    output calls back while it shows a frame, the outline of what a step comes to depends on nothing
    but the outline of what it starts from: `Wall.outline_exec`, `Run.outline_next`. -/

namespace VideoWall

/-! ### Outlines -/

/-- An output without refusals and fences. -/
def Output.outline (o : Output) : Output := { o with failure := none, issued := 0, live := [] }

/-- A worker without the fence it holds. -/
def Worker.outline (k : Worker) : Worker := { k with fence := none }

def Tile.outline (t : Tile) : Tile :=
  { t with output := t.output.outline, worker := t.worker.map Worker.outline }

/-- An event without whether the output refused. -/
def Event.outline : Event → Event
  | .call i (.present layers upload _) => .call i (.present layers upload false)
  | e => e

/-- A task without what became of a job. -/
def Task.outline : Task → Task
  | .finish i upload _ => .finish i upload .blank
  | t => t

namespace Wall

def outline (w : Wall) : Wall := { w with tiles := w.tiles.map Tile.outline, uploads := 0 }

/-- No output calls back while it shows a frame. -/
def Uncalled (w : Wall) : Prop := ∀ t ∈ w.tiles, t.onPresent = []

instance (w : Wall) : Decidable w.Uncalled :=
  decidable_of_iff (w.tiles.all (·.onPresent.isEmpty)) (by simp [Uncalled])

end Wall

def Effect.outline (e : Effect) : Effect where
  wall := e.wall.outline
  events := e.events.map Event.outline
  tasks := e.tasks.map Task.outline
  late := e.late
  reply := e.reply

def Run.outline (r : Run) : Run where
  wall := r.wall.outline
  tasks := r.tasks.map Task.outline
  late := r.late
  events := r.events.map Event.outline

/-! ### Outputs and workers -/

namespace Output

@[simp] theorem outline_outline (o : Output) : o.outline.outline = o.outline := rfl

theorem outline_release (o : Output) (f : Option Fence) : (o.release f).outline = o.outline := by
  cases f <;> rfl

theorem outline_present (o : Output) : o.present.1.outline = o.outline := by
  rw [present]
  split
  · rfl
  · split <;> rfl

theorem outline_setActiveConfig (o : Output) (config : Nat) :
    (o.setActiveConfig config).outline = (o.outline.setActiveConfig config).outline := by
  by_cases h : config < o.configs.length <;> simp [setActiveConfig, outline, h]

theorem outline_register (o : Output) (channel : Channel) :
    (o.register channel).outline = (o.outline.register channel).outline := by
  cases channel <;> rfl

end Output

namespace Worker

@[simp] theorem outline_outline (k : Worker) : k.outline.outline = k.outline := rfl

/-- Whatever becomes of a job, its end raises the signal. -/
theorem outline_settle (k : Worker) (o : Output) (s : Submission) :
    (k.settle o s).1.outline = { k with signal := k.signal.raise }.outline ∧
      (k.settle o s).2.outline = o.outline := by
  cases s with
  | shown fence => exact ⟨rfl, o.outline_release k.fence⟩
  | _ => exact ⟨rfl, rfl⟩

theorem outline_compose (k : Worker) (o : Output) (job : Job) :
    (k.compose o job).2.1.outline = o.outline := by
  rcases k.compose_output o job with ho | ho
  · rw [ho]
  · rw [ho, o.outline_present]

/-- The call that a job makes, but for whether it is refused. -/
theorem outline_call? (k : Worker) (o : Output) (job : Job) (i : Nat) (layers : List TileLayer)
    (upload : Bool) :
    (((k.compose o job).2.2.call? layers upload).map (Event.call i)).toList.map Event.outline =
      if job.window.assign job.layers = [] then []
      else [.call i (.present layers upload false)] := by
  rw [compose]
  dsimp only
  split
  · next he => simp [List.isEmpty_iff.1 he, Submission.call?]
  · next hne =>
    rw [if_neg (mt List.isEmpty_iff.2 hne)]
    split <;> rfl

end Worker

/-! ### Tiles -/

namespace Tile

@[simp] theorem outline_outline (t : Tile) : t.outline.outline = t.outline := by
  cases h : t.worker <;> simp [outline, h]

theorem outline_retire (t : Tile) : t.retire.outline = t.outline.retire.outline := by
  rw [retire, retire]
  cases h : t.worker <;> simp [outline, h, Worker.retire, Output.outline_release]

theorem outline_reconcile (t : Tile) (i : Nat) :
    (t.reconcile i).outline = (t.outline.reconcile i).outline := by
  have hconnected : t.outline.output.connected = t.output.connected := rfl
  rw [reconcile, reconcile, hconnected]
  split
  · cases h : t.worker <;> simp [outline, h]
  · exact t.outline_retire

/-- Whatever becomes of a job, its end does the same to the outline. -/
theorem outline_finish (t : Tile) (s s' : Submission) :
    (t.finish s).outline = (t.outline.finish s').outline := by
  cases h : t.worker with
  | none => cases s <;> cases s' <;> simp [finish, h, outline, Output.outline_release]
  | some k =>
    have hk := k.outline_settle t.output s
    have hk' := k.outline.outline_settle t.output.outline s'
    simp only [finish, h, outline, Option.map_some, hk, hk']
    rfl

end Tile

/-! ### What can be read off an outline -/

namespace Wall

@[simp] theorem outline_outline (w : Wall) : w.outline.outline = w.outline := by
  simp [outline, Function.comp_def]

theorem getElem?_tiles_outline (w : Wall) (i : Nat) :
    w.outline.tiles[i]? = w.tiles[i]?.map Tile.outline := List.getElem?_map ..

theorem outputs_outline (w : Wall) : w.outline.outputs = w.outputs.map Output.outline := by
  simp [outline, outputs, Tile.outline, Function.comp_def]

theorem length_tiles_outline (w : Wall) : w.outline.tiles.length = w.tiles.length :=
  List.length_map ..

theorem callAll_outline (w : Wall) (call : OutputCall) :
    w.outline.callAll call = w.callAll call := by
  rw [callAll, callAll, length_tiles_outline]

theorem map_mode_outline (w : Wall) (config : Nat) :
    w.outline.outputs.map (·.mode config) = w.outputs.map (·.mode config) := by
  rw [outputs_outline, List.map_map]
  rfl

theorem connectedCount_outline (w : Wall) : w.outline.connectedCount = w.connectedCount := by
  rw [connectedCount, connectedCount, outputs_outline, List.countP_map]
  rfl

theorem any_output_outline (w : Wall) (i : Nat) {p : Output → Bool} (h : ∀ o, p o.outline = p o) :
    w.outline.outputs[i]?.any p = w.outputs[i]?.any p := by
  rw [outputs_outline, List.getElem?_map]
  cases w.outputs[i]? with
  | none => rfl
  | some o => exact h o

theorem loop_outline (w : Wall) (i : Nat) :
    w.outline.outputs[i]?.bind (·.loop) = w.outputs[i]?.bind (·.loop) := by
  rw [outputs_outline, List.getElem?_map]
  cases w.outputs[i]? <;> rfl

/-- What is collected from some tiles by what can be read off their outlines. -/
theorem filterMap_outline {α : Type} (w : Wall) {g : Tile × Nat → Option α}
    (h : ∀ t i, g (t.outline, i) = g (t, i)) :
    w.outline.tiles.zipIdx.filterMap g = w.tiles.zipIdx.filterMap g := by
  rw [outline, List.zipIdx_map, List.filterMap_map]
  exact List.filterMap_congr fun x _ => h x.1 x.2

theorem workerCount_outline (w : Wall) : w.outline.workerCount = w.workerCount := by
  simp [workerCount, outline, Tile.outline, List.countP_map, Function.comp_def]

theorem describe_outline (w : Wall) (c : Controller) : w.outline.describe c = w.describe c := by
  unfold describe
  rw [length_tiles_outline, workerCount_outline]
  rfl

theorem answer_outline (w : Wall) (c : Controller) (q : Question) :
    w.outline.answer c q = w.answer c q := by
  have hhead : w.outline.outputs.head? = w.outputs.head?.map Output.outline := by
    rw [outputs_outline, List.head?_map]
  cases q with
  | planeFormat format =>
    simp only [answer, hhead]
    cases w.outputs.head? <;> rfl
  | overview =>
    simp only [answer, hhead]
    cases w.outputs.head? <;> rfl
  | describe => exact congrArg Reply.text (w.describe_outline c)
  | _ => simp only [answer]

theorem staffed_outline (w : Wall) : w.outline.staffed = w.staffed :=
  w.filterMap_outline fun t i => by
    have hwidth : t.outline.output.width = t.output.width := rfl
    have hworker : t.outline.worker.isSome = t.worker.isSome := Option.isSome_map ..
    simp only [hworker, hwidth]
    rfl

theorem jobs_outline (w : Wall) (layers : List Layer) (upload : Bool) :
    w.outline.jobs layers upload = w.jobs layers upload := by
  rw [jobs, jobs, staffed_outline]
  rfl

theorem staff_outline (w : Wall) : w.outline.staff = w.staff.map (Option.map Worker.outline) := by
  rw [staff, staff, outline, List.map_map, List.map_map]
  rfl

theorem Uncalled.of_outline {w v : Wall} (h : v.Uncalled) (ho : w.outline = v.outline) :
    w.Uncalled := by
  have hscripts : ∀ u : Wall, u.outline.tiles.map (·.onPresent) = u.tiles.map (·.onPresent) :=
    fun u => List.map_map
  intro t ht
  have hmem : t.onPresent ∈ v.tiles.map (·.onPresent) := by
    rw [← hscripts, ← ho, hscripts]
    exact List.mem_map_of_mem ht
  obtain ⟨u, hu, heq⟩ := List.mem_map.1 hmem
  exact heq ▸ h u hu

/-! ### Changes to a wall -/

theorem outline_setTile {w : Wall} {i : Nat} {f g : Tile → Tile}
    (h : ∀ t, w.tiles[i]? = some t → (f t).outline = (g t.outline).outline) :
    (w.setTile i f).outline = (w.outline.setTile i g).outline := by
  have htiles : (w.tiles.modify i f).map Tile.outline =
      ((w.tiles.map Tile.outline).modify i g).map Tile.outline := by
    refine List.ext_getElem? fun j => ?_
    simp only [List.getElem?_map, List.getElem?_modify]
    cases ht : w.tiles[j]? with
    | none => rfl
    | some t =>
      by_cases hij : i = j
      · subst hij
        simpa using h t ht
      · simp [hij]
  simp only [outline, setTile, htiles]

/-- Tiles of the same outline in the place of a tile. -/
theorem outline_replace (w : Wall) (i : Nat) {t t' : Tile} (h : t.outline = t'.outline) :
    (w.setTile i fun _ => t).outline = (w.outline.setTile i fun _ => t').outline :=
  outline_setTile fun _ _ => h

theorem outline_setOutput (w : Wall) (i : Nat) {f : Output → Output}
    (h : ∀ o, (f o).outline = (f o.outline).outline) :
    (w.setOutput i f).outline = (w.outline.setOutput i f).outline :=
  outline_setTile fun t _ => by simp [Tile.outline, h t.output, Function.comp_def]

theorem outline_setOutputs (w : Wall) {f : Output → Output}
    (h : ∀ o, (f o).outline = (f o.outline).outline) :
    (w.setOutputs f).outline = (w.outline.setOutputs f).outline := by
  simp only [outline, setOutputs, List.map_map]
  refine congrArg (fun tiles => { w with tiles, uploads := 0 }) (List.map_congr_left fun t _ => ?_)
  simp [Tile.outline, h t.output, Function.comp_def]

theorem outline_settle (w : Wall) : w.settle.outline = w.outline.settle.outline := by
  have hneeded : (w.outline.held || w.outline.delivering != 0 || w.outline.presenting != 0) =
      (w.held || w.delivering != 0 || w.presenting != 0) := rfl
  rw [settle, settle, hneeded]
  split
  · rw [outline_outline]
  · simp only [outline, dissolve, List.map_map]
    exact congrArg (fun tiles => { w with controller := none, tiles, uploads := 0 })
      (List.map_congr_left fun (t : Tile) _ => t.outline_retire)

theorem outline_reconcile (w : Wall) (c : Controller) :
    (w.reconcile c).outline = (w.outline.reconcile c).outline := by
  rw [reconcile, reconcile]
  split
  · rw [filterMap_outline w (fun t i => rfl)]
    have htiles : (w.tiles.mapIdx fun i t => t.reconcile i).map Tile.outline =
        (w.outline.tiles.mapIdx fun i t => t.reconcile i).map Tile.outline := by
      refine List.ext_getElem? fun j => ?_
      simp only [List.getElem?_map, List.getElem?_mapIdx, getElem?_tiles_outline]
      cases w.tiles[j]? with
      | none => rfl
      | some t => exact congrArg some (t.outline_reconcile j)
    simp only [outline] at htiles ⊢
    rw [htiles]
  · rw [outline_outline]

end Wall

/-! ### Steps -/

theorem Effect.outline_congr {e e' : Effect} (hwall : e.wall.outline = e'.wall.outline)
    (hevents : e.events.map Event.outline = e'.events.map Event.outline)
    (htasks : e.tasks.map Task.outline = e'.tasks.map Task.outline) (hlate : e.late = e'.late)
    (hreply : e.reply = e'.reply) : e.outline = e'.outline := by
  simp [Effect.outline, hwall, hevents, htasks, hlate, hreply]

namespace Wall

/-- A step that does nothing but change the wall. -/
theorem outline_effect {w v : Wall} (h : w.outline = v.outline) :
    ({ wall := w } : Effect).outline = ({ wall := v } : Effect).outline :=
  Effect.outline_congr h rfl rfl rfl rfl

theorem outline_enter (w : Wall) (decide : Controller → Controller × List Delivery) :
    (w.enter decide).outline = (w.outline.enter decide).outline := by
  have hcontroller : w.outline.controller = w.controller := rfl
  rw [enter, enter, hcontroller]
  cases w.controller with
  | none => exact outline_effect w.outline_outline.symm
  | some c =>
    exact Effect.outline_congr (congrArg (fun v : Wall => { v with
      controller := some (decide c).1, delivering := w.delivering + 1 }) w.outline_outline.symm)
      rfl rfl rfl rfl

/-- The same decision, in walls of the same outline. -/
theorem outline_enter_congr {w v : Wall} (h : w.outline = v.outline)
    (decide : Controller → Controller × List Delivery) :
    (w.enter decide).outline = (v.enter decide).outline := by
  rw [outline_enter, h, ← outline_enter]

theorem outline_setController {w v : Wall} (h : w.outline = v.outline) (c : Option Controller) :
    { w with controller := c }.outline = { v with controller := c }.outline :=
  congrArg (fun u : Wall => { u with controller := c }) h

theorem outline_through (w : Wall) (registered : Bool)
    (decide : Controller → Controller × List Delivery) :
    (w.through registered decide).outline = (w.outline.through registered decide).outline := by
  cases registered with
  | true => exact w.outline_enter decide
  | false => exact outline_effect w.outline_outline.symm

theorem outline_asHolder {w : Wall} {f g : Controller → Effect}
    (h : ∀ c, (f c).outline = (g c).outline) :
    (w.asHolder f).outline = (w.outline.asHolder g).outline := by
  have hheld : w.outline.held = w.held := rfl
  have hcontroller : w.outline.controller = w.controller := rfl
  rw [asHolder, asHolder, hheld, hcontroller]
  split
  · exact h _
  · exact Effect.outline_congr w.outline_outline.symm rfl rfl rfl rfl

/-- A frame hands out the same jobs. -/
theorem outline_present (w : Wall) (c : Controller) (layers : List Layer) (upload : Bool)
    (mark : Nat) :
    (w.present c layers upload mark).outline =
      (w.outline.present c layers upload mark).outline := by
  have hreconcile := w.outline_reconcile c
  rw [present, present]
  generalize w.reconcile c = v at hreconcile ⊢
  generalize w.outline.reconcile c = v' at hreconcile ⊢
  have hjobs : v.jobs layers upload = v'.jobs layers upload := by
    rw [← jobs_outline, hreconcile, jobs_outline]
  have hpolicy : v.policy = v'.policy := by
    show v.outline.policy = v'.outline.policy
    rw [hreconcile]
  split
  · refine Effect.outline_congr ?_ rfl ?_ rfl rfl
    · exact congrArg (fun u : Wall => { u with presenting := u.presenting + 1 }) hreconcile
    · dsimp only
      rw [hjobs, hpolicy]
  · exact Effect.outline_congr w.outline_outline.symm rfl rfl rfl rfl

theorem outline_begin (w : Wall) (mark : Nat) (op : Op) :
    (w.begin mark op).outline = (w.outline.begin mark op).outline := by
  cases op with
  | setActiveConfig config =>
    refine outline_asHolder fun c => ?_
    have hset := w.outline_setOutputs (Output.outline_setActiveConfig · config)
    have hmode : (w.setOutputs (·.setActiveConfig config)).outputs.map (·.mode config) =
        (w.outline.setOutputs (·.setActiveConfig config)).outputs.map (·.mode config) := by
      rw [← map_mode_outline, hset, map_mode_outline]
    rw [setActiveConfig, setActiveConfig, callAll_outline, hmode]
    exact Effect.outline_congr (outline_setController hset _) rfl rfl rfl rfl
  | setPowerMode mode =>
    refine outline_asHolder fun c => ?_
    have hset := w.outline_setOutputs (f := (·.setPowerMode mode)) fun o => rfl
    have hstarting : w.outline.starting mode = w.starting mode := w.filterMap_outline fun t i => rfl
    rw [setPowerMode, setPowerMode, callAll_outline, hstarting]
    exact Effect.outline_congr (outline_setController hset _) rfl rfl rfl rfl
  | control enabled =>
    refine outline_asHolder fun c => ?_
    have hset := w.outline_setOutputs (f := (·.control enabled)) fun o => rfl
    rw [control, control, callAll_outline]
    split
    · exact outline_effect w.outline_outline.symm
    · exact Effect.outline_congr (outline_setController hset _) rfl rfl rfl rfl
  | vsyncUpdate time => exact outline_asHolder fun _ => w.outline_enter _
  | hotplugUpdate connected =>
    rw [begin, begin, connectedCount_outline]
    exact outline_asHolder fun _ => w.outline_enter _
  | refreshUpdate => exact outline_asHolder fun _ => w.outline_enter _
  | listen channel display tag script limit =>
    refine outline_asHolder fun c => ?_
    have hset := w.outline_setOutputs (Output.outline_register · channel)
    have hevents : (w.tiles.mapIdx fun i t => Event.call i (.register channel ⟨t.output.pipe⟩)) =
        w.outline.tiles.mapIdx fun i t => .call i (.register channel ⟨t.output.pipe⟩) := by
      refine List.ext_getElem? fun i => ?_
      rw [List.getElem?_mapIdx, List.getElem?_mapIdx, getElem?_tiles_outline, Option.map_map]
      rfl
    have hadd : ((w.setOutputs (·.register channel)).addListener ⟨tag, script, limit⟩).outline =
        ((w.outline.setOutputs (·.register channel)).addListener ⟨tag, script, limit⟩).outline :=
      congrArg (fun v : Wall => v.addListener ⟨tag, script, limit⟩) hset
    exact Effect.outline_congr (outline_setController hadd _)
      (congrArg (List.map Event.outline) hevents) rfl rfl rfl
  | present layers upload => exact outline_asHolder fun c => w.outline_present c layers upload mark
  | ask question =>
    refine outline_asHolder fun c => ?_
    rw [answer_outline]
    exact Effect.outline_congr w.outline_outline.symm rfl rfl rfl rfl
  | vblank i time force =>
    rw [begin, begin, any_output_outline _ _ fun o => rfl]
    exact w.outline_through _ _
  | plug i connected =>
    -- the outputs that are counted are those of the wall once the output is plugged
    have hset := w.outline_setOutput i (f := fun o => { o with connected }) fun o => rfl
    rw [begin, begin]
    generalize w.setOutput i (fun o => { o with connected }) = v at hset ⊢
    generalize w.outline.setOutput i (fun o => { o with connected }) = v' at hset ⊢
    rw [← any_output_outline v i fun o => rfl, ← v.connectedCount_outline, outline_through, hset,
      ← outline_through, any_output_outline v' i fun o => rfl, v'.connectedCount_outline]
  | requestRefresh i =>
    rw [begin, begin, any_output_outline _ _ fun o => rfl]
    exact w.outline_through _ _
  | change i change onPresent =>
    have hset := w.outline_setOutput i (f := (·.change change)) fun o => rfl
    cases onPresent with
    | none => exact outline_effect hset
    | some script =>
      refine outline_effect ?_
      have htile (v : Wall) := outline_setTile (w := v) (i := i)
        (f := fun t => { t with onPresent := script })
        (g := fun t => { t with onPresent := script })
        fun t _ => by rw [Tile.outline, Tile.outline]; simp [Tile.outline, Function.comp_def]
      rw [htile, hset, ← htile]
  | feed i readings => exact Effect.outline_congr w.outline_outline.symm rfl rfl rfl rfl
  | drop => exact outline_effect (outline_settle { w with held := false })

theorem outline_deliver (w : Wall) (d : Delivery) :
    (w.deliver d).outline = (w.outline.deliver d).outline := by
  have hlisteners : w.outline.listeners = w.listeners := rfl
  rw [deliver, deliver, hlisteners]
  split
  · exact outline_effect w.outline_outline.symm
  · split
    · exact Effect.outline_congr w.outline_outline.symm rfl rfl rfl rfl
    · next l _ _ left _ =>
      exact Effect.outline_congr (congrArg (fun v : Wall => { v with
        listeners := w.listeners.set d.listener { l with left } }) w.outline_outline.symm)
        rfl rfl rfl rfl

theorem outline_dispatch (w : Wall) (i : Nat) (job : Job) :
    (w.dispatch i job).outline = (w.outline.dispatch i job).outline := by
  have hworker : w.outline.tiles[i]?.bind (·.worker) =
      (w.tiles[i]?.bind (·.worker)).map Worker.outline := by
    rw [getElem?_tiles_outline]
    cases w.tiles[i]? <;> rfl
  rw [dispatch, dispatch, hworker]
  cases hk : w.tiles[i]?.bind (·.worker) with
  | none => exact Effect.outline_congr w.outline_outline.symm rfl rfl rfl rfl
  | some k =>
    have hexited : k.outline.exited = k.exited := rfl
    cases hx : k.exited with
    | true =>
      simp only [Option.map_some, Worker.present, hexited, hx, if_true]
      exact outline_effect w.outline_outline.symm
    | false =>
      simp only [Option.map_some, Worker.present, hexited, hx, Bool.false_eq_true, if_false]
      exact outline_effect (outline_setTile fun t _ => by simp [Tile.outline, Worker.outline])

theorem outline_finish (w : Wall) (i : Nat) (upload upload' : Bool) (s s' : Submission) :
    (w.finish i upload s).outline = (w.outline.finish i upload' s').outline :=
  outline_effect (outline_setTile (w := w) fun t _ => t.outline_finish s s')

/-- The next reading of a loop comes to the loop of the outline. -/
theorem outline_arrive (w : Wall) (i : Nat) (r : Vblank.Reading) :
    (w.arrive i r).outline = (w.outline.arrive i r).outline := by
  have hset := w.outline_setOutput i (f := (·.mapLoop (·.enqueue r))) fun o => rfl
  rw [arrive, arrive]
  generalize w.setOutput i (·.mapLoop (·.enqueue r)) = v at hset ⊢
  generalize w.outline.setOutput i (·.mapLoop (·.enqueue r)) = v' at hset ⊢
  have hloop : v.outputs[i]?.bind (·.loop) = v'.outputs[i]?.bind (·.loop) := by
    rw [← loop_outline, hset, loop_outline]
  have hdelivering : v.delivering = v'.delivering := by
    show v.outline.delivering = v'.outline.delivering
    rw [hset]
  rw [hloop, hdelivering]
  split
  · exact Effect.outline_congr hset rfl rfl rfl rfl
  · exact Effect.outline_congr hset rfl rfl rfl rfl

theorem outline_poll (w : Wall) (i : Nat) : (w.poll i).outline = (w.outline.poll i).outline := by
  rw [poll, poll, loop_outline]
  split
  · exact outline_effect w.outline_outline.symm
  · exact Effect.outline_congr (w.outline_setOutput i fun o => rfl) rfl rfl rfl rfl

theorem outline_item (w : Wall) (i : Nat) (x : Vblank.Item) :
    (w.item i x).outline = (w.outline.item i x).outline := by
  rw [item, item, loop_outline]
  split
  · exact outline_effect w.outline_outline.symm
  · next l _ =>
    cases x with
    | remark r => exact Effect.outline_congr w.outline_outline.symm rfl rfl rfl rfl
    | flip f =>
      have hset := w.outline_setOutput i (f := (·.mapLoop fun _ => (l.flip f).1)) fun o => rfl
      dsimp only
      split
      · exact outline_effect hset
      · next call _ =>
        have henter := outline_enter_congr hset (·.vblank call.time)
        exact henter

theorem outline_arm (w : Wall) (i : Nat) : (w.arm i).outline = (w.outline.arm i).outline := by
  rw [arm, arm, loop_outline]
  split
  · exact outline_effect w.outline_outline.symm
  · exact Effect.outline_congr (w.outline_setOutput i fun o => rfl) rfl rfl rfl rfl

/-- A job that is handled, whether its output shows it or not. -/
theorem outline_work_of_take? {w : Wall} {i : Nat} {t : Tile} {job : Job} {k : Worker}
    (ht : w.tiles[i]? = some t) (hk : t.worker.bind Worker.take? = some (job, k))
    (hscript : t.onPresent = []) :
    let layers := job.window.assign job.layers
    (w.work i).outline =
      { wall := (w.setTile i fun _ => ⟨t.output, some { k with retained := layers }, []⟩).outline
        events := if layers = [] then [] else [.call i (.present layers job.upload false)]
        tasks := [.finish i job.upload .blank] } := by
  intro layers
  have houtput := k.outline_compose t.output job
  have hevents := k.outline_call? t.output job i layers job.upload
  have hfst := k.compose_fst t.output job
  rw [work, ht]
  dsimp only
  rw [hk]
  dsimp only
  rw [hfst]
  generalize (k.compose t.output job).2.1 = o at houtput ⊢
  generalize (k.compose t.output job).2.2 = s at hevents ⊢
  have hwall : (w.setTile i fun _ => ⟨o, some { k with retained := layers }, []⟩).outline =
      (w.setTile i fun _ => ⟨t.output, some { k with retained := layers }, []⟩).outline := by
    have htile : (⟨o, some { k with retained := layers }, []⟩ : Tile).outline =
        (⟨t.output, some { k with retained := layers }, []⟩ : Tile).outline := by
      rw [Tile.outline, houtput]
      rfl
    rw [outline_replace w i htile, ← outline_replace w i rfl]
  cases s <;> simp only [Effect.outline, hscript, List.map_nil, List.nil_append] <;>
    rw [hwall, hevents] <;> rfl

theorem take?_outline (t : Tile) :
    t.outline.worker.bind Worker.take? =
      (t.worker.bind Worker.take?).map fun p => (p.1, p.2.outline) := by
  cases hk : t.worker with
  | none => simp [Tile.outline, hk]
  | some k => cases hq : k.queue <;> simp [Tile.outline, hk, Worker.take?, Worker.outline, hq]

/-- As long as no output calls back, it makes no difference to what comes of a job whether the
    output shows it. -/
theorem outline_work {w : Wall} (h : w.Uncalled) (i : Nat) :
    (w.work i).outline = (w.outline.work i).outline := by
  cases ht : w.tiles[i]? with
  | none =>
    rw [work, work, getElem?_tiles_outline, ht]
    exact outline_effect w.outline_outline.symm
  | some t =>
    have ht' : w.outline.tiles[i]? = some t.outline := by
      rw [getElem?_tiles_outline, ht]
      rfl
    have hscript : t.onPresent = [] := h t (List.mem_of_getElem? ht)
    cases hk : t.worker.bind Worker.take? with
    | none =>
      rw [work, work, ht, ht']
      dsimp only
      rw [take?_outline, hk]
      exact outline_effect w.outline_outline.symm
    | some p =>
      have hk' : t.outline.worker.bind Worker.take? = some (p.1, p.2.outline) := by
        rw [take?_outline, hk]
        rfl
      rw [outline_work_of_take? ht hk hscript, outline_work_of_take? ht' hk' hscript]
      rw [outline_replace w i]
      rfl

theorem outline_exec {w : Wall} (h : w.Uncalled) (mark : Nat) (t : Task) :
    (w.exec mark t).outline = (w.outline.exec mark t.outline).outline := by
  cases t with
  | perform op =>
    have hb := w.outline_begin mark op
    have hreply : (w.begin mark op).outline.reply = (w.outline.begin mark op).outline.reply :=
      congrArg Effect.reply hb
    have htasks : (w.begin mark op).outline.tasks = (w.outline.begin mark op).outline.tasks :=
      congrArg Effect.tasks hb
    have hlate : (w.begin mark op).outline.late = (w.outline.begin mark op).outline.late :=
      congrArg Effect.late hb
    refine Effect.outline_congr (congrArg Effect.wall hb) (congrArg Effect.events hb) ?_ hlate
      hreply
    dsimp only [exec, Effect.outline, Task.outline] at hreply htasks ⊢
    rw [List.map_append, List.map_append, htasks, hreply]
  | report op reply => exact Effect.outline_congr w.outline_outline.symm rfl rfl rfl rfl
  | deliver d => exact w.outline_deliver d
  | leave => exact outline_effect (outline_settle { w with delivering := w.delivering - 1 })
  | endFrame => exact outline_effect (outline_settle { w with presenting := w.presenting - 1 })
  | dispatch i job => exact w.outline_dispatch i job
  | work i => exact outline_work h i
  | finish i upload s => exact w.outline_finish i upload upload s .blank
  | await i =>
    exact outline_effect (outline_setTile fun t _ => by
      simp [Tile.outline, Function.comp_def, Worker.outline, Worker.wait])
  | group m => exact outline_effect w.outline_outline.symm
  | arrive i r => exact w.outline_arrive i r
  | poll i => exact w.outline_poll i
  | item i x => exact w.outline_item i x
  | arm i => exact w.outline_arm i

end Wall

/-! ### Events -/

namespace Event

theorem output?_outline (e : Event) : e.outline.output? = e.output? := by
  cases e with
  | call i c => cases c <;> rfl
  | _ => rfl

theorem offer?_outline (e : Event) : e.outline.offer? = e.offer? := by
  cases e with
  | call i c => cases c <;> rfl
  | _ => rfl

@[simp] theorem outline_outline (e : Event) : e.outline.outline = e.outline := by
  cases e with
  | call i c => cases c <;> rfl
  | _ => rfl

theorem offers_outline (es : List Event) : offers (es.map outline) = offers es := by
  rw [offers, offers, List.filterMap_map]
  exact List.filterMap_congr fun e _ => e.offer?_outline

/-- Events are grouped by what can be read off their outlines. -/
theorem outline_grouped (es : List Event) :
    (grouped es).map outline = grouped (es.map outline) := by
  rw [grouped_eq, grouped_eq]
  refine List.map_mergeSort fun a _ b _ => ?_
  rw [before, before, output?_outline, output?_outline]

end Event

/-! ### Runs -/

@[simp] theorem Task.outline_outline (t : Task) : t.outline.outline = t.outline := by
  cases t <;> rfl

namespace Run

variable {r : Run}

@[simp] theorem outline_outline (r : Run) : r.outline.outline = r.outline := by
  simp [outline, Function.comp_def]

theorem isAtRest_outline (r : Run) : r.outline.isAtRest = r.isAtRest := by
  rw [isAtRest, isAtRest, outline, List.isEmpty_map]

theorem length_events_outline (r : Run) : r.outline.events.length = r.events.length :=
  List.length_map ..

/-- The outline after an effect is made of the outlines of both. -/
theorem outline_incur (r : Run) (e : Effect) : (r.incur e).outline = r.outline.incur e.outline := by
  simp [outline, incur, Effect.outline]

theorem outline_doing (r : Run) (ts : List Task) :
    (r.doing ts).outline = r.outline.doing (ts.map Task.outline) := rfl

theorem outline_begin (r : Run) (op : Op) :
    (r.begin op).outline = (r.outline.begin op).outline := by
  have hbegin : (r.wall.begin r.events.length op).outline =
      (r.outline.wall.begin r.events.length op).outline := r.wall.outline_begin _ op
  rw [begin, begin, outline_incur, outline_incur, outline_outline, length_events_outline, hbegin]

/-- As long as no output calls back, a task does the same to the outline. -/
theorem outline_does (h : r.wall.Uncalled) (t : Task) :
    (r.does t).outline = (r.outline.does t.outline).outline := by
  by_cases hg : ∃ mark, t = .group mark
  · obtain ⟨mark, rfl⟩ := hg
    show (r.does (.group mark)).outline = (r.outline.does (.group mark)).outline
    rw [does_group, does_group]
    simp [outline, List.map_take, List.map_drop, Event.outline_grouped, Function.comp_def]
  · have ht : ∀ mark, t ≠ .group mark := fun mark ht => hg ⟨mark, ht⟩
    have ht' : ∀ mark, t.outline ≠ .group mark := by
      cases t <;> simp [Task.outline] at ht ⊢
    have hexec : (r.wall.exec r.events.length t).outline =
        (r.outline.wall.exec r.events.length t.outline).outline := Wall.outline_exec h _ t
    rw [does_eq r ht, does_eq r.outline ht', outline_incur, outline_incur, outline_outline,
      length_events_outline, hexec]

/-- As long as no output calls back, one step more does the same to the outline. -/
theorem outline_next (h : r.wall.Uncalled) : r.next.outline = r.outline.next.outline := by
  cases ht : r.tasks with
  | nil =>
    have ht' : r.outline.tasks = [] := by rw [outline, ht]; rfl
    rw [next, ht, next, ht']
    simp [outline, Function.comp_def, Task.outline]
  | cons t ts =>
    have hr : r = r.doing (t :: ts) := by rw [← ht, doing_self]
    have hdoes := outline_does h t
    have htasks : (r.does t).tasks.map Task.outline =
        (r.outline.does t.outline).tasks.map Task.outline := congrArg Run.tasks hdoes
    rw [hr, outline_doing, List.map_cons, next_doing_cons, next_doing_cons, outline_doing,
      outline_doing, hdoes, List.map_append, List.map_append, htasks]
    simp [Function.comp_def]

end Run

end VideoWall
