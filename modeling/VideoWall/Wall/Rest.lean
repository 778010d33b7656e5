import VideoWall.Wall.Run

/-! Every operation comes to rest.

    Each task has a cost, and so has what a wall still holds: the scripts of its listeners, as often
    as they may still run, the scripts of its tiles, and the readings of its loops. A step moves
    cost from the wall to the tasks or back and uses at least one up, so a run with as many steps as
    it costs leaves nothing undone. `Run.isAtRest_steps` says so for any run, and
    `Wall.isAtRest_runOf` for the run of an operation. -/

namespace VideoWall

@[simp] theorem sumSteps_nil : sumSteps [] = 0 := rfl

@[simp] theorem sumSteps_cons (k : Nat) (ks : List Nat) : sumSteps (k :: ks) = k + sumSteps ks :=
  rfl

@[simp] theorem sumSteps_append (ks ls : List Nat) :
    sumSteps (ks ++ ls) = sumSteps ks + sumSteps ls := by
  induction ks with
  | nil => rw [List.nil_append, sumSteps_nil, Nat.zero_add]
  | cons k ks ih => rw [List.cons_append, sumSteps_cons, sumSteps_cons, ih, Nat.add_assoc]

/-- Steps for one task. -/
def Task.cost (n : Nat) : Task → Nat
  | .perform op => op.cost n
  | .work _ => 2
  | .arrive _ r => r.cost + 3
  | .item .. => 3
  | _ => 1

/-- Steps for some tasks. -/
def Task.costs (n : Nat) (ts : List Task) : Nat := sumSteps (ts.map (Task.cost n))

/-- Steps for the tasks, for the turns of the loops, and for what the wall still holds. -/
def Run.cost (r : Run) : Nat :=
  Task.costs r.wall.tiles.length r.tasks + 2 * r.late.length + r.wall.cost

namespace Task

@[simp] theorem costs_nil (n : Nat) : costs n [] = 0 := rfl

@[simp] theorem costs_cons (n : Nat) (t : Task) (ts : List Task) :
    costs n (t :: ts) = t.cost n + costs n ts := by simp [costs]

@[simp] theorem costs_append (n : Nat) (ts us : List Task) :
    costs n (ts ++ us) = costs n ts + costs n us := by simp [costs]

/-- Tasks that cost alike cost so many times as much. -/
theorem costs_map_const {α : Type} (n k : Nat) (xs : List α) (f : α → Task)
    (h : ∀ x, (f x).cost n = k) : costs n (xs.map f) = k * xs.length := by
  induction xs with
  | nil => simp
  | cons x xs ih =>
    simp only [List.map_cons, costs_cons, h, ih, List.length_cons, Nat.mul_succ]
    omega

/-- Performing a script costs what the script costs. -/
theorem costs_map_perform (n : Nat) (script : List Op) :
    costs n (script.map .perform) = Op.costs n script := by
  induction script with
  | nil => simp [Op.costs]
  | cons op rest ih => simp [Op.costs, ih, cost]

/-- Every operation costs more than the tasks it could leave to each tile. -/
theorem base_le_cost (n : Nat) (op : Op) : 4 * n + 8 ≤ Op.cost n op := by
  cases op <;> simp only [Op.cost] <;> omega

end Task

/-! ### What tiles hold -/

namespace Tile

/-- What some tiles hold. -/
def costs (n : Nat) (ts : List Tile) : Nat := sumSteps (ts.map (Tile.cost n))

theorem costs_map_le {n : Nat} {f : Tile → Tile} (h : ∀ t, (f t).cost n ≤ t.cost n)
    (ts : List Tile) : costs n (ts.map f) ≤ costs n ts := by
  induction ts with
  | nil => simp [costs]
  | cons t ts ih =>
    have := h t
    simp only [costs, List.map_cons, sumSteps_cons] at *
    omega

theorem costs_mapIdx_le {n : Nat} {f : Nat → Tile → Tile} (h : ∀ i t, (f i t).cost n ≤ t.cost n)
    (ts : List Tile) : costs n (ts.mapIdx f) ≤ costs n ts := by
  induction ts generalizing f with
  | nil => simp [costs]
  | cons t ts ih =>
    have := h 0 t
    have := ih (f := fun i => f (i + 1)) fun i => h (i + 1)
    simp only [costs, List.mapIdx_cons, List.map_cons, sumSteps_cons] at *
    omega

/-- Changing one tile changes the cost by what that tile's cost changes. -/
theorem costs_modify {n i : Nat} {f : Tile → Tile} {ts : List Tile} {t : Tile}
    (h : ts[i]? = some t) : costs n (ts.modify i f) + t.cost n = costs n ts + (f t).cost n := by
  induction ts generalizing i with
  | nil => simp at h
  | cons u us ih =>
    cases i with
    | zero =>
      simp only [List.getElem?_cons_zero, Option.some.injEq] at h
      subst h
      simp only [costs, List.modify_zero_cons, List.map_cons, sumSteps_cons]
      omega
    | succ i =>
      have := ih (by simpa using h)
      simp only [costs, List.modify_succ_cons, List.map_cons, sumSteps_cons] at *
      omega

theorem costs_modify_le {n : Nat} {f : Tile → Tile} (h : ∀ t, (f t).cost n ≤ t.cost n) (i : Nat)
    (ts : List Tile) : costs n (ts.modify i f) ≤ costs n ts := by
  cases ht : ts[i]? with
  | none =>
    have : ts.length ≤ i := by simpa using ht
    exact Nat.le_of_eq (by rw [List.modify_eq_self this])
  | some t =>
    have := costs_modify (n := n) (f := f) ht
    have := h t
    omega

/-- A tile's cost only depends on its script and on the readings of its loop. -/
theorem cost_congr {n : Nat} {t u : Tile} (hs : t.onPresent = u.onPresent)
    (hl : t.output.loop.map (·.device.queued) = u.output.loop.map (·.device.queued)) :
    t.cost n = u.cost n := by
  unfold cost
  rw [hs]
  cases ht : t.output.loop <;> cases hu : u.output.loop <;> simp_all

end Tile

/-! ### Outputs keep their readings -/

/-- The readings of the output's loop. -/
def Output.readings (o : Output) : Option (List Vblank.Reading) := o.loop.map (·.device.queued)

namespace Output

@[simp] theorem readings_setActiveConfig (o : Output) (config : Nat) :
    (o.setActiveConfig config).readings = o.readings := by
  unfold setActiveConfig
  split <;> rfl

@[simp] theorem readings_setPowerMode (o : Output) (mode : PowerMode) :
    (o.setPowerMode mode).readings = o.readings := by
  cases h : o.loop with
  | none => simp [setPowerMode, mapLoop, readings, h]
  | some l =>
    cases hm : mode.isOn <;>
      simp [setPowerMode, mapLoop, readings, h, Vblank.Loop.setPower, hm, Vblank.Loop.start,
        Vblank.Loop.stop]

@[simp] theorem readings_register (o : Output) (channel : Channel) :
    (o.register channel).readings = o.readings := by
  cases channel <;> cases h : o.loop <;>
    simp [register, mapLoop, readings, h, Vblank.Loop.register]

@[simp] theorem readings_control (o : Output) (enabled : Bool) :
    (o.control enabled).readings = o.readings := by
  cases h : o.loop with
  | none => simp [control, mapLoop, readings, h]
  | some l =>
    simp only [control, mapLoop, readings, h, Option.map_some, Vblank.Loop.control]
    split <;> rfl

@[simp] theorem readings_change (o : Output) (c : OutputChange) :
    (o.change c).readings = o.readings := rfl

@[simp] theorem readings_release (o : Output) (f : Option Fence) :
    (o.release f).readings = o.readings := by
  cases f <;> rfl

@[simp] theorem readings_present (o : Output) : o.present.1.readings = o.readings := by
  unfold present
  split
  · rfl
  · split <;> rfl

end Output

namespace Worker

@[simp] theorem readings_retire (w : Worker) (o : Output) :
    (w.retire o).2.readings = o.readings := by
  simp [retire]

@[simp] theorem readings_settle (w : Worker) (o : Output) (s : Submission) :
    (w.settle o s).2.readings = o.readings := by
  cases s <;> simp [settle]

@[simp] theorem readings_compose (w : Worker) (o : Output) (job : Job) :
    (w.compose o job).2.1.readings = o.readings := by
  have h := o.readings_present
  unfold compose
  dsimp only
  split
  · rfl
  · split <;> simp_all

end Worker

namespace Tile

/-- A tile that keeps its script and readings keeps its cost. -/
theorem cost_eq {n : Nat} {t u : Tile} (hs : t.onPresent = u.onPresent)
    (hr : t.output.readings = u.output.readings) : t.cost n = u.cost n := cost_congr hs hr

theorem cost_retire (n : Nat) (t : Tile) : t.retire.cost n = t.cost n := by
  unfold retire
  split
  · rfl
  · exact cost_eq rfl (by simp)

theorem cost_reconcile (n i : Nat) (t : Tile) : (t.reconcile i).cost n = t.cost n := by
  unfold reconcile
  split
  · exact cost_eq rfl rfl
  · exact cost_retire n t

theorem cost_finish (n : Nat) (t : Tile) (s : Submission) : (t.finish s).cost n = t.cost n := by
  unfold finish
  split
  · exact cost_eq rfl (by simp)
  · exact cost_eq rfl (by simp)
  · rfl

end Tile

/-! ### Walls -/

namespace Wall

/-- `e` leaves the number of tiles alone, and what it costs from there on is at most `budget` more
    than what the wall held. -/
structure Within (w : Wall) (budget : Nat) (e : Effect) : Prop where
  length_eq : e.wall.tiles.length = w.tiles.length
  cost_le : Task.costs w.tiles.length e.tasks + 2 * e.late.length + e.wall.cost ≤
    budget + w.cost

/-- An effect that gives no loop a turn later costs its tasks and its wall. -/
theorem within_of_tasks_le {w : Wall} {k : Nat} {e : Effect}
    (hn : e.wall.tiles.length = w.tiles.length) (hl : e.late = [])
    (hc : Task.costs w.tiles.length e.tasks + e.wall.cost ≤ k + w.cost) : Within w k e :=
  ⟨hn, by rw [hl, List.length_nil]; omega⟩

theorem cost_eq_costs (w : Wall) :
    w.cost =
      sumSteps (w.listeners.map (·.cost w.tiles.length)) + Tile.costs w.tiles.length w.tiles := rfl

/-- The controller and the counters hold nothing. -/
theorem cost_congr {v w : Wall} (hl : v.listeners = w.listeners) (ht : v.tiles = w.tiles) :
    v.cost = w.cost := by
  rw [cost_eq_costs, cost_eq_costs, hl, ht]

/-- A change of the tiles that keeps their number costs what it costs the tiles. -/
theorem cost_le_of_tiles {v w : Wall} (hl : v.listeners = w.listeners)
    (hn : v.tiles.length = w.tiles.length)
    (ht : Tile.costs w.tiles.length v.tiles ≤ Tile.costs w.tiles.length w.tiles) :
    v.cost ≤ w.cost := by
  rw [cost_eq_costs, cost_eq_costs, hl, hn]
  omega

theorem cost_setTile_le {w : Wall} {i : Nat} {f : Tile → Tile}
    (h : ∀ t, (f t).cost w.tiles.length ≤ t.cost w.tiles.length) : (w.setTile i f).cost ≤ w.cost :=
  cost_le_of_tiles rfl (by simp [setTile]) (Tile.costs_modify_le h i w.tiles)

theorem cost_setOutput_le {w : Wall} {i : Nat} {f : Output → Output}
    (h : ∀ o, (f o).readings = o.readings) : (w.setOutput i f).cost ≤ w.cost :=
  cost_setTile_le (f := fun t => { t with output := f t.output })
    fun t => Nat.le_of_eq (Tile.cost_eq (t := { t with output := f t.output }) rfl (h t.output))

theorem cost_setOutputs_le {w : Wall} {f : Output → Output}
    (h : ∀ o, (f o).readings = o.readings) : (w.setOutputs f).cost ≤ w.cost :=
  cost_le_of_tiles rfl (by simp [setOutputs])
    (Tile.costs_map_le
      (fun t => Nat.le_of_eq (Tile.cost_eq (t := { t with output := f t.output }) rfl (h t.output)))
      w.tiles)

@[simp] theorem length_setTile (w : Wall) (i : Nat) (f : Tile → Tile) :
    (w.setTile i f).tiles.length = w.tiles.length := by simp [setTile]

@[simp] theorem length_setOutput (w : Wall) (i : Nat) (f : Output → Output) :
    (w.setOutput i f).tiles.length = w.tiles.length := length_setTile ..

@[simp] theorem length_setOutputs (w : Wall) (f : Output → Output) :
    (w.setOutputs f).tiles.length = w.tiles.length := by simp [setOutputs]

theorem cost_dissolve_le (w : Wall) : w.dissolve.cost ≤ w.cost :=
  cost_le_of_tiles rfl (by simp [dissolve])
    (Tile.costs_map_le (fun t => Nat.le_of_eq (Tile.cost_retire _ t)) w.tiles)

theorem cost_settle_le (w : Wall) : w.settle.cost ≤ w.cost := by
  unfold settle
  split
  · exact Nat.le_refl _
  · exact cost_dissolve_le w

@[simp] theorem length_settle (w : Wall) : w.settle.tiles.length = w.tiles.length := by
  unfold settle
  split
  · rfl
  · simp [dissolve]

theorem cost_reconcile_le (w : Wall) (c : Controller) : (w.reconcile c).cost ≤ w.cost := by
  unfold reconcile
  split
  · exact cost_le_of_tiles rfl (by simp)
      (Tile.costs_mapIdx_le (fun i t => Nat.le_of_eq (Tile.cost_reconcile _ i t)) w.tiles)
  · exact Nat.le_refl _

@[simp] theorem length_reconcile (w : Wall) (c : Controller) :
    (w.reconcile c).tiles.length = w.tiles.length := by
  unfold reconcile
  split <;> simp

/-! ### Operations -/

/-- A call on the controller leaves at most its deliveries and one more task. -/
theorem within_enter {w : Wall} {d : Controller → Controller × List Delivery} {k : Nat}
    (h : ∀ c, (d c).2.length ≤ k) : Within w (k + 1) (w.enter d) := by
  rcases w.enter_cases d with ⟨-, he⟩ | ⟨c, hc, he⟩ <;> rw [he]
  · exact ⟨rfl, by simp⟩
  · refine within_of_tasks_le rfl rfl ?_
    have hd := Task.costs_map_const w.tiles.length 1 (d c).2 .deliver fun _ => rfl
    have hk := h c
    have hw : Wall.cost { w with controller := some (d c).1, delivering := w.delivering + 1 } =
        w.cost :=
      cost_congr rfl rfl
    simp only [Task.costs_append, Task.costs_cons, Task.costs_nil, Task.cost, hd, hw]
    omega

theorem within_through {w : Wall} {b : Bool} {d : Controller → Controller × List Delivery} {k : Nat}
    (h : ∀ c, (d c).2.length ≤ k) : Within w (k + 1) (w.through b d) := by
  rcases w.through_cases b d with ⟨-, he⟩ | ⟨-, he⟩ <;> rw [he]
  · exact within_enter h
  · exact ⟨rfl, by simp⟩

theorem within_asHolder {w : Wall} {f : Controller → Effect} {k : Nat}
    (h : ∀ c, Within w k (f c)) : Within w k (w.asHolder f) := by
  rcases w.asHolder_cases f with ⟨c, -, -, he⟩ | ⟨-, he⟩ <;> rw [he]
  · exact h c
  · exact ⟨rfl, by simp⟩

theorem Within.mono {w : Wall} {j k : Nat} {e : Effect} (h : Within w j e) (hjk : j ≤ k) :
    Within w k e := ⟨h.length_eq, by have := h.cost_le; omega⟩

/-- A wall that costs no more may stand in for another. -/
theorem Within.of_le {v w : Wall} {k : Nat} {e : Effect} (h : Within v k e)
    (hn : v.tiles.length = w.tiles.length) (hc : v.cost ≤ w.cost) : Within w k e :=
  ⟨h.length_eq.trans hn, by have := h.cost_le; rw [hn] at this; omega⟩

/-- An effect without tasks costs nothing if its wall does not. -/
theorem within_of_cost_le {w : Wall} {e : Effect} (hn : e.wall.tiles.length = w.tiles.length)
    (hc : e.wall.cost ≤ w.cost) (ht : e.tasks = []) (hl : e.late = []) (k : Nat) :
    Within w k e :=
  within_of_tasks_le hn hl (by rw [ht, Task.costs_nil]; omega)

/-- Changing a tile in a way that costs nothing. -/
theorem within_setTile {w : Wall} {i : Nat} {f : Tile → Tile} (h : ∀ n t, (f t).cost n = t.cost n)
    (k : Nat) (events : List Event) (log : List Log.Line) :
    Within w k { wall := w.setTile i f, events, log } :=
  within_of_cost_le (length_setTile w i f) (cost_setTile_le fun t => Nat.le_of_eq (h _ t))
    rfl rfl k

theorem length_deliveries_vblank (c : Controller) (t : Int) : (c.vblank t).2.length ≤ 1 := by
  unfold Controller.vblank
  split
  · cases (c.cycle.observe t).2 <;> simp
  · simp

theorem length_deliveries_hotplug (c : Controller) (n : Nat) (b : Bool) :
    (c.hotplug n b).2.length ≤ 2 := by
  unfold Controller.hotplug
  dsimp only
  split <;> split <;> simp

theorem length_deliveries_refresh (c : Controller) : c.refresh.length ≤ 1 := by
  unfold Controller.refresh
  split
  · cases c.refreshListener <;> simp
  · simp

/-- No more tiles get a frame than there are. -/
theorem length_jobs_le (w : Wall) (layers : List Layer) (upload : Bool) :
    (w.jobs layers upload).length ≤ w.tiles.length := by
  have h : w.staffed.length ≤ w.tiles.length := by
    simpa [staffed] using List.length_filterMap_le _ w.tiles.zipIdx
  simp only [jobs, List.length_map, List.length_take, List.length_zip]
  omega

/-- Four steps for each job: handing it out, handling it in two steps, and waiting for it. -/
theorem costs_schedule (n : Nat) (p : Pipeline) (jobs : List (Nat × Job)) :
    Task.costs n (schedule p jobs) = 4 * jobs.length := by
  cases p with
  | sequential =>
    induction jobs with
    | nil => rfl
    | cons j js ih =>
      simp only [schedule, List.flatMap_cons, Task.costs_append, Task.costs_cons, Task.costs_nil,
        Task.cost, List.length_cons] at ih ⊢
      omega
  | barrier =>
    simp only [schedule, Task.costs_append]
    rw [Task.costs_map_const n 1 _ _ fun _ => rfl, Task.costs_map_const n 2 _ _ fun _ => rfl,
      Task.costs_map_const n 1 _ _ fun _ => rfl]
    omega

theorem within_present (w : Wall) (c : Controller) (layers : List Layer) (upload : Bool)
    (mark : Nat) : Within w (4 * w.tiles.length + 2) (w.present c layers upload mark) := by
  unfold present
  split
  · have hj := length_jobs_le (w.reconcile c) layers upload
    have hc := cost_reconcile_le w c
    rw [length_reconcile] at hj
    refine ⟨length_reconcile w c, ?_⟩
    have hw : Wall.cost { w.reconcile c with presenting := (w.reconcile c).presenting + 1 } =
        (w.reconcile c).cost := cost_congr rfl rfl
    simp only [Task.costs_append, costs_schedule, Task.costs_cons, Task.costs_nil, Task.cost, hw]
    split <;> simp [Task.cost] <;> omega
  · exact ⟨rfl, by simp⟩

theorem length_starting_le (w : Wall) (mode : PowerMode) :
    (w.starting mode).length ≤ w.tiles.length := by
  simpa [starting] using List.length_filterMap_le _ w.tiles.zipIdx

theorem within_setPowerMode (w : Wall) (c : Controller) (mode : PowerMode) :
    Within w (2 * w.tiles.length) (w.setPowerMode c mode) := by
  refine ⟨by simp [setPowerMode], ?_⟩
  have hc : (w.setOutputs (·.setPowerMode mode)).cost ≤ w.cost :=
    cost_setOutputs_le fun o => o.readings_setPowerMode mode
  have hw : (w.setPowerMode c mode).wall.cost = (w.setOutputs (·.setPowerMode mode)).cost :=
    cost_congr rfl rfl
  have hl := length_starting_le w mode
  rw [hw]
  simp only [setPowerMode, Task.costs_nil]
  omega

theorem within_setActiveConfig (w : Wall) (c : Controller) (config k : Nat) :
    Within w k (w.setActiveConfig c config) :=
  within_of_cost_le (by simp [setActiveConfig])
    (Nat.le_trans (Nat.le_of_eq (cost_congr rfl rfl))
      (cost_setOutputs_le (f := (·.setActiveConfig config)) fun o =>
        o.readings_setActiveConfig config))
    rfl rfl k

theorem within_control (w : Wall) (c : Controller) (enabled : Bool) (k : Nat) :
    Within w k (w.control c enabled) := by
  unfold control
  split
  · exact ⟨rfl, by simp⟩
  · exact within_of_cost_le (by simp)
      (Nat.le_trans (Nat.le_of_eq (cost_congr rfl rfl))
        (cost_setOutputs_le (f := (·.control enabled)) fun o => o.readings_control enabled))
      rfl rfl k

/-- A new listener holds its script as often as it may run. -/
theorem within_listen (w : Wall) (c : Controller) (channel : Channel) (display : DisplayId)
    (l : Listener) : Within w (l.cost w.tiles.length) (w.listen c channel display l) := by
  refine within_of_tasks_le (by simp [listen, addListener]) rfl ?_
  have hc : (w.setOutputs (·.register channel)).cost ≤ w.cost :=
    cost_setOutputs_le fun o => o.readings_register channel
  have hl : (w.setOutputs (·.register channel)).listeners = w.listeners := rfl
  rw [cost_eq_costs, cost_eq_costs, hl, length_setOutputs] at hc
  rw [cost_eq_costs, cost_eq_costs]
  simp only [listen, addListener, length_setOutputs, hl, List.map_append, sumSteps_append,
    List.map_cons, List.map_nil, sumSteps_cons, sumSteps_nil, Task.costs_nil]
  omega

/-- Readings that arrive cost what they will cost. -/
theorem costs_arrive (n i : Nat) (rs : List Vblank.Reading) :
    Task.costs n (rs.map (.arrive i)) = sumSteps (rs.map fun r => r.cost + 3) := by
  induction rs with
  | nil => rfl
  | cons r rs ih => simp only [List.map_cons, Task.costs_cons, Task.cost, ih, sumSteps_cons]

/-- A script that is given to a tile is held by it. -/
theorem cost_setScript_le (w : Wall) (i : Nat) (script : List Op) :
    (w.setTile i fun t => { t with onPresent := script }).cost ≤
      Op.costs w.tiles.length script + w.cost := by
  rw [cost_eq_costs, cost_eq_costs]
  have hl : (w.setTile i fun t => { t with onPresent := script }).listeners = w.listeners := rfl
  rw [hl, length_setTile]
  cases ht : w.tiles[i]? with
  | none =>
    have hi : w.tiles.length ≤ i := by simpa using ht
    simp only [setTile, List.modify_eq_self hi]
    omega
  | some t =>
    have h := Tile.costs_modify (n := w.tiles.length)
      (f := fun t => { t with onPresent := script }) ht
    simp only [Tile.cost] at h
    simp only [setTile]
    omega

/-- An operation leaves at least two steps of its cost unused. -/
theorem within_begin (w : Wall) (mark : Nat) (op : Op) :
    Within w (op.cost w.tiles.length - 2) (w.begin mark op) := by
  cases op with
  | setActiveConfig config => exact within_asHolder fun c => within_setActiveConfig w c config _
  | setPowerMode mode =>
    exact within_asHolder fun c =>
      (within_setPowerMode w c mode).mono (by simp only [Op.cost]; omega)
  | control enabled => exact within_asHolder fun c => within_control w c enabled _
  | vsyncUpdate t =>
    exact within_asHolder fun _ => (within_enter fun c => length_deliveries_vblank c t).mono
      (by simp only [Op.cost]; omega)
  | hotplugUpdate b =>
    exact within_asHolder fun _ =>
      (within_enter fun c => length_deliveries_hotplug c w.connectedCount b).mono
        (by simp only [Op.cost]; omega)
  | refreshUpdate =>
    exact within_asHolder fun _ => (within_enter fun c => length_deliveries_refresh c).mono
      (by simp only [Op.cost]; omega)
  | listen channel display tag script limit =>
    exact within_asHolder fun c => (within_listen w c channel display _).mono
      (by simp only [Op.cost, Listener.cost]; omega)
  | present layers upload =>
    exact within_asHolder fun c => (within_present w c layers upload mark).mono
      (by simp only [Op.cost]; omega)
  | ask question => exact within_asHolder fun c => ⟨rfl, by simp⟩
  | vblank i t force =>
    exact (within_through fun c => length_deliveries_vblank c t).mono
      (by simp only [Op.cost]; omega)
  | plug i b =>
    refine Within.of_le (v := w.setOutput i fun o => { o with connected := b }) ?_ (by simp)
      (cost_setOutput_le fun _ => rfl)
    exact (within_through fun c => length_deliveries_hotplug c _ b).mono
      (by simp only [Op.cost]; omega)
  | requestRefresh i =>
    exact (within_through fun c => length_deliveries_refresh c).mono (by simp only [Op.cost]; omega)
  | change i change onPresent =>
    have hc : (w.setOutput i (·.change change)).cost ≤ w.cost :=
      cost_setOutput_le fun o => o.readings_change change
    cases onPresent with
    | none => exact within_of_cost_le (by simp [begin]) hc rfl rfl _
    | some script =>
      refine within_of_tasks_le (by simp [begin]) rfl ?_
      have hs := cost_setScript_le (w.setOutput i (·.change change)) i script
      rw [length_setOutput] at hs
      simp only [begin, Task.costs_nil, Op.cost, Op.costsOf]
      omega
  | feed i readings =>
    refine within_of_tasks_le rfl rfl ?_
    simp only [begin, costs_arrive, Op.cost]
    omega
  | drop =>
    exact within_of_cost_le (length_settle _)
      (Nat.le_trans (cost_settle_le _) (Nat.le_of_eq (cost_congr rfl rfl))) rfl rfl _

/-! ### Tasks -/

/-- What the listeners hold changes by what one of them changes. -/
theorem sum_cost_set {n i : Nat} {ls : List Listener} {l : Listener} (h : ls[i]? = some l)
    (l' : Listener) :
    sumSteps ((ls.set i l').map (·.cost n)) + l.cost n =
      sumSteps (ls.map (·.cost n)) + l'.cost n := by
  induction ls generalizing i with
  | nil => simp at h
  | cons k ks ih =>
    cases i with
    | zero =>
      simp only [List.getElem?_cons_zero, Option.some.injEq] at h
      subst h
      simp only [List.set_cons_zero, List.map_cons, sumSteps_cons]
      omega
    | succ i =>
      have := ih (by simpa using h)
      simp only [List.set_cons_succ, List.map_cons, sumSteps_cons]
      omega

theorem within_deliver (w : Wall) (d : Delivery) : Within w 0 (w.deliver d) := by
  rcases w.deliver_cases d with ⟨he, -⟩ | ⟨l, hl, ⟨-, he⟩ | ⟨left, hleft, he⟩⟩ <;> rw [he]
  · exact ⟨rfl, by simp⟩
  · exact ⟨rfl, by simp⟩
  · refine within_of_tasks_le rfl rfl ?_
    have h := sum_cost_set (n := w.tiles.length) hl { l with left }
    have hc : l.cost w.tiles.length =
        Listener.cost w.tiles.length { l with left } + Op.costs w.tiles.length l.script := by
      simp only [Listener.cost, hleft, Nat.succ_mul]
    rw [cost_eq_costs, cost_eq_costs, Task.costs_map_perform]
    dsimp only
    omega

theorem within_dispatch (w : Wall) (i k : Nat) (job : Job) : Within w k (w.dispatch i job) := by
  rcases w.dispatch_cases i job with ⟨log, he, -⟩ | ⟨worker, -, -, he⟩ <;> rw [he]
  · exact ⟨rfl, by simp⟩
  · exact within_setTile
      (f := fun t => { t with worker := some { worker with queue := worker.queue ++ [job] } })
      (fun _ _ => rfl) k [] []

theorem within_work (w : Wall) (i : Nat) : Within w 1 (w.work i) := by
  rcases w.work_cases i with
    ⟨he, -⟩ | ⟨t, k, job, k', ht, -, -, script, onPresent, log, he, hleft⟩ <;> rw [he]
  · exact ⟨rfl, by simp⟩
  · have hr := k'.readings_compose t.output job
    generalize k'.compose t.output job = composed at hr ⊢
    have hm := Tile.costs_modify (n := w.tiles.length)
      (f := fun _ => ⟨composed.2.1, some composed.1, onPresent⟩) ht
    have hc : Tile.cost w.tiles.length ⟨composed.2.1, some composed.1, onPresent⟩ =
        Tile.cost w.tiles.length { t with onPresent } := Tile.cost_eq rfl hr
    -- What the script costs is no longer on the tile when it is left to run.
    have hscript : Tile.cost w.tiles.length { t with onPresent } +
        Op.costs w.tiles.length script = t.cost w.tiles.length := by
      rcases hleft with ⟨rfl, rfl⟩ | ⟨rfl, rfl⟩
      · simp only [Op.costs, Nat.add_zero]
      · simp only [Tile.cost, Op.costs]
        omega
    refine within_of_tasks_le (by simp) rfl ?_
    rw [cost_eq_costs, cost_eq_costs, Task.costs_append, Task.costs_map_perform]
    simp only [setTile, Task.costs_cons, Task.costs_nil, Task.cost, List.length_modify]
    omega

theorem within_finish (w : Wall) (i k : Nat) (upload : Bool) (s : Submission) :
    Within w k (w.finish i upload s) :=
  Within.of_le (v := { w with uploads := w.uploads + s.uploads upload })
    (within_setTile (fun n t => Tile.cost_finish n t s) k [] []) rfl
    (Nat.le_of_eq (cost_congr rfl rfl))

/-- The loop of a tile, as a tile with that loop. -/
theorem tile_of_loop {w : Wall} {i : Nat} {l : Vblank.Loop Unit}
    (h : w.outputs[i]?.bind (·.loop) = some l) :
    ∃ t, w.tiles[i]? = some t ∧ t.output.loop = some l := by
  simp only [outputs, List.getElem?_map] at h
  cases ht : w.tiles[i]? with
  | none => simp [ht] at h
  | some t => exact ⟨t, rfl, by simpa [ht] using h⟩

/-- Replacing a loop by one with the same readings costs nothing. -/
theorem cost_setLoop_le {w : Wall} {i : Nat} {l m : Vblank.Loop Unit}
    (h : w.outputs[i]?.bind (·.loop) = some l) (hq : m.device.queued = l.device.queued) :
    (w.setOutput i (·.mapLoop fun _ => m)).cost ≤ w.cost := by
  obtain ⟨t, ht, hl⟩ := tile_of_loop h
  have hm := Tile.costs_modify (n := w.tiles.length)
    (f := fun t => { t with output := t.output.mapLoop fun _ => m }) ht
  have hc : Tile.cost w.tiles.length { t with output := t.output.mapLoop fun _ => m } =
      t.cost w.tiles.length :=
    Tile.cost_congr rfl (by simp [Output.mapLoop, hl, hq])
  refine cost_le_of_tiles rfl (by simp) ?_
  simp only [setOutput, setTile]
  omega

theorem within_poll (w : Wall) (i : Nat) : Within w 0 (w.poll i) := by
  rcases w.poll_cases i with ⟨he, -⟩ | ⟨l, r, l', hl, htake, he⟩ <;> rw [he]
  · exact ⟨rfl, by simp⟩
  · obtain ⟨t, ht, hlt⟩ := tile_of_loop hl
    obtain ⟨-, hq, -⟩ := Vblank.Loop.of_take?_eq_some htake
    refine within_of_tasks_le (by simp) rfl ?_
    have hm := Tile.costs_modify (n := w.tiles.length)
      (f := fun t => { t with output := t.output.mapLoop fun _ => l' }) ht
    have hc : Tile.cost w.tiles.length { t with output := t.output.mapLoop fun _ => l' } +
        r.cost = t.cost w.tiles.length := by
      simp only [Tile.cost, Output.mapLoop, hlt, Option.map_some, hq, List.map_cons,
        sumSteps_cons]
      omega
    have hi := Task.costs_map_const w.tiles.length 3 r.items (.item i) fun _ => rfl
    rw [cost_eq_costs, cost_eq_costs]
    simp only [setOutput, setTile, List.length_modify, Task.costs_append, hi, Task.costs_cons,
      Task.costs_nil, Task.cost, Vblank.Reading.cost] at hc ⊢
    omega

theorem queued_flip (l : Vblank.Loop Unit) (f : Drm.Flip) :
    (l.flip f).1.device.queued = l.device.queued := by
  unfold Vblank.Loop.flip
  split <;> rfl

theorem within_item (w : Wall) (i : Nat) (x : Vblank.Item) : Within w 2 (w.item i x) := by
  rcases w.item_cases i x with ⟨log, he, -⟩ | ⟨l, f, log, hl, -, hcall⟩
  · rw [he]
    exact ⟨rfl, by simp⟩
  · have hn := length_setOutput w i (·.mapLoop fun _ => (l.flip f).1)
    have hc := cost_setLoop_le hl (queued_flip l f)
    rcases hcall with ⟨-, he⟩ | ⟨call, -, he⟩ <;> rw [he]
    · exact within_of_cost_le hn hc rfl rfl 2
    · have h := (within_enter fun c => length_deliveries_vblank c call.time).of_le hn hc
      exact ⟨h.length_eq, h.cost_le⟩

theorem within_arm (w : Wall) (i k : Nat) : Within w k (w.arm i) := by
  rcases w.arm_cases i with ⟨he, -⟩ | ⟨l, hl, he⟩ <;> rw [he]
  · exact ⟨rfl, by simp⟩
  · exact within_of_cost_le (length_setOutput w i _) (cost_setLoop_le (m := l.arm.1) hl rfl) rfl
      rfl k

/-- A reading that arrives is held by the loop that it arrives at. -/
theorem cost_enqueue_le (w : Wall) (i : Nat) (r : Vblank.Reading) :
    (w.setOutput i (·.mapLoop (·.enqueue r))).cost ≤ r.cost + w.cost := by
  rw [cost_eq_costs, cost_eq_costs]
  have hl : (w.setOutput i (·.mapLoop (·.enqueue r))).listeners = w.listeners := rfl
  rw [hl, length_setOutput]
  cases ht : w.tiles[i]? with
  | none =>
    have hi : w.tiles.length ≤ i := by simpa using ht
    simp only [setOutput, setTile, List.modify_eq_self hi]
    omega
  | some t =>
    have h := Tile.costs_modify (n := w.tiles.length)
      (f := fun t => { t with output := t.output.mapLoop (·.enqueue r) }) ht
    have hc : Tile.cost w.tiles.length { t with output := t.output.mapLoop (·.enqueue r) } ≤
        t.cost w.tiles.length + r.cost := by
      cases hlt : t.output.loop with
      | none => simp [Tile.cost, Output.mapLoop, hlt]
      | some l =>
        simp only [Tile.cost, Output.mapLoop, hlt, Option.map_some, Vblank.Loop.enqueue,
          List.map_append, sumSteps_append, List.map_cons, List.map_nil, sumSteps_cons,
          sumSteps_nil]
        omega
    simp only [setOutput, setTile]
    omega

theorem within_arrive (w : Wall) (i : Nat) (r : Vblank.Reading) :
    Within w (r.cost + 2) (w.arrive i r) := by
  have hn := length_setOutput w i (·.mapLoop (·.enqueue r))
  have hc := cost_enqueue_le w i r
  rcases w.arrive_cases i r with ⟨he, -⟩ | he <;> rw [he]
  · refine ⟨hn, ?_⟩
    simp only [Task.costs_nil, List.length_singleton]
    omega
  · refine ⟨hn, ?_⟩
    simp only [Task.costs_cons, Task.costs_nil, Task.cost, List.length_nil]
    omega

/-- A task uses up at least one step of its cost. -/
theorem within_exec (w : Wall) (mark : Nat) (t : Task) :
    Within w (t.cost w.tiles.length - 1) (w.exec mark t) := by
  cases t with
  | perform op =>
    have h := within_begin w mark op
    have hb := Task.base_le_cost w.tiles.length op
    refine ⟨h.length_eq, ?_⟩
    have hc := h.cost_le
    simp only [exec, Task.costs_append, Task.costs_cons, Task.costs_nil, Task.cost]
    omega
  | report op reply => exact ⟨rfl, by simp [exec]⟩
  | deliver d => exact within_deliver w d
  | leave | endFrame =>
    exact within_of_cost_le (length_settle _)
      (Nat.le_trans (cost_settle_le _) (Nat.le_of_eq (cost_congr rfl rfl))) rfl rfl _
  | dispatch i job => exact within_dispatch w i _ job
  | work i => exact within_work w i
  | finish i upload s => exact within_finish w i _ upload s
  | await i =>
    exact within_setTile (f := fun t => { t with worker := t.worker.map Worker.wait })
      (fun _ _ => rfl) _ [] []
  | group mark => exact ⟨rfl, by simp [exec]⟩
  | arrive i r => exact within_arrive w i r
  | poll i => exact within_poll w i
  | item i x => exact within_item w i x
  | arm i => exact within_arm w i _

end Wall

/-! ### Runs -/

namespace Run

theorem one_le_cost (n : Nat) (t : Task) : 1 ≤ t.cost n := by
  cases t <;> simp only [Task.cost] <;> try omega
  next op => have := Task.base_le_cost n op; omega

/-- A step uses cost up as long as something is left to do. -/
theorem cost_next_lt {r : Run} (h : r.isAtRest = false) : r.next.cost < r.cost := by
  unfold next cost
  split
  · next ht =>
    have hl : r.late.length ≠ 0 := by simpa [isAtRest, ht] using h
    have hp := Task.costs_map_const r.wall.tiles.length 1 r.late .poll fun _ => rfl
    simp only [hp, ht, Task.costs_nil, List.length_nil]
    omega
  · next mark rest ht =>
    rw [ht]
    simp only [Task.costs_cons, Task.cost]
    omega
  · next t rest _ ht =>
    have hx := Wall.within_exec r.wall r.events.length t
    have h1 := one_le_cost r.wall.tiles.length t
    have hc := hx.cost_le
    rw [ht]
    simp only [hx.length_eq, Task.costs_append, Task.costs_cons, List.length_append]
    omega

/-- With as many steps as a run costs, nothing is left to do. -/
theorem isAtRest_steps {fuel : Nat} {r : Run} (h : r.cost ≤ fuel) :
    (steps fuel r).isAtRest = true := by
  induction fuel generalizing r with
  | zero =>
    cases hr : r.isAtRest with
    | true => exact hr
    | false =>
      have := cost_next_lt hr
      omega
  | succ fuel ih =>
    unfold steps
    split
    · next hr => exact hr
    · next hr =>
      have := cost_next_lt (Bool.eq_false_iff.mpr hr)
      exact ih (by omega)

end Run

/-- An operation leaves nothing to do. -/
theorem Wall.isAtRest_runOf (w : Wall) (op : Op) : (w.runOf op).isAtRest = true := by
  have h := Wall.within_begin w 0 op
  have hc := h.cost_le
  refine Run.isAtRest_steps ?_
  simp only [Run.cost, h.length_eq]
  omega

end VideoWall
