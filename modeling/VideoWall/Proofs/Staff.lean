import VideoWall.Proofs.Frame

/-! Who works on a wall, and which steps change that.

    Workers come when a frame begins and go when one begins or when the controller goes; nothing
    else touches them but the tasks of the frame. So the steps of an operation are of three kinds.
    A step outside of frames leaves the workers as they are, `Wall.Keeps`, or ends the controller
    and them all, `Wall.Ends`; it leaves no task of a frame behind and offers nothing to an output
    (`Effect.Plain`). A task of a frame changes one worker, and only in what `Worker.Serves` allows.
    And a frame that begins matches the workers with the connected outputs. -/

namespace VideoWall

/-- What an output is offered: its position, the layers, and whether they come with buffers to
    upload. Whether the output takes them does not matter. -/
structure Offer where
  output : Nat
  layers : List TileLayer
  upload : Bool
  deriving DecidableEq

/-- The offer that an event is. -/
def Event.offer? : Event → Option Offer
  | .call i (.present layers upload _) => some ⟨i, layers, upload⟩
  | _ => none

/-- The offers among some events, in order. -/
def Event.offers (es : List Event) : List Offer := es.filterMap Event.offer?

theorem Event.offers_append (es fs : List Event) : offers (es ++ fs) = offers es ++ offers fs :=
  List.filterMap_append

theorem Event.offers_eq_nil {es : List Event} (h : ∀ e ∈ es, e.offer? = none) : offers es = [] :=
  List.filterMap_eq_nil_iff.2 h

/-- Whether a task is part of a frame. -/
def Task.ofFrame : Task → Bool
  | .dispatch .. | .work _ | .finish .. | .await _ | .endFrame | .group _ => true
  | _ => false

namespace Wall

/-- The workers of the tiles, from left to right. -/
def staff (w : Wall) : List (Option Worker) := w.tiles.map (·.worker)

/-- For every tile, whether it has a worker. -/
def staffing (w : Wall) : List Bool := w.staff.map Option.isSome

/-- Whether an operation begins a frame: the wall has to be fully powered. -/
def beginsFrame (w : Wall) : Op → Bool
  | .present .. => w.held && w.controller.any (·.power.isOn)
  | _ => false

/-- From `w` to `v`, the workers and the frames in progress are as they were, and so is the
    controller, but that it may have heard of a hotplug. -/
structure Keeps (w v : Wall) : Prop where
  staff_eq : v.staff = w.staff
  policy_eq : v.policy = w.policy
  presenting_eq : v.presenting = w.presenting
  gone : w.controller = none → v.controller = none
  alive : ∀ c, w.controller = some c →
    ∃ c', v.controller = some c' ∧ (c.stale = true → c'.stale = true)

/-- From `w` to `v`, the controller goes while no frame is in progress, and all workers go
    with it. -/
structure Ends (w v : Wall) : Prop where
  staff_eq : v.staff = w.staff.map fun _ => none
  policy_eq : v.policy = w.policy
  presenting_eq : v.presenting = w.presenting
  presenting_eq_zero : w.presenting = 0
  controller_eq : v.controller = none

variable {w v u : Wall}

theorem Keeps.refl (w : Wall) : w.Keeps w :=
  ⟨rfl, rfl, rfl, id, fun c hc => ⟨c, hc, id⟩⟩

/-- Nothing changes that has to do with frames. -/
theorem keeps_of_eq (hs : v.staff = w.staff) (hp : v.policy = w.policy)
    (hf : v.presenting = w.presenting) (hc : v.controller = w.controller) : w.Keeps v :=
  ⟨hs, hp, hf, hc.trans, fun c h => ⟨c, hc.trans h, id⟩⟩

theorem Keeps.trans (h : w.Keeps v) (h' : v.Keeps u) : w.Keeps u where
  staff_eq := h'.staff_eq.trans h.staff_eq
  policy_eq := h'.policy_eq.trans h.policy_eq
  presenting_eq := h'.presenting_eq.trans h.presenting_eq
  gone := fun hc => h'.gone (h.gone hc)
  alive := by
    intro c hc
    obtain ⟨c', hc', hs⟩ := h.alive c hc
    obtain ⟨c'', hc'', hs'⟩ := h'.alive c' hc'
    exact ⟨c'', hc'', fun hst => hs' (hs hst)⟩

theorem Keeps.ends (h : w.Keeps v) (h' : v.Ends u) : w.Ends u where
  staff_eq := by rw [h'.staff_eq, h.staff_eq]
  policy_eq := h'.policy_eq.trans h.policy_eq
  presenting_eq := h'.presenting_eq.trans h.presenting_eq
  presenting_eq_zero := h.presenting_eq.symm.trans h'.presenting_eq_zero
  controller_eq := h'.controller_eq

/-! ### Elementary changes -/

/-- Another controller that has heard of at least as much. -/
theorem Keeps.setController {c c' : Controller} (h : w.Keeps v) (hc : w.controller = some c)
    (hs : c.stale = true → c'.stale = true) : w.Keeps { v with controller := some c' } where
  staff_eq := h.staff_eq
  policy_eq := h.policy_eq
  presenting_eq := h.presenting_eq
  gone := fun hn => by rw [hc] at hn; cases hn
  alive := by
    intro c₀ hc₀
    obtain rfl := Option.some.inj (hc.symm.trans hc₀)
    exact ⟨c', rfl, hs⟩

/-- Whatever becomes of a tile but for its worker. -/
theorem keeps_setTile (w : Wall) (i : Nat) {f : Tile → Tile} (h : ∀ t, (f t).worker = t.worker) :
    w.Keeps (w.setTile i f) :=
  keeps_of_eq (map_modify_of_eq (g := fun t : Tile => t.worker) fun t _ => h t) rfl rfl rfl

theorem keeps_setOutput (w : Wall) (i : Nat) (f : Output → Output) : w.Keeps (w.setOutput i f) :=
  keeps_setTile w i fun _ => rfl

theorem keeps_setOutputs (w : Wall) (f : Output → Output) : w.Keeps (w.setOutputs f) :=
  keeps_of_eq (by simp [staff, setOutputs, Function.comp_def]) rfl rfl rfl

/-- The controller stays as long as somebody needs it. -/
theorem keeps_or_ends_settle (w : Wall) : w.Keeps w.settle ∨ w.Ends w.settle := by
  rw [settle]
  split
  · exact .inl (.refl w)
  · next h =>
    have h0 : w.presenting = 0 := by
      simp only [Bool.or_eq_true, not_or, Bool.not_eq_true, bne_eq_false_iff_eq] at h
      exact h.2
    refine .inr ⟨?_, rfl, rfl, h0, rfl⟩
    rw [staff, dissolve, staff, List.map_map, List.map_map]
    refine List.map_congr_left fun t _ => ?_
    simp only [Function.comp_apply, Tile.retire]
    split
    · assumption
    · rfl

end Wall

/-! ### Steps outside of frames -/

/-- A step that has nothing to do with frames. -/
structure Effect.Plain (w : Wall) (e : Effect) : Prop where
  wall : w.Keeps e.wall ∨ w.Ends e.wall
  tasks : ∀ t ∈ e.tasks, t.ofFrame = false
  events : ∀ x ∈ e.events, x.offer? = none

namespace Wall

variable {w v : Wall} {e : Effect}

theorem Keeps.plain (h : w.Keeps e.wall) (ht : ∀ t ∈ e.tasks, t.ofFrame = false)
    (he : ∀ x ∈ e.events, x.offer? = none) : e.Plain w := ⟨.inl h, ht, he⟩

/-- A step without tasks and events. -/
theorem Keeps.plain_of_nil (h : w.Keeps e.wall) (ht : e.tasks = []) (he : e.events = []) :
    e.Plain w :=
  h.plain (by rw [ht]; exact List.forall_mem_nil _) (by rw [he]; exact List.forall_mem_nil _)

theorem Keeps.trans_plain (h : w.Keeps v) (he : e.Plain v) : e.Plain w :=
  ⟨he.wall.imp h.trans h.ends, he.tasks, he.events⟩

theorem offer?_of_mem_callAll {call : OutputCall} (h : ∀ i, (Event.call i call).offer? = none)
    {x : Event} (hx : x ∈ w.callAll call) : x.offer? = none := by
  obtain ⟨i, -, rfl⟩ := List.mem_map.1 hx
  exact h i

/-- A call on the controller that does not forget a hotplug. -/
theorem plain_enter {d : Controller → Controller × List Delivery}
    (h : ∀ c, c.stale = true → (d c).1.stale = true) : (w.enter d).Plain w := by
  rcases w.enter_cases d with ⟨-, he⟩ | ⟨c, hc, he⟩ <;> rw [he]
  · exact (Keeps.refl w).plain_of_nil rfl rfl
  · refine Keeps.plain ?_ ?_ (List.forall_mem_nil _)
    · have hw : w.Keeps { w with delivering := w.delivering + 1 } := keeps_of_eq rfl rfl rfl rfl
      exact hw.setController hc (h c)
    · intro t ht
      rcases List.mem_append.1 ht with ht | ht
      · obtain ⟨d, -, rfl⟩ := List.mem_map.1 ht
        rfl
      · rw [List.mem_singleton.1 ht]
        rfl

theorem plain_through (registered : Bool) {d : Controller → Controller × List Delivery}
    (h : ∀ c, c.stale = true → (d c).1.stale = true) :
    (w.through registered d).Plain w := by
  rcases w.through_cases registered d with ⟨-, he⟩ | ⟨-, he⟩ <;> rw [he]
  · exact plain_enter h
  · exact (Keeps.refl w).plain_of_nil rfl rfl

theorem plain_asHolder {f : Controller → Effect}
    (h : ∀ c, w.held = true → w.controller = some c → (f c).Plain w) : (w.asHolder f).Plain w := by
  rcases w.asHolder_cases f with ⟨c, hh, hc, he⟩ | ⟨-, he⟩ <;> rw [he]
  · exact h c hh hc
  · exact (Keeps.refl w).plain_of_nil rfl rfl

theorem plain_settle (h : w.Keeps v) : ({ wall := v.settle } : Effect).Plain w :=
  ⟨v.keeps_or_ends_settle.imp h.trans h.ends, List.forall_mem_nil _, List.forall_mem_nil _⟩

end Wall

namespace Controller

variable (c : Controller)

theorem stale_vblank (t : Int) : (c.vblank t).1.stale = c.stale := by
  rw [vblank]
  split <;> rfl

theorem stale_hotplug (outputs : Nat) (connected : Bool) :
    (c.hotplug outputs connected).1.stale = true := by
  rw [hotplug]
  generalize c.cycle.retarget outputs (c.vsyncEnabled && c.vsyncListener.isSome) = r
  dsimp only
  split <;> rfl

theorem stale_control (enabled : Bool) : (c.control enabled).stale = c.stale := by
  rw [control]
  split <;> rfl

end Controller

namespace Wall

variable {w : Wall}

/-- An operation that does not begin a frame has nothing to do with frames. -/
theorem plain_begin (mark : Nat) {op : Op} (h : w.beginsFrame op = false) :
    (w.begin mark op).Plain w := by
  cases op with
  | setActiveConfig config =>
    refine plain_asHolder fun c _ hc => ?_
    have hk : w.Keeps (w.setActiveConfig c config).wall :=
      (w.keeps_setOutputs (·.setActiveConfig config)).setController hc id
    exact hk.plain (List.forall_mem_nil _) fun x => offer?_of_mem_callAll fun _ => rfl
  | setPowerMode mode =>
    refine plain_asHolder fun c _ hc => ?_
    have hk : w.Keeps (w.setPowerMode c mode).wall :=
      (w.keeps_setOutputs (·.setPowerMode mode)).setController hc id
    exact hk.plain (List.forall_mem_nil _) fun x => offer?_of_mem_callAll fun _ => rfl
  | control enabled =>
    refine plain_asHolder fun c _ hc => ?_
    rw [Wall.control]
    split
    · exact (Keeps.refl w).plain_of_nil rfl rfl
    · have hk : w.Keeps { w.setOutputs (·.control enabled) with
          controller := some (c.control enabled) } :=
        (w.keeps_setOutputs _).setController hc fun h => (c.stale_control enabled).trans h
      exact hk.plain (List.forall_mem_nil _) fun x => offer?_of_mem_callAll fun _ => rfl
  | vsyncUpdate t =>
    exact plain_asHolder fun _ _ _ => plain_enter fun c hc => (c.stale_vblank t).trans hc
  | hotplugUpdate b =>
    exact plain_asHolder fun _ _ _ => plain_enter fun c _ => c.stale_hotplug _ b
  | refreshUpdate => exact plain_asHolder fun _ _ _ => plain_enter fun _ => id
  | listen channel display tag script limit =>
    refine plain_asHolder fun c _ hc => ?_
    have hk : w.Keeps ((w.setOutputs (·.register channel)).addListener ⟨tag, script, limit⟩) :=
      (w.keeps_setOutputs (·.register channel)).trans (keeps_of_eq rfl rfl rfl rfl)
    refine Keeps.plain (hk.setController hc ?_) (List.forall_mem_nil _) ?_
    · cases channel <;> exact id
    · intro x hx
      obtain ⟨i, hi, rfl⟩ := List.mem_mapIdx.1 hx
      rfl
  | present layers upload =>
    refine plain_asHolder fun c hh hc => ?_
    rw [beginsFrame, hh, hc, Bool.true_and, Option.any_some] at h
    rw [Wall.present, h]
    exact (Keeps.refl w).plain_of_nil rfl rfl
  | ask question => exact plain_asHolder fun _ _ _ => (Keeps.refl w).plain_of_nil rfl rfl
  | vblank i t force => exact plain_through _ fun c hc => (c.stale_vblank t).trans hc
  | plug i b =>
    exact (w.keeps_setOutput i _).trans_plain (plain_through _ fun c _ => c.stale_hotplug _ b)
  | requestRefresh i => exact plain_through _ fun _ => id
  | change i change onPresent =>
    have hk := w.keeps_setOutput i (·.change change)
    cases onPresent with
    | none => exact hk.plain_of_nil rfl rfl
    | some script =>
      have hs := (w.setOutput i (·.change change)).keeps_setTile i
        (f := fun t => { t with onPresent := script }) fun _ => rfl
      exact (hk.trans hs).plain_of_nil rfl rfl
  | feed i readings =>
    refine (Keeps.refl w).plain ?_ (List.forall_mem_nil _)
    intro t ht
    obtain ⟨r, -, rfl⟩ := List.mem_map.1 ht
    rfl
  | drop => exact plain_settle (keeps_of_eq rfl rfl rfl rfl)

/-- A listener that is told something has its script run; a loop that reads changes only itself and
    calls the controller. -/
theorem plain_exec (mark : Nat) {t : Task} (ht : t.ofFrame = false)
    (hb : ∀ op, t = .perform op → w.beginsFrame op = false) : (w.exec mark t).Plain w := by
  cases t with
  | perform op =>
    have h := plain_begin mark (hb op rfl)
    refine ⟨h.wall, ?_, h.events⟩
    intro t ht
    rcases List.mem_append.1 ht with ht | ht
    · exact h.tasks t ht
    · rw [List.mem_singleton.1 ht]
      rfl
  | report op reply =>
    refine (Keeps.refl w).plain (List.forall_mem_nil _) fun x hx => ?_
    rw [List.mem_singleton.1 hx]
    rfl
  | deliver d =>
    rw [exec]
    rcases w.deliver_cases d with ⟨he, -⟩ | ⟨l, -, ⟨-, he⟩ | ⟨left, -, he⟩⟩ <;> rw [he]
    · exact (Keeps.refl w).plain_of_nil rfl rfl
    · exact (Keeps.refl w).plain (List.forall_mem_nil _) (List.forall_mem_singleton.2 rfl)
    · refine Keeps.plain (keeps_of_eq rfl rfl rfl rfl) ?_ (List.forall_mem_singleton.2 rfl)
      exact List.forall_mem_map.2 fun _ _ => rfl
  | leave => exact plain_settle (keeps_of_eq rfl rfl rfl rfl)
  | arrive i r =>
    have hk := w.keeps_setOutput i (·.mapLoop (·.enqueue r))
    rw [exec]
    rcases w.arrive_cases i r with ⟨he, -⟩ | he <;> rw [he]
    · exact Keeps.plain_of_nil hk rfl rfl
    · exact Keeps.plain hk (List.forall_mem_singleton.2 rfl) (List.forall_mem_nil _)
  | poll i =>
    rw [exec]
    rcases w.poll_cases i with ⟨he, -⟩ | ⟨l, r, m, -, -, he⟩ <;> rw [he]
    · exact (Keeps.refl w).plain_of_nil rfl rfl
    · exact Keeps.plain (w.keeps_setOutput i (·.mapLoop fun _ => m))
        (Task.forall_iteration (P := fun t => t.ofFrame = false) (fun _ => rfl) rfl rfl r.items)
        (List.forall_mem_nil _)
  | item i x =>
    rw [exec]
    rcases w.item_cases i x with ⟨log, he, -⟩ | ⟨l, f, log, -, -, ⟨-, he⟩ | ⟨call, -, he⟩⟩ <;>
      rw [he]
    · exact (Keeps.refl w).plain_of_nil rfl rfl
    · exact (w.keeps_setOutput i (·.mapLoop fun _ => (l.flip f).1)).plain_of_nil rfl rfl
    · have hk := w.keeps_setOutput i (·.mapLoop fun _ => (l.flip f).1)
      have hp := hk.trans_plain (plain_enter (d := (·.vblank call.time))
        fun c hc => (c.stale_vblank call.time).trans hc)
      exact ⟨hp.wall, hp.tasks, hp.events⟩
  | arm i =>
    rw [exec]
    rcases w.arm_cases i with ⟨he, -⟩ | ⟨l, -, he⟩ <;> rw [he]
    · exact (Keeps.refl w).plain_of_nil rfl rfl
    · exact Keeps.plain_of_nil (w.keeps_setOutput i (·.mapLoop fun _ => l.arm.1)) rfl rfl
  | dispatch | work | finish | await | endFrame | group => cases ht

end Wall

/-! ### Tasks of a frame -/

/-- The tile that a task of a frame is about. -/
def Task.tile? : Task → Option Nat
  | .dispatch i _ | .work i | .finish i _ _ | .await i => some i
  | _ => none

/-- How many jobs wait at a tile after a task, when `n` did before. -/
def Task.load (i n : Nat) : Task → Nat
  | .dispatch j _ => if j = i then n + 1 else n
  | .work j => if j = i then n - 1 else n
  | _ => n

/-- Whether a task neither brings a job nor handles one nor ends a frame. -/
def Task.isLight : Task → Bool
  | .dispatch .. | .work _ | .endFrame => false
  | _ => true

theorem Task.isLight_of_ofFrame {t : Task} (h : t.ofFrame = false) : t.isLight = true := by
  cases t <;> first | rfl | cases h

/-- From `k` to `k'`, a worker keeps going, and at most `limit` jobs wait for it. -/
structure Worker.Serves (limit : Nat) (k k' : Worker) : Prop where
  exited_eq : k'.exited = k.exited
  queue_le : k'.queue.length ≤ limit

/-- Composing a job changes nothing about the worker but the layers that it keeps. -/
theorem Worker.compose_fst (k : Worker) (o : Output) (job : Job) :
    (k.compose o job).1 = { k with retained := job.window.assign job.layers } := by
  rw [compose]
  dsimp only
  split
  · rfl
  · split <;> rfl

theorem Worker.take?_eq_some {k k' : Worker} {job : Job} (h : k.take? = some (job, k')) :
    k.queue = job :: k'.queue ∧ k' = { k with queue := k'.queue } := by
  rw [take?] at h
  split at h
  · cases h
  · next hq =>
    cases h
    exact ⟨hq, rfl⟩

/-- A worker that takes a job has one less. -/
theorem Worker.serves_compose {k k' : Worker} {job : Job} (h : k.take? = some (job, k'))
    (o : Output) : k.Serves (k.queue.length - 1) (k'.compose o job).1 := by
  obtain ⟨hq, hk⟩ := Worker.take?_eq_some h
  rw [k'.compose_fst, hk, hq]
  exact ⟨rfl, Nat.le_refl _⟩

/-- Ending a job leaves the jobs behind it. -/
theorem Tile.serves_finish (t : Tile) (s : Submission) :
    Option.Rel (fun k k' => k.Serves k.queue.length k') t.worker (t.finish s).worker := by
  obtain ⟨o, k, script⟩ := t
  cases k with
  | none => cases s <;> exact .none
  | some k => cases s <;> exact .some ⟨rfl, Nat.le_refl _⟩

namespace Wall

variable {w : Wall}

/-- From `w` to `v`, one tile changes: its output stays as connected as it was, and its worker, if
    it has one, serves on. -/
structure Serves (t : Task) (i : Nat) (w v : Wall) : Prop where
  change : ∃ f n, v = { w.setTile i f with uploads := n } ∧
    ∀ tile, w.tiles[i]? = some tile → (f tile).output.connected = tile.output.connected ∧
      Option.Rel (fun k k' => k.Serves (t.load i k.queue.length) k') tile.worker (f tile).worker

/-- Nothing happens, which a task allows that brings a job or finds none. -/
theorem serves_self {t : Task} {i : Nat} (h : ∀ tile, w.tiles[i]? = some tile →
    ∀ k, tile.worker = some k → k.queue.length ≤ t.load i k.queue.length) : Serves t i w w := by
  refine ⟨id, w.uploads, ?_, fun tile ht => ⟨rfl, ?_⟩⟩
  · rw [setTile, List.modify_id]
  · cases hk : tile.worker with
    | none => simp only [id, hk]; exact .none
    | some k => simp only [id, hk]; exact .some ⟨rfl, h tile ht k hk⟩

theorem serves_dispatch (i : Nat) (job : Job) :
    Serves (.dispatch i job) i w (w.dispatch i job).wall ∧ (w.dispatch i job).tasks = [] := by
  have hself : Serves (.dispatch i job) i w w := serves_self fun _ _ k _ => by
    rw [Task.load, if_pos rfl]
    exact Nat.le_succ _
  rcases w.dispatch_cases i job with ⟨log, he, -⟩ | ⟨k, hk, -, he⟩ <;> rw [he]
  · exact ⟨hself, rfl⟩
  · refine ⟨⟨fun t => { t with worker := some { k with queue := k.queue ++ [job] } }, _, rfl,
      fun tile ht => ⟨rfl, ?_⟩⟩, rfl⟩
    rw [ht, Option.bind_some] at hk
    rw [hk]
    exact .some ⟨rfl, by simp [Task.load]⟩

theorem serves_work (i : Nat) :
    Serves (.work i) i w (w.work i).wall ∧ ∀ t ∈ (w.work i).tasks, t.isLight = true := by
  rcases w.work_cases i with ⟨he, hnone⟩ | ⟨tile, k, job, k', h, hw, htake, script, _, _, he, -⟩ <;>
    rw [he]
  · refine ⟨serves_self fun t ht k hw => ?_, List.forall_mem_nil _⟩
    rw [nextJob?, ht, Option.bind_some, hw, Option.bind_some, Option.map_eq_none_iff,
      Worker.take?] at hnone
    split at hnone
    · next hq =>
      rw [hq]
      exact Nat.zero_le _
    · cases hnone
  · refine ⟨⟨_, _, rfl, fun t ht => ?_⟩, ?_⟩
    · obtain rfl := Option.some.inj (h.symm.trans ht)
      refine ⟨k'.connected_compose tile.output job, ?_⟩
      rw [hw]
      refine .some ?_
      rw [Task.load, if_pos rfl]
      exact Worker.serves_compose htake tile.output
    · intro t ht
      simp only [List.mem_append, List.mem_map, List.mem_singleton] at ht
      rcases ht with ⟨op, -, rfl⟩ | rfl <;> rfl

/-- A task of a frame changes one worker, and what it leaves behind brings no other job. -/
theorem serves_exec (mark : Nat) {t : Task} {i : Nat} (ht : t.tile? = some i) :
    Serves t i w (w.exec mark t).wall ∧ ∀ t' ∈ (w.exec mark t).tasks, t'.isLight = true := by
  cases t with
  | dispatch j job =>
    obtain rfl : j = i := Option.some.inj ht
    obtain ⟨hs, hn⟩ := w.serves_dispatch j job
    refine ⟨hs, ?_⟩
    rw [show (w.exec mark (.dispatch j job)).tasks = [] from hn]
    exact List.forall_mem_nil _
  | work j =>
    obtain rfl : j = i := Option.some.inj ht
    exact w.serves_work j
  | finish j upload s =>
    obtain rfl : j = i := Option.some.inj ht
    exact ⟨⟨(·.finish s), _, rfl, fun tile _ => ⟨tile.connected_finish s, tile.serves_finish s⟩⟩,
      List.forall_mem_nil _⟩
  | await j =>
    obtain rfl : j = i := Option.some.inj ht
    refine ⟨⟨fun t => { t with worker := t.worker.map Worker.wait }, _, rfl,
      fun tile _ => ⟨rfl, ?_⟩⟩, List.forall_mem_nil _⟩
    dsimp only
    cases tile.worker with
    | none => exact .none
    | some k => exact .some ⟨rfl, Nat.le_refl _⟩
  | _ => cases ht

/-! ### Frames -/

theorem exists_of_beginsFrame {op : Op} (h : w.beginsFrame op = true) :
    ∃ layers upload c, op = .present layers upload ∧ w.held = true ∧ w.controller = some c ∧
      c.power.isOn = true := by
  cases op with
  | present layers upload =>
    rw [beginsFrame, Bool.and_eq_true, Option.any_eq_true] at h
    obtain ⟨hh, c, hc, hp⟩ := h
    exact ⟨layers, upload, c, rfl, hh, hc, hp⟩
  | _ => cases h

/-- Each task of a schedule is about the tile of a job. -/
theorem exists_job_of_mem_schedule {p : Pipeline} {jobs : List (Nat × Job)} {t : Task}
    (h : t ∈ schedule p jobs) : ∃ j ∈ jobs, t.tile? = some j.1 := by
  cases p with
  | sequential =>
    obtain ⟨j, hmem, hj⟩ := List.mem_flatMap.1 h
    simp only [List.mem_cons, List.not_mem_nil, or_false] at hj
    rcases hj with rfl | rfl | rfl <;> exact ⟨j, hmem, rfl⟩
  | barrier =>
    simp only [schedule, List.mem_append, List.mem_map] at h
    rcases h with (⟨j, hmem, rfl⟩ | ⟨j, hmem, rfl⟩) | ⟨j, hmem, rfl⟩ <;> exact ⟨j, hmem, rfl⟩

theorem exists_tile_of_mem_schedule {p : Pipeline} {jobs : List (Nat × Job)} {t : Task}
    (h : t ∈ schedule p jobs) : ∃ i, t.tile? = some i := by
  obtain ⟨j, -, hj⟩ := exists_job_of_mem_schedule h
  exact ⟨j.1, hj⟩

/-- A frame that begins: workers come and go with the connected outputs if a hotplug has come in,
    and the tasks of the frame are left behind. -/
theorem begin_present {c : Controller} (hh : w.held = true) (hc : w.controller = some c)
    (hp : c.power.isOn = true) (layers : List Layer) (upload : Bool) (mark : Nat) :
    w.begin mark (.present layers upload) =
      { wall := { w.reconcile c with presenting := w.presenting + 1 }
        tasks := schedule w.policy.pipeline ((w.reconcile c).jobs layers upload) ++
          (match w.policy.pipeline with
            | .sequential => []
            | .barrier => [.group mark]) ++ [.endFrame]
        reply := .presented } := by
  have hr : (w.reconcile c).policy = w.policy ∧ (w.reconcile c).presenting = w.presenting := by
    rw [reconcile]
    split <;> exact ⟨rfl, rfl⟩
  rw [begin, asHolder, hh, hc]
  dsimp only
  rw [Wall.present, if_pos hp]
  dsimp only
  cases hpipe : w.policy.pipeline <;> simp only [hr.1, hr.2, hpipe]

/-- The workers are those of the connected outputs. -/
def Matched (w : Wall) : Prop := w.staffing = w.plugged

theorem reconcile_of_not_stale {c : Controller} (h : c.stale = false) : w.reconcile c = w := by
  rw [reconcile, h]
  rfl

theorem tiles_reconcile {c : Controller} (h : c.stale = true) :
    (w.reconcile c).tiles = w.tiles.mapIdx fun i t => t.reconcile i := by
  rw [reconcile, if_pos h]

/-- The controller goes on, and has nothing more to hear. -/
theorem controller_reconcile {c : Controller} (hc : w.controller = some c) :
    ∃ c', (w.reconcile c).controller = some c' ∧ c'.stale = false := by
  cases h : c.stale with
  | true => exact ⟨_, by rw [reconcile, if_pos h], rfl⟩
  | false => exact ⟨c, by rw [reconcile_of_not_stale h, hc], h⟩

theorem isSome_worker_reconcile (t : Tile) (i : Nat) :
    (t.reconcile i).worker.isSome = t.output.connected := by
  rw [Tile.reconcile]
  cases hc : t.output.connected with
  | true => rfl
  | false =>
    rw [if_neg Bool.false_ne_true, Tile.retire]
    split
    · next h => rw [h]; rfl
    · rfl

theorem staffing_eq_map (w : Wall) : w.staffing = w.tiles.map (·.worker.isSome) := by
  rw [staffing, staff, List.map_map]
  rfl

/-- Matching the workers with the outputs changes no connection, and matches them. -/
theorem matched_reconcile {c : Controller} (h : c.stale = true) :
    (w.reconcile c).staffing = w.plugged := by
  rw [staffing_eq_map, tiles_reconcile h, plugged]
  refine List.ext_getElem? fun i => ?_
  rw [List.getElem?_map, List.getElem?_mapIdx, List.getElem?_map]
  cases w.tiles[i]? with
  | none => rfl
  | some t => exact congrArg some (isSome_worker_reconcile t i)

theorem plugged_reconcile (w : Wall) (c : Controller) : (w.reconcile c).plugged = w.plugged := by
  rw [reconcile]
  split
  · exact w.plugged_mapIdx_reconcile
  · rfl

end Wall

end VideoWall
