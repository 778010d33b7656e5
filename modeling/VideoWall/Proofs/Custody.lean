import VideoWall.Proofs.Reentry
import VideoWall.Proofs.Staff

/-! Which steps touch what workers hold.

    A worker holds the layers of its last job and the fence of its last frame. Only three kinds of
    steps have to do with that: a worker composes a job or ends one, a frame begins and matches the
    workers with the outputs, and the controller goes with all of them. Every other step minds its
    own business: `Wall.minds_exec`. The controller goes once nobody needs it any more, and not
    before: `Wall.Needed`. -/

namespace VideoWall

/-! ### What is held -/

/-- What has to do with a tile's fences and layers: the fences of its output that somebody holds,
    and what its worker holds. -/
def Tile.holdings (t : Tile) : List Fence × Option (Option Fence × List TileLayer) :=
  (t.output.live, t.worker.map fun k => (k.fence, k.retained))

/-- The holdings, tile by tile. -/
def Wall.holdings (w : Wall) : List (List Fence × Option (Option Fence × List TileLayer)) :=
  w.tiles.map Tile.holdings

/-- The fence that a task brings to a tile: that of a frame that is shown, and not ended yet. -/
def Task.fence? (i : Nat) : Task → Option Fence
  | .finish j _ (.shown fence) => if j = i then fence else none
  | _ => none

/-- The fences that some tasks bring to a tile. -/
def Task.fences (i : Nat) (ts : List Task) : List Fence := ts.filterMap (Task.fence? i)

@[simp] theorem Task.fences_append (i : Nat) (ts us : List Task) :
    fences i (ts ++ us) = fences i ts ++ fences i us := List.filterMap_append

theorem Task.fences_cons (i : Nat) (t : Task) (ts : List Task) :
    fences i (t :: ts) = (t.fence? i).toList ++ fences i ts := by
  rw [fences, List.filterMap_cons]
  cases t.fence? i <;> rfl

/-- Whether a task neither ends a call nor a job. -/
def Task.isAside : Task → Bool
  | .leave | .finish .. => false
  | _ => true

theorem Task.fences_of_aside {ts : List Task} (h : ∀ t ∈ ts, t.isAside = true) (i : Nat) :
    fences i ts = [] := by
  refine List.filterMap_eq_nil_iff.2 fun t ht => ?_
  have ha := h t ht
  cases t <;> first | rfl | cases ha

theorem Task.countP_isLeave_of_aside {ts : List Task} (h : ∀ t ∈ ts, t.isAside = true) :
    ts.countP isLeave = 0 := by
  refine List.countP_eq_zero.2 fun t ht => ?_
  have ha := h t ht
  cases t <;> first | exact Bool.false_ne_true | cases ha

/-- What a script leaves to do. -/
theorem Task.isAside_map_perform (script : List Op) :
    ∀ t ∈ script.map perform, t.isAside = true := List.forall_mem_map.2 fun _ _ => rfl

/-- A tile that has no worker gets none. -/
theorem Tile.worker_finish_of_none {t : Tile} (h : t.worker = none) (s : Submission) :
    (t.finish s).worker = none := by
  obtain ⟨o, _, script⟩ := t
  subst h
  cases s <;> rfl

/-- The tasks of a frame, as it is laid out. -/
theorem Task.isAside_of_mem_schedule {p : Pipeline} {jobs : List (Nat × Job)} {t : Task}
    (h : t ∈ Wall.schedule p jobs) : t.isAside = true := by
  cases p with
  | sequential =>
    obtain ⟨j, -, hj⟩ := List.mem_flatMap.1 h
    simp only [List.mem_cons, List.not_mem_nil, or_false] at hj
    rcases hj with rfl | rfl | rfl <;> rfl
  | barrier =>
    simp only [Wall.schedule, List.mem_append, List.mem_map] at h
    rcases h with (⟨j, -, rfl⟩ | ⟨j, -, rfl⟩) | ⟨j, -, rfl⟩ <;> rfl

/-! ### Steps that touch nothing -/

/-- From `w` to `v`, all holdings stay, and so does whoever needs the controller. -/
structure Wall.Minds (w v : Wall) : Prop where
  holdings_eq : v.holdings = w.holdings
  gone_iff : v.controller = none ↔ w.controller = none
  held_eq : v.held = w.held
  presenting_eq : v.presenting = w.presenting
  delivering_eq : v.delivering = w.delivering

/-- A step that touches nothing; each call that it begins is left to be ended. -/
structure Effect.Minds (w : Wall) (e : Effect) : Prop where
  holdings_eq : e.wall.holdings = w.holdings
  gone_iff : e.wall.controller = none ↔ w.controller = none
  held_eq : e.wall.held = w.held
  presenting_eq : e.wall.presenting = w.presenting
  delivering_eq : e.wall.delivering = w.delivering + e.tasks.countP Task.isLeave
  fences_eq : ∀ i, Task.fences i e.tasks = []

namespace Wall

variable {w v u : Wall} {e : Effect}

theorem minds_of_eq (hh : v.holdings = w.holdings) (hc : v.controller = w.controller)
    (hheld : v.held = w.held) (hp : v.presenting = w.presenting)
    (hd : v.delivering = w.delivering) : w.Minds v := ⟨hh, by rw [hc], hheld, hp, hd⟩

theorem Minds.refl (w : Wall) : w.Minds w := minds_of_eq rfl rfl rfl rfl rfl

theorem Minds.trans (h : w.Minds v) (h' : v.Minds u) : w.Minds u :=
  ⟨h'.holdings_eq.trans h.holdings_eq, h'.gone_iff.trans h.gone_iff,
    h'.held_eq.trans h.held_eq, h'.presenting_eq.trans h.presenting_eq,
    h'.delivering_eq.trans h.delivering_eq⟩

theorem Minds.setController {c c' : Controller} (h : w.Minds v) (hc : w.controller = some c) :
    w.Minds { v with controller := some c' } :=
  ⟨h.holdings_eq, by simp [hc], h.held_eq, h.presenting_eq, h.delivering_eq⟩

/-- Whatever becomes of a tile but for its holdings. -/
theorem minds_setTile (w : Wall) (i : Nat) {f : Tile → Tile}
    (h : ∀ t, w.tiles[i]? = some t → (f t).holdings = t.holdings) : w.Minds (w.setTile i f) :=
  minds_of_eq (map_modify_of_eq h) rfl rfl rfl rfl

theorem minds_setOutput (w : Wall) (i : Nat) {f : Output → Output} (h : ∀ o, (f o).live = o.live) :
    w.Minds (w.setOutput i f) :=
  w.minds_setTile i fun t _ => by rw [Tile.holdings, h]; rfl

theorem minds_setOutputs (w : Wall) {f : Output → Output} (h : ∀ o, (f o).live = o.live) :
    w.Minds (w.setOutputs f) :=
  minds_of_eq (by simp [holdings, setOutputs, Tile.holdings, h]) rfl rfl rfl rfl

theorem minds_deliver (w : Wall) (d : Delivery) : w.Minds (w.deliver d).wall := by
  obtain ⟨ls, hw⟩ := w.exists_wall_deliver d
  rw [hw]
  exact minds_of_eq rfl rfl rfl rfl rfl

/-- A step that ends nothing and begins no call. -/
theorem Minds.aside (h : w.Minds e.wall) (ht : ∀ t ∈ e.tasks, t.isAside = true) : e.Minds w where
  holdings_eq := h.holdings_eq
  gone_iff := h.gone_iff
  held_eq := h.held_eq
  presenting_eq := h.presenting_eq
  delivering_eq := by rw [h.delivering_eq, Task.countP_isLeave_of_aside ht, Nat.add_zero]
  fences_eq := Task.fences_of_aside ht

theorem Minds.aside_of_nil (h : w.Minds e.wall) (ht : e.tasks = []) : e.Minds w :=
  h.aside (by rw [ht]; exact List.forall_mem_nil _)

theorem minds_self (w : Wall) (r : Reply) : ({ wall := w, reply := r } : Effect).Minds w :=
  (Minds.refl w).aside_of_nil rfl

theorem Minds.trans_effect (h : w.Minds v) (he : e.Minds v) : e.Minds w :=
  ⟨he.holdings_eq.trans h.holdings_eq, he.gone_iff.trans h.gone_iff,
    he.held_eq.trans h.held_eq, he.presenting_eq.trans h.presenting_eq,
    h.delivering_eq ▸ he.delivering_eq, he.fences_eq⟩

/-- A call on the controller: it is left to be ended. -/
theorem minds_enter (w : Wall) (decide : Controller → Controller × List Delivery) :
    (w.enter decide).Minds w := by
  rcases w.enter_cases decide with ⟨-, he⟩ | ⟨c, hc, he⟩ <;> rw [he]
  · exact w.minds_self .ok
  · have haside : ∀ t ∈ (decide c).2.map Task.deliver, t.isAside = true :=
      List.forall_mem_map.2 fun _ _ => rfl
    refine ⟨rfl, by simp [hc], rfl, rfl, ?_, fun i => ?_⟩
    · rw [List.countP_append, Task.countP_isLeave_of_aside haside]
      rfl
    · rw [Task.fences_append, Task.fences_of_aside haside]
      rfl

theorem minds_through (w : Wall) (registered : Bool)
    (decide : Controller → Controller × List Delivery) : (w.through registered decide).Minds w := by
  rcases w.through_cases registered decide with ⟨-, he⟩ | ⟨-, he⟩ <;> rw [he]
  · exact w.minds_enter decide
  · exact w.minds_self .ok

theorem minds_asHolder {f : Controller → Effect}
    (h : ∀ c, w.held = true → w.controller = some c → (f c).Minds w) : (w.asHolder f).Minds w := by
  rcases w.asHolder_cases f with ⟨c, hh, hc, he⟩ | ⟨-, he⟩ <;> rw [he]
  · exact h c hh hc
  · exact w.minds_self .dropped

/-- A call that reaches all outputs. -/
theorem minds_callAll {c c' : Controller} (hc : w.controller = some c) {f : Output → Output}
    (h : ∀ o, (f o).live = o.live) (call : OutputCall) (late : List Nat) :
    ({ wall := { w.setOutputs f with controller := some c' }, events := w.callAll call, late } :
      Effect).Minds w :=
  ((w.minds_setOutputs h).setController hc).aside (List.forall_mem_nil _)

/-- An operation that neither begins a frame nor gives the controller up. -/
theorem minds_begin (mark : Nat) {op : Op} (hb : w.beginsFrame op = false) (hd : op ≠ .drop) :
    (w.begin mark op).Minds w := by
  cases op with
  | setActiveConfig config =>
    refine minds_asHolder fun c _ hc => minds_callAll hc (fun o => ?_) _ _
    rw [Output.setActiveConfig]
    split <;> rfl
  | setPowerMode mode =>
    exact minds_asHolder fun c _ hc =>
      minds_callAll hc (f := (·.setPowerMode mode)) (fun _ => rfl) _ _
  | control enabled =>
    refine minds_asHolder fun c _ hc => ?_
    rw [Wall.control]
    split
    · exact w.minds_self .ok
    · exact minds_callAll hc (f := (·.control enabled)) (fun _ => rfl) _ _
  | vsyncUpdate time => exact minds_asHolder fun _ _ _ => w.minds_enter _
  | hotplugUpdate connected => exact minds_asHolder fun _ _ _ => w.minds_enter _
  | refreshUpdate => exact minds_asHolder fun _ _ _ => w.minds_enter _
  | listen channel display tag script limit =>
    refine minds_asHolder fun c _ hc => ?_
    have hr : ∀ o : Output, (o.register channel).live = o.live := by
      intro o
      cases channel <;> rfl
    have hk : w.Minds ((w.setOutputs (·.register channel)).addListener ⟨tag, script, limit⟩) :=
      (w.minds_setOutputs hr).trans (minds_of_eq rfl rfl rfl rfl rfl)
    exact (hk.setController hc).aside (List.forall_mem_nil _)
  | present layers upload =>
    refine minds_asHolder fun c hh hc => ?_
    rw [beginsFrame, hh, hc, Bool.true_and, Option.any_some] at hb
    rw [Wall.present, hb]
    exact w.minds_self .presented
  | ask question => exact minds_asHolder fun _ _ _ => w.minds_self _
  | vblank i time force => exact w.minds_through _ _
  | plug i connected =>
    exact (w.minds_setOutput i (f := fun o => { o with connected }) fun _ => rfl).trans_effect
      (minds_through ..)
  | requestRefresh i => exact w.minds_through _ _
  | change i change onPresent =>
    have hk := w.minds_setOutput i (f := (·.change change)) fun _ => rfl
    cases onPresent with
    | none => exact hk.aside_of_nil rfl
    | some script =>
      have hs := (w.setOutput i (·.change change)).minds_setTile i
        (f := fun t => { t with onPresent := script }) fun _ _ => rfl
      exact (hk.trans hs).aside_of_nil rfl
  | feed i readings =>
    exact (Minds.refl w).aside (List.forall_mem_map.2 fun _ _ => rfl)
  | drop => exact absurd rfl hd

/-- Whether a task touches what is held: it begins a frame, handles a job, or lets the controller go
    if nobody needs it any more. -/
def touches (w : Wall) : Task → Bool
  | .perform .drop => true
  | .perform op => w.beginsFrame op
  | .leave | .endFrame | .work _ | .finish .. => true
  | _ => false

theorem minds_dispatch (w : Wall) (i : Nat) (job : Job) : (w.dispatch i job).Minds w := by
  rcases w.dispatch_cases i job with ⟨log, he, -⟩ | ⟨k, hk, -, he⟩ <;> rw [he]
  · exact (Minds.refl w).aside_of_nil rfl
  · obtain ⟨t, ht, hw⟩ := Option.bind_eq_some_iff.1 hk
    refine Minds.aside_of_nil (w.minds_setTile i fun u hu => ?_) rfl
    rw [← Option.some.inj (ht.symm.trans hu), Tile.holdings, Tile.holdings, hw]
    rfl

theorem minds_item (w : Wall) (i : Nat) (x : Vblank.Item) : (w.item i x).Minds w := by
  rcases w.item_cases i x with ⟨log, he, -⟩ | ⟨l, f, log, -, -, ⟨-, he⟩ | ⟨call, -, he⟩⟩ <;> rw [he]
  · exact (Minds.refl w).aside_of_nil rfl
  · have hk := w.minds_setOutput i (f := (·.mapLoop fun _ => (l.flip f).1)) fun _ => rfl
    exact hk.aside_of_nil rfl
  · have hk := w.minds_setOutput i (f := (·.mapLoop fun _ => (l.flip f).1)) fun _ => rfl
    have hv := hk.trans_effect (minds_enter _ (·.vblank call.time))
    exact ⟨hv.holdings_eq, hv.gone_iff, hv.held_eq, hv.presenting_eq, hv.delivering_eq,
      hv.fences_eq⟩

/-- Every other task minds its own business. -/
theorem minds_exec (mark : Nat) {t : Task} (h : w.touches t = false) :
    (w.exec mark t).Minds w := by
  cases t with
  | perform op =>
    have hop : w.beginsFrame op = false ∧ op ≠ .drop := by
      cases op <;> first | exact ⟨h, by simp⟩ | cases h
    have hb := minds_begin mark hop.1 hop.2
    refine ⟨hb.holdings_eq, hb.gone_iff, hb.held_eq, hb.presenting_eq, ?_, fun i => ?_⟩
    · rw [show (w.exec mark (.perform op)).tasks = (w.begin mark op).tasks ++ [.report op _] from
        rfl, List.countP_append]
      exact hb.delivering_eq
    · rw [show (w.exec mark (.perform op)).tasks = (w.begin mark op).tasks ++ [.report op _] from
        rfl, Task.fences_append, hb.fences_eq]
      rfl
  | report op reply => exact (Minds.refl w).aside_of_nil rfl
  | deliver d =>
    refine (w.minds_deliver d).aside fun t ht => ?_
    have hmem : t ∈ (w.deliver d).tasks := ht
    rw [tasks_deliver] at hmem
    exact Task.isAside_map_perform _ t hmem
  | dispatch i job => exact w.minds_dispatch i job
  | await i =>
    refine Minds.aside_of_nil (w.minds_setTile i fun t _ => ?_) rfl
    rw [Tile.holdings, Tile.holdings, Option.map_map]
    rfl
  | group m => exact w.minds_self .ok
  | arrive i r =>
    have hk := w.minds_setOutput i (f := (·.mapLoop (·.enqueue r))) fun _ => rfl
    rw [exec]
    rcases w.arrive_cases i r with ⟨he, -⟩ | he <;> rw [he]
    · exact hk.aside_of_nil rfl
    · exact hk.aside (List.forall_mem_singleton.2 rfl)
  | poll i =>
    rw [exec]
    rcases w.poll_cases i with ⟨he, -⟩ | ⟨l, r, m, -, -, he⟩ <;> rw [he]
    · exact w.minds_self .ok
    · have hk := w.minds_setOutput i (f := (·.mapLoop fun _ => m)) fun _ => rfl
      exact hk.aside (Task.forall_iteration (P := fun t => t.isAside = true) (fun _ => rfl) rfl rfl
        r.items)
  | item i x => exact w.minds_item i x
  | arm i =>
    rw [exec]
    rcases w.arm_cases i with ⟨he, -⟩ | ⟨l, -, he⟩ <;> rw [he]
    · exact w.minds_self .ok
    · exact (w.minds_setOutput i (f := (·.mapLoop fun _ => l.arm.1)) fun _ => rfl).aside_of_nil rfl
  | leave | endFrame | work | finish => cases h

/-! ### Who needs the controller -/

/-- Either somebody still needs the controller, or it goes with all workers. -/
theorem settle_cases (w : Wall) :
    w.settle = w ∧ (w.held = false → w.delivering ≠ 0 ∨ w.presenting ≠ 0) ∨
      w.settle = w.dissolve := by
  rw [settle]
  split
  · next h =>
    refine .inl ⟨rfl, fun hh => ?_⟩
    simpa [hh] using h
  · exact .inr rfl

/-- Each call in progress is left to be ended; a controller that is there is held, or there is such
    a call, or a frame in progress; and without a controller nobody works. -/
structure Needed (w : Wall) (ts : List Task) : Prop where
  delivering_eq : w.delivering = ts.countP Task.isLeave
  needed : w.held = false → w.controller = none ∨ w.delivering ≠ 0 ∨ w.presenting ≠ 0
  gone : w.controller = none → ∀ t ∈ w.tiles, t.worker = none

variable {t : Task} {ts : List Task}

/-- The end of a call, of a frame, or of the host's interest. -/
theorem needed_settle (hd : w.delivering = ts.countP Task.isLeave)
    (hg : w.controller = none → ∀ t ∈ w.tiles, t.worker = none) : w.settle.Needed ts := by
  rcases w.settle_cases with ⟨hs, hn⟩ | hs
  · rw [hs]
    exact ⟨hd, fun hh => .inr (hn hh), hg⟩
  · rw [hs]
    refine ⟨hd, fun _ => .inl rfl, fun _ t ht => ?_⟩
    obtain ⟨u, -, rfl⟩ := List.mem_map.1 ht
    rw [Tile.retire]
    split
    · assumption
    · rfl

theorem worker_eq_none_of_holdings (h : v.holdings = w.holdings)
    (hw : ∀ t ∈ w.tiles, t.worker = none) : ∀ t ∈ v.tiles, t.worker = none := by
  intro t ht
  have hmem : t.holdings ∈ w.holdings := h ▸ List.mem_map_of_mem ht
  obtain ⟨u, hu, heq⟩ := List.mem_map.1 hmem
  have hsnd := congrArg Prod.snd heq
  rw [Tile.holdings, hw u hu] at hsnd
  exact Option.map_eq_none_iff.1 hsnd.symm

/-- A tile changes that has no worker unless it had one. -/
theorem worker_eq_none_setTile {i : Nat} {f : Tile → Tile}
    (hf : ∀ t, w.tiles[i]? = some t → t.worker = none → (f t).worker = none)
    (hw : ∀ t ∈ w.tiles, t.worker = none) : ∀ t ∈ (w.setTile i f).tiles, t.worker = none := by
  intro t ht
  obtain ⟨u, hu, rfl | ⟨hi, rfl⟩⟩ := exists_of_mem_setTile ht
  · exact hw t hu
  · exact hf u hi (hw u hu)

/-- What a frame that begins leaves to do. -/
theorem isAside_of_mem_present {c : Controller} (hh : w.held = true) (hc : w.controller = some c)
    (hp : c.power.isOn = true) (layers : List Layer) (upload : Bool) (mark : Nat)
    (ht : t ∈ (w.begin mark (.present layers upload)).tasks) : t.isAside = true := by
  rw [begin_present hh hc hp] at ht
  rcases List.mem_append.1 ht with ht | ht
  · rcases List.mem_append.1 ht with ht | ht
    · exact Task.isAside_of_mem_schedule ht
    · split at ht
      · cases ht
      · rw [List.mem_singleton.1 ht]
        rfl
  · rw [List.mem_singleton.1 ht]
    rfl

/-- A task that ends no call, and after which whoever needed the controller still does. -/
theorem Needed.keep {us : List Task} (h : w.Needed (t :: ts)) (hl : t.isLeave = false)
    (hd : v.delivering = w.delivering + us.countP Task.isLeave) (hheld : v.held = w.held)
    (hp : w.presenting ≤ v.presenting) (hc : w.controller = none → v.controller = none)
    (hg : v.controller = none → ∀ t ∈ v.tiles, t.worker = none) : v.Needed (us ++ ts) := by
  have hcount := h.delivering_eq
  rw [List.countP_cons, hl, if_neg Bool.false_ne_true, Nat.add_zero] at hcount
  refine ⟨?_, fun hh => ?_, hg⟩
  · rw [List.countP_append, hd, hcount, Nat.add_comm]
  · rcases h.needed (hheld ▸ hh) with hn | hn | hn
    · exact .inl (hc hn)
    · exact .inr (.inl (by omega))
    · exact .inr (.inr (by omega))

/-- Whatever the next task is. -/
theorem Needed.exec (h : w.Needed (t :: ts)) (mark : Nat) :
    (w.exec mark t).wall.Needed ((w.exec mark t).tasks ++ ts) := by
  cases htouch : w.touches t with
  | false =>
    have hm := w.minds_exec mark htouch
    refine h.keep ?_ hm.delivering_eq hm.held_eq (Nat.le_of_eq hm.presenting_eq.symm)
      hm.gone_iff.2 fun hnone => ?_
    · cases t <;> first | rfl | cases htouch
    · exact worker_eq_none_of_holdings hm.holdings_eq (h.gone (hm.gone_iff.1 hnone))
  | true =>
    cases t with
    | leave =>
      have hcount : w.delivering - 1 = ts.countP Task.isLeave := by
        rw [h.delivering_eq, List.countP_cons_of_pos rfl, Nat.add_sub_cancel]
      exact needed_settle hcount h.gone
    | endFrame => exact needed_settle h.delivering_eq h.gone
    | work i =>
      rcases w.work_cases i with ⟨hw, -⟩ | ⟨t, k, job, k', ht, hk, -, script, _, _, hw, -⟩
      · rw [exec, hw]
        exact h.keep rfl rfl rfl (Nat.le_refl _) id h.gone
      · rw [exec, hw]
        refine h.keep rfl ?_ rfl (Nat.le_refl _) id fun hnone => ?_
        · rw [List.countP_append, Task.countP_isLeave_of_aside (Task.isAside_map_perform script)]
          rfl
        · refine worker_eq_none_setTile (fun u hu hw => ?_) (h.gone hnone)
          rw [Option.some.inj (ht.symm.trans hu), hw] at hk
          cases hk
    | finish i upload s =>
      refine h.keep rfl rfl rfl (Nat.le_refl _) id fun hnone => ?_
      exact worker_eq_none_setTile (w := { w with uploads := w.uploads + s.uploads upload })
        (fun u _ hw => Tile.worker_finish_of_none hw s) (h.gone hnone)
    | perform op =>
      cases hb : w.beginsFrame op with
      | true =>
        obtain ⟨layers, upload, c, rfl, hh, hc, hp⟩ := exists_of_beginsFrame hb
        have haside := fun t => isAside_of_mem_present (t := t) hh hc hp layers upload mark
        obtain ⟨c', hc', -⟩ := controller_reconcile hc
        refine h.keep rfl ?_ ?_ ?_ (fun hn => by rw [hc] at hn; cases hn) fun hn => ?_
        · rw [show (w.exec mark (.perform (.present layers upload))).tasks = _ ++ [.report _ _] from
            rfl, List.countP_append, Task.countP_isLeave_of_aside haside]
          rw [exec, begin_present hh hc hp, reconcile]
          split <;> rfl
        · rw [exec, begin_present hh hc hp, reconcile]
          split <;> rfl
        · rw [exec, begin_present hh hc hp]
          exact Nat.le_succ _
        · rw [exec, begin_present hh hc hp, hc'] at hn
          cases hn
      | false =>
        cases op with
        | drop =>
          have hsettle := needed_settle (w := { w with held := false }) h.delivering_eq h.gone
          exact ⟨hsettle.delivering_eq, hsettle.needed, hsettle.gone⟩
        | _ => cases hb.symm.trans htouch
    | _ => cases htouch

end Wall

end VideoWall
