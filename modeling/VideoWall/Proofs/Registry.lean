import VideoWall.Proofs.Drain
import VideoWall.Proofs.Staff
import VideoWall.Proofs.Views

/-! Which outputs have a worker.

    Connections change at any time, and the controller hears of a change only when a hotplug is
    reported to it, which may be much later. It does not act on a hotplug but remembers it, and the
    next frame matches the workers with the connected outputs. `Reached.present_matches`: every
    frame that begins while no change is unreported leaves exactly the connected outputs with a
    worker.

    The invariant is `Wall.Informed`. As long as no change is unreported, the workers are those
    of the connected outputs or the controller remembers a hotplug. -/

namespace VideoWall

namespace Wall

variable {w : Wall}

/-! ### What steps do to the staffing -/

/-- From `w` to `v`, the controller is gone, or outputs got and lost their workers as the
    connections demand, or they kept them and the controller has forgotten nothing. -/
def Restaffs (w v : Wall) : Prop :=
  ∀ c', v.controller = some c' → ∃ c, w.controller = some c ∧
    (c.stale = true ∧ v.staffing = v.plugged ∨
      v.staffing = w.staffing ∧ (c.stale = true → c'.stale = true))

theorem Keeps.restaffs {v : Wall} (h : w.Keeps v) : w.Restaffs v := by
  intro c' hc'
  cases hc : w.controller with
  | none => rw [h.gone hc] at hc'; cases hc'
  | some c =>
    obtain ⟨c'', hc'', hs⟩ := h.alive c hc
    obtain rfl := Option.some.inj (hc''.symm.trans hc')
    exact ⟨c, rfl, .inr ⟨by rw [staffing, staffing, h.staff_eq], hs⟩⟩

theorem restaffs_of_gone {v : Wall} (h : v.controller = none) : w.Restaffs v := by
  intro c' hc'
  rw [h] at hc'
  cases hc'

theorem Restaffs.of_keeps_or_ends {v : Wall} (h : w.Keeps v ∨ w.Ends v) : w.Restaffs v :=
  h.elim Keeps.restaffs fun h => restaffs_of_gone h.controller_eq

theorem isSome_eq_of_rel {α β : Type} {r : α → β → Prop} {a : Option α} {b : Option β}
    (h : Option.Rel r a b) : b.isSome = a.isSome := by
  cases h <;> rfl

/-- A task of a frame takes no worker away and brings none. -/
theorem Serves.staffing_eq {t : Task} {i : Nat} {v : Wall} (h : Serves t i w v) :
    v.staffing = w.staffing ∧ v.plugged = w.plugged ∧ v.controller = w.controller := by
  obtain ⟨f, n, rfl, hf⟩ := h.change
  refine ⟨?_, w.plugged_setTile i fun t ht => (hf t ht).1, rfl⟩
  rw [staffing_eq_map, staffing_eq_map]
  exact map_modify_of_eq (g := fun t : Tile => t.worker.isSome) fun t ht =>
    isSome_eq_of_rel (hf t ht).2

theorem Serves.restaffs {t : Task} {i : Nat} {v : Wall} (h : Serves t i w v) : w.Restaffs v := by
  obtain ⟨hs, -, hc⟩ := h.staffing_eq
  exact fun c' hc' => ⟨c', hc.symm.trans hc', .inr ⟨hs, id⟩⟩

/-- The counters do not matter. -/
theorem restaffs_settle (presenting : Nat) : w.Restaffs { w with presenting }.settle := by
  rcases { w with presenting }.keeps_or_ends_settle with h | h
  · exact h.restaffs
  · exact restaffs_of_gone h.controller_eq

theorem staffing_of_keeps_or_ends {v : Wall} (h : w.Keeps v ∨ w.Ends v)
    (hv : v.controller.isSome = true) : v.staffing = w.staffing := by
  rcases h with h | h
  · rw [staffing, staffing, h.staff_eq]
  · rw [h.controller_eq] at hv
    cases hv

/-- While there is a controller, workers come and go where a frame begins and nowhere else. -/
theorem staffing_exec (mark : Nat) {t : Task}
    (ht : ∀ op, t = .perform op → w.beginsFrame op = false)
    (hv : (w.exec mark t).wall.controller.isSome = true) :
    (w.exec mark t).wall.staffing = w.staffing := by
  cases t with
  | dispatch i job => exact (serves_exec mark rfl).1.staffing_eq.1
  | work i => exact (serves_exec mark rfl).1.staffing_eq.1
  | finish i upload s => exact (serves_exec mark rfl).1.staffing_eq.1
  | await i => exact (serves_exec mark rfl).1.staffing_eq.1
  | endFrame =>
    exact staffing_of_keeps_or_ends (w := { w with presenting := w.presenting - 1 })
      (keeps_or_ends_settle _) hv
  | group => rfl
  | perform | report | deliver | leave | arrive | poll | item | arm =>
    exact staffing_of_keeps_or_ends (plain_exec mark rfl ht).wall hv

/-- An operation restaffs the wall when it begins a frame. -/
theorem restaffs_begin (mark : Nat) (op : Op) : w.Restaffs (w.begin mark op).wall := by
  cases hb : w.beginsFrame op with
  | false => exact .of_keeps_or_ends (plain_begin mark hb).wall
  | true =>
    obtain ⟨layers, upload, c, rfl, hh, hc, hp⟩ := exists_of_beginsFrame hb
    rw [begin_present hh hc hp]
    obtain ⟨c₁, hc₁, -⟩ := controller_reconcile hc
    intro c' hc'
    obtain rfl := Option.some.inj (hc₁.symm.trans hc')
    refine ⟨c, hc, ?_⟩
    cases hs : c.stale with
    | true => exact .inl ⟨rfl, (matched_reconcile hs).trans (w.plugged_reconcile c).symm⟩
    | false =>
      refine .inr ⟨?_, Bool.noConfusion⟩
      rw [reconcile_of_not_stale hs]
      rfl

theorem restaffs_exec (mark : Nat) (t : Task) : w.Restaffs (w.exec mark t).wall := by
  cases t with
  | perform op => exact restaffs_begin mark op
  | dispatch i job => exact (serves_exec mark rfl).1.restaffs
  | work i => exact (serves_exec mark rfl).1.restaffs
  | finish i upload s => exact (serves_exec mark rfl).1.restaffs
  | await i => exact (serves_exec mark rfl).1.restaffs
  | endFrame => exact restaffs_settle _
  | group => exact (Keeps.refl w).restaffs
  | report | deliver | leave | arrive | poll | item | arm =>
    exact .of_keeps_or_ends (plain_exec mark rfl (by simp)).wall

/-! ### Reports -/

/-- Whether an operation tells the controller of a hotplug: the host does, or an output that is
    plugged and has a listener. -/
def reports (w : Wall) : Op → Bool
  | .hotplugUpdate _ => w.held && w.controller.isSome
  | .plug i _ => w.controller.isSome && w.outputs[i]?.any (·.onHotplug.isSome)
  | _ => false

/-- Whether some connection has changed since the controller last heard of a hotplug, once an
    operation has begun. -/
def unreported (w : Wall) (before : Bool) (op : Op) : Bool :=
  !w.reports op && (before || decide ((w.begin 0 op).wall.plugged ≠ w.plugged))

/-- Whom an output calls does not depend on whether it is connected. -/
theorem any_onHotplug_connect (w : Wall) (i : Nat) (connected : Bool) :
    (w.setOutput i fun o => { o with connected }).outputs[i]?.any (·.onHotplug.isSome) =
      w.outputs[i]?.any (·.onHotplug.isSome) := by
  cases ht : w.tiles[i]? <;> simp [outputs, setOutput, setTile, ht]

/-- The controller remembers what it is told. -/
theorem stale_begin_of_reports {op : Op} (h : w.reports op = true) (mark : Nat) {c' : Controller}
    (hc' : (w.begin mark op).wall.controller = some c') : c'.stale = true := by
  have henter : ∀ (v : Wall) (n : Nat) (b : Bool), v.controller.isSome = true →
      (v.enter (·.hotplug n b)).wall.controller = some c' → c'.stale = true := by
    intro v n b hv hc'
    rcases v.enter_cases (·.hotplug n b) with ⟨hn, -⟩ | ⟨c, -, he⟩
    · rw [hn] at hv
      cases hv
    · rw [he] at hc'
      rw [← Option.some.inj hc']
      exact c.stale_hotplug n b
  cases op with
  | hotplugUpdate b =>
    rw [reports, Bool.and_eq_true] at h
    obtain ⟨c, hc⟩ := Option.isSome_iff_exists.1 h.2
    rw [begin, asHolder, h.1, hc] at hc'
    exact henter w _ b h.2 hc'
  | plug i b =>
    rw [reports, Bool.and_eq_true] at h
    rw [begin, through, any_onHotplug_connect, h.2, if_pos rfl] at hc'
    exact henter (w.setOutput i _) _ b h.1 hc'
  | _ => cases h

/-- Where the events of a frame begin does not matter to the wall. -/
theorem wall_begin (mark : Nat) (op : Op) : (w.begin mark op).wall = (w.begin 0 op).wall := by
  cases op with
  | present layers upload =>
    rw [begin, begin, asHolder, asHolder]
    split
    · rw [present, present]
      split <;> rfl
    · rfl
  | _ => rfl

end Wall

/-! ### Runs of a controller -/

/-- A run, and whether some connection has changed since the controller last heard of a hotplug. -/
structure Tracked where
  run : Run
  unreported : Bool := false

namespace Tracked

/-- Begins an operation. -/
def begins (t : Tracked) (op : Op) : Tracked :=
  ⟨t.run.begin op, t.run.wall.unreported t.unreported op⟩

/-- Takes a step, which may begin an operation of a script. -/
def next (t : Tracked) : Tracked where
  run := t.run.next
  unreported :=
    match t.run.tasks with
    | .perform op :: _ => t.run.wall.unreported t.unreported op
    | _ => t.unreported

/-- Takes steps until nothing is left to do, at most `fuel` of them. -/
def steps : Nat → Tracked → Tracked
  | 0, t => t
  | fuel + 1, t => if t.run.isAtRest then t else steps fuel t.next

/-- Performs an operation of the host. -/
def perform (t : Tracked) (op : Op) : Tracked := (t.begins op).steps (t.begins op).run.cost

end Tracked

/-- What a new wall can come to. When nothing is left to do, the host may take the events away or
    perform an operation. -/
inductive Reached : Tracked → Prop where
  | create (outputs : List Output) (policy : Policy) :
      Reached { run := (Wall.create outputs policy).resting }
  | rest {t : Tracked} (h : Reached t) (hr : t.run.isAtRest = true) :
      Reached { t with run := t.run.wall.resting }
  | begins {t : Tracked} (h : Reached t) (hr : t.run.isAtRest = true) (op : Op) :
      Reached (t.begins op)
  | next {t : Tracked} (h : Reached t) (hr : t.run.isAtRest = false) : Reached t.next

theorem Reached.steps {t : Tracked} (h : Reached t) (fuel : Nat) : Reached (t.steps fuel) := by
  induction fuel generalizing t with
  | zero => exact h
  | succ fuel ih =>
    rw [Tracked.steps]
    split
    · exact h
    · next hr => exact ih (h.next (Bool.eq_false_iff.2 hr))

/-- An operation that the host performs is one of the things that a wall can come to. -/
theorem Reached.perform {t : Tracked} (h : Reached t) (hr : t.run.isAtRest = true) (op : Op) :
    Reached (t.perform op) := (h.begins hr op).steps _

/-- What holds of a new wall, holds when loops get their turn or an operation has begun, and is kept
    by every task, holds of all that a wall can come to. -/
theorem Reached.invariant {P : Wall → List Task → Prop}
    (create : ∀ outputs policy, P (Wall.create outputs policy) [])
    (turn : ∀ w (tiles : List Nat), P w [] → P w (tiles.map .poll))
    (begins : ∀ w mark op, P w [] → P (w.begin mark op).wall (w.begin mark op).tasks)
    (exec : ∀ w mark task ts, P w (task :: ts) →
      P (w.exec mark task).wall ((w.exec mark task).tasks ++ ts))
    {t : Tracked} (h : Reached t) : P t.run.wall t.run.tasks := by
  induction h with
  | create outputs policy => exact create outputs policy
  | @rest t _ hr ih =>
    rw [Run.isAtRest, Bool.and_eq_true, List.isEmpty_iff] at hr
    rw [hr.1] at ih
    exact ih
  | @begins t _ hr op ih =>
    rw [Run.isAtRest, Bool.and_eq_true, List.isEmpty_iff] at hr
    rw [hr.1] at ih
    exact begins _ _ op ih
  | @next t _ _ ih =>
    rw [Tracked.next]
    dsimp only
    cases ht : t.run.tasks with
    | nil =>
      rw [ht] at ih
      rw [Run.wall_next_of_nil ht, Run.next, ht]
      exact turn _ _ ih
    | cons task rest =>
      rw [ht] at ih
      rw [Run.wall_next_of_cons ht, Run.tasks_next_of_cons ht]
      exact exec _ _ task rest ih

/-- With no change unreported, the workers are those of the connected outputs, or the controller
    remembers a hotplug. -/
def Wall.Informed (w : Wall) (unreported : Bool) : Prop :=
  unreported = false → ∀ c, w.controller = some c → c.stale = true ∨ w.Matched

namespace Wall

variable {w v : Wall} {unreported : Bool}

/-- A step that changes no connection. -/
theorem Informed.of_restaffs (h : w.Informed unreported) (hr : w.Restaffs v)
    (hp : v.plugged = w.plugged) : v.Informed unreported := by
  intro hu c' hc'
  obtain ⟨c, hc, ⟨-, hs⟩ | ⟨hs, hst⟩⟩ := hr c' hc'
  · exact .inr hs
  · rcases h hu c hc with hstale | hm
    · exact .inl (hst hstale)
    · exact .inr (hs.trans (hm.trans hp.symm))

theorem Informed.begin (h : w.Informed unreported) (mark : Nat) (op : Op) :
    (w.begin mark op).wall.Informed (w.unreported unreported op) := by
  intro hu c' hc'
  cases hrep : w.reports op with
  | true => exact .inl (stale_begin_of_reports hrep mark hc')
  | false =>
    rw [Wall.unreported, hrep, Bool.not_false, Bool.true_and, Bool.or_eq_false_iff,
      decide_eq_false_iff_not, Decidable.not_not] at hu
    exact h.of_restaffs (restaffs_begin mark op) (by rw [wall_begin, hu.2]) hu.1 c' hc'

end Wall

/-- In all that a wall can come to, the controller is informed. -/
theorem Reached.informed {t : Tracked} (h : Reached t) : t.run.wall.Informed t.unreported := by
  induction h with
  | create outputs policy =>
    intro _ c hc
    rw [← Option.some.inj hc]
    exact .inl rfl
  | rest _ _ ih => exact ih
  | begins _ _ op ih => exact ih.begin _ op
  | @next t _ _ ih =>
    cases ht : t.run.tasks with
    | nil =>
      rw [Tracked.next, ht]
      dsimp only
      rw [Run.wall_next_of_nil ht]
      exact ih
    | cons task rest =>
      rw [Tracked.next, ht]
      dsimp only
      rw [Run.wall_next_of_cons ht]
      cases task with
      | perform op => exact ih.begin _ op
      | _ => exact ih.of_restaffs (Wall.restaffs_exec _ _) (Wall.plugged_exec _ _ (by simp))

/-! ### Frames -/

namespace Run

variable {r : Run}

/-- As long as no connection changes, matched workers stay matched until the controller goes. -/
theorem matched_of_mem_during {ts : List Task} (hm : r.wall.Matched)
    (hp : ∀ s ∈ r.during ts, s.wall.plugged = r.wall.plugged) :
    ∀ s ∈ r.during ts, ∀ c, s.wall.controller = some c → s.wall.Matched := by
  refine during_induction (P := fun s => ∀ c, s.wall.controller = some c → s.wall.Matched)
    (fun _ _ => hm) ?_
  intro s t us hs hs' hsm c' hc'
  have hplug : (s.wall.exec s.events.length t).wall.plugged = s.wall.plugged := by
    rw [← wall_does]
    exact (hp _ hs').trans (hp _ hs).symm
  rw [doing_wall, wall_does] at hc' ⊢
  obtain ⟨c, hc, ⟨-, h⟩ | ⟨h, -⟩⟩ := Wall.restaffs_exec _ t c' hc'
  · exact h
  · exact h.trans ((hsm c hc).trans hplug.symm)

end Run

namespace Tile

/-- What becomes of a tile as a frame begins. A connected output keeps its worker, or gets a new one
    if it has none. A disconnected output loses its worker, which lets go of its layers and its
    fence and takes no more jobs. -/
inductive Matches (i : Nat) : Tile → Tile → Prop where
  | kept (t : Tile) (k : Worker) (hc : t.output.connected = true) (hk : t.worker = some k) :
      Matches i t t
  | started (t : Tile) (hc : t.output.connected = true) (hk : t.worker = none) :
      Matches i t { t with worker := some { id := ⟨i⟩ } }
  | retired (t : Tile) (k : Worker) (hc : t.output.connected = false) (hk : t.worker = some k) :
      Matches i t { t with worker := none, output := t.output.release k.fence }
  | without (t : Tile) (hc : t.output.connected = false) (hk : t.worker = none) : Matches i t t

theorem matches_reconcile (t : Tile) (i : Nat) : Matches i t (t.reconcile i) := by
  obtain ⟨o, worker, script⟩ := t
  cases hc : o.connected with
  | true =>
    rw [reconcile, if_pos hc]
    cases worker with
    | none => exact .started ⟨o, none, script⟩ hc rfl
    | some k => exact .kept ⟨o, some k, script⟩ k hc rfl
  | false =>
    rw [reconcile, if_neg (by rw [hc]; exact Bool.false_ne_true)]
    cases worker with
    | none => exact .without ⟨o, none, script⟩ hc rfl
    | some k => exact .retired ⟨o, some k, script⟩ k hc rfl

/-- A tile whose worker is there exactly if its output is connected is left as it is. -/
theorem matches_self {t : Tile} (h : t.worker.isSome = t.output.connected) (i : Nat) :
    Matches i t t := by
  cases hk : t.worker with
  | none => exact .without t (by rw [← h, hk]; rfl) hk
  | some k => exact .kept t k (by rw [← h, hk]; rfl) hk

end Tile

namespace Wall

variable {w : Wall} {c : Controller}

/-- A frame that begins with the controller informed matches every tile. -/
theorem Informed.reconcile (h : w.Informed false) (hc : w.controller = some c) :
    (w.reconcile c).staffing = w.plugged ∧
      ∀ (i : Nat) (t : Tile), w.tiles[i]? = some t →
        ∃ t', (w.reconcile c).tiles[i]? = some t' ∧ Tile.Matches i t t' := by
  cases hs : c.stale with
  | true =>
    refine ⟨matched_reconcile hs, fun i t ht => ⟨t.reconcile i, ?_, t.matches_reconcile i⟩⟩
    rw [tiles_reconcile hs, List.getElem?_mapIdx, ht]
    rfl
  | false =>
    obtain hm : w.staffing = w.plugged := (h rfl c hc).resolve_left (by rw [hs]; simp)
    rw [reconcile_of_not_stale hs]
    refine ⟨hm, fun i t ht => ⟨t, ht, Tile.matches_self ?_ i⟩⟩
    have hi := congrArg (·[i]?) hm
    rw [staffing_eq_map, plugged] at hi
    simpa [ht] using hi

end Wall

/-- A retired worker has no layers and no fence, and takes no job. -/
theorem Worker.present_retire (k : Worker) (o : Output) :
    (k.retire o).1.retained = [] ∧ (k.retire o).1.fence = none ∧
      ∀ job, (k.retire o).1.present job = .error ⟨k.id⟩ :=
  ⟨rfl, rfl, fun _ => rfl⟩

/-- In whatever state a wall is when its holder presents a frame: a wall that is not fully powered
    stays as it is in all respects, and nothing is seen. On a fully powered one, with no change of a
    connection unreported, the frame begins by matching every tile, so that exactly the connected
    outputs have a worker. If no connection changes during the frame either, that is so all the way
    through it and at its end, unless the controller has gone by then. A worker that is retired
    has neither layers nor a fence any more and takes no job. And workers come and go nowhere
    else while there is a controller. -/
theorem Reached.present_matches {t : Tracked} (h : Reached t) {c : Controller}
    (hh : t.run.wall.held = true) (hc : t.run.wall.controller = some c) (layers : List Layer)
    (upload : Bool) :
    let r := t.run
    let v := (r.begin (.present layers upload)).wall
    (c.power.isOn = false → r.call (.present layers upload) = r.doing []) ∧
    (c.power.isOn = true → t.unreported = false →
      (v.staffing = v.plugged ∧ v.plugged = r.wall.plugged ∧
        ∀ (i : Nat) (tile : Tile), r.wall.tiles[i]? = some tile →
          ∃ tile', v.tiles[i]? = some tile' ∧ Tile.Matches i tile tile') ∧
      ((∀ s ∈ r.calling (.present layers upload), s.wall.plugged = r.wall.plugged) →
        ∀ s ∈ r.calling (.present layers upload), s.wall.controller.isSome →
          s.wall.staffing = s.wall.plugged)) ∧
    (∀ (k : Worker) (o : Output), (k.retire o).1.retained = [] ∧ (k.retire o).1.fence = none ∧
      ∀ job, (k.retire o).1.present job = .error ⟨k.id⟩) ∧
    ∀ (w : Wall) (mark : Nat) (task : Task),
      (∀ op, task = .perform op → w.beginsFrame op = false) →
      (w.exec mark task).wall.controller.isSome →
      (w.exec mark task).wall.staffing = w.staffing := by
  intro r v
  refine ⟨?_, ?_, Worker.present_retire, ?_⟩
  · intro hp
    have hb : r.wall.begin r.events.length (.present layers upload) =
        { wall := r.wall, reply := .presented } := by
      rw [Wall.begin, Wall.asHolder, hh, hc]
      dsimp only
      rw [Wall.present, if_neg (by rw [hp]; exact Bool.false_ne_true)]
    rw [Run.call, Run.begin, hb]
    exact (Run.after_nil _).trans (by simp [Run.incur, Run.doing])
  · intro hp hu
    have hv : v = { r.wall.reconcile c with presenting := r.wall.presenting + 1 } := by
      show (r.wall.begin r.events.length (.present layers upload)).wall = _
      rw [Wall.begin_present hh hc hp]
    obtain ⟨hstaff, htiles⟩ := Wall.Informed.reconcile (hu ▸ h.informed) hc
    have hplug : v.plugged = r.wall.plugged := by rw [hv]; exact r.wall.plugged_reconcile c
    have hmatched : v.staffing = r.wall.plugged := by rw [hv]; exact hstaff
    refine ⟨⟨hmatched.trans hplug.symm, hplug, by rw [hv]; exact htiles⟩, ?_⟩
    intro hall s hs hsome
    obtain ⟨c', hc'⟩ := Option.isSome_iff_exists.1 hsome
    exact Run.matched_of_mem_during (r := r.begin (.present layers upload))
      (hmatched.trans hplug.symm) (fun u hu => (hall u hu).trans hplug.symm) s hs c' hc'
  · intro w mark task ht hsome
    exact Wall.staffing_exec mark ht hsome

/-- Two outputs have shown a frame, and the second one is unplugged while the wall is powered down;
    the hotplug is reported before it is powered on again. -/
def unplugged : Tracked :=
  [.setPowerMode .on, .present [] false, .setPowerMode .off,
    .change 1 { connected := some false } none, .hotplugUpdate false, .setPowerMode .on].foldl
    Tracked.perform { run := (Wall.create [{}, {}] {}).resting }

theorem present_matches_unplugged :
    let r := unplugged.run
    Reached unplugged ∧ r.wall.held = true ∧ unplugged.unreported = false ∧
      (∃ c, r.wall.controller = some c ∧ c.power.isOn = true) ∧ r.wall.staffing = [true, true] ∧
      (r.call (.present [] false)).wall.staffing = [true, false] := by
  intro r
  have hreached : Reached unplugged := by
    refine ((((((Reached.create [{}, {}] {}).perform rfl _).perform ?_ _).perform ?_ _).perform ?_
      _).perform ?_ _).perform ?_ _
    all_goals decide
  obtain ⟨c, hc, hp⟩ : ∃ c, r.wall.controller = some c ∧ c.power.isOn = true := ⟨_, rfl, rfl⟩
  have hall := (hreached.present_matches rfl hc [] false).2.1 hp (by decide)
  have hstaff := hall.2 (by decide) _ (Run.after_mem_during _ _) (by decide)
  exact ⟨hreached, rfl, by decide, ⟨c, hc, hp⟩, by decide, hstaff⟩

end VideoWall
