import VideoWall.Proofs.Offers
import VideoWall.Proofs.Shifts

/-! Presenting one after another, and all at the same time.

    The order in which a wall goes through a frame is one of those in which its workers may, under
    either pipeline (`Shift.exists_takes`), and all of these come to the same end. So it makes no
    difference to any output, to any worker or to the wall which pipeline is in force and which of
    the orders comes about: `Reached.pipelines_agree`. -/

namespace VideoWall

/-! ### The order of the wall -/

theorem Task.isFinish_of_mem_schedule {p : Pipeline} {jobs : List (Nat × Job)} {t : Task}
    (h : t ∈ Wall.schedule p jobs) : t.isFinish = false := by
  cases p with
  | sequential =>
    obtain ⟨j, -, hj⟩ := List.mem_flatMap.1 h
    simp only [List.mem_cons, List.not_mem_nil, or_false] at hj
    rcases hj with rfl | rfl | rfl <;> rfl
  | barrier =>
    simp only [Wall.schedule, List.mem_append, List.mem_map] at h
    rcases h with (⟨j, -, rfl⟩ | ⟨j, -, rfl⟩) | ⟨j, -, rfl⟩ <;> rfl

namespace Shift

/-- A frame in progress is where a run is in the middle of its schedule: of the tasks that are left
    there, those that hand out jobs and wait are the calls, those that end jobs are the ends, and
    the tiles' own tasks are those of their phases. -/
structure Follows (v : Wall) (jobs : List (Nat × Job)) (es : List Event) (phase : Nat → Phase)
    (u : Shift) (s : Run) : Prop where
  sound : u.Sound v jobs es phase
  wall_eq : u.wall = s.wall
  events_eq : u.events = s.events
  calls_eq : u.calls = s.tasks.filter Task.isCall
  ends_perm : u.ends.Perm (s.tasks.filter Task.isFinish)
  tasks_of : ∀ task ∈ s.tasks, ∃ j ∈ jobs, task.tile? = some j.1
  tasks_eq : ∀ j ∈ jobs, ∀ t, v.tiles[j.1]? = some t →
    Task.ofTile j.1 s.tasks = t.tasks j.1 j.2 (phase j.1)

variable {v : Wall} {jobs : List (Nat × Job)} {es : List Event} {phase : Nat → Phase} {u : Shift}
  {s : Run} {j : Nat × Job} {t : Tile} {task : Task} {us calls ends : List Task}

theorem follows_start {r : Run} (h : r.wall.Manned jobs) (p : Pipeline) :
    (start r.wall r.events p jobs).Follows r.wall jobs r.events (fun _ => .due)
      (r.doing (Wall.schedule p jobs)) where
  sound := sound_start h r.events p
  wall_eq := rfl
  events_eq := rfl
  calls_eq := rfl
  ends_perm := by
    have hnone : (Wall.schedule p jobs).filter Task.isFinish = [] :=
      List.filter_eq_nil_iff.2 fun task ht => by
        rw [Task.isFinish_of_mem_schedule ht]
        exact Bool.false_ne_true
    rw [Run.doing_tasks, hnone]
    exact List.Perm.refl _
  tasks_of := fun _ ht => Wall.exists_job_of_mem_schedule ht
  tasks_eq := fun _ hj _ _ => Task.ofTile_schedule p h.nodup hj

/-- The first task is done on both sides. -/
theorem Follows.does (hf : u.Follows v jobs es phase (s.doing (task :: us))) (h : v.Manned jobs)
    (hj : j ∈ jobs) (ht : v.tiles[j.1]? = some t) (hi : task.tile? = some j.1) {φ : Phase}
    (hnext : φ = (phase j.1).next)
    (hs : (u.does task calls ends).Sound v jobs es (Function.update phase j.1 φ))
    (hcalls : calls = us.filter Task.isCall) (hends : ends.Perm (us.filter Task.isFinish)) :
    (u.does task calls ends).Follows v jobs es (Function.update phase j.1 φ)
      ((s.does task).doing ((s.does task).tasks ++ us)) := by
  subst hnext
  have hgroup : ∀ mark, task ≠ .group mark := by
    rintro mark rfl
    cases hi
  have htasks := hf.tasks_eq j hj t ht
  rw [Run.doing_tasks, Task.ofTile_cons_self hi] at htasks
  have hhead : (t.tasks j.1 j.2 (phase j.1)).head? = some task := by rw [← htasks]; rfl
  have hexec := (hf.sound.midway.exec h hj ht hhead s.events.length).2
  have hwall : u.wall = s.wall := hf.wall_eq
  have hevents : u.events = s.events := hf.events_eq
  rw [hwall] at hexec
  have hleft : (s.does task).tasks = t.left j.1 j.2 (phase j.1) :=
    (Run.tasks_does s task).trans hexec
  refine ⟨hs, ?_, ?_, ?_, ?_, ?_, h.forall_update (P := fun j t φ =>
    Task.ofTile j.1 ((s.does task).tasks ++ us) = t.tasks j.1 j.2 φ) hj ht ?_
      fun j' hj' hi' t' ht' => ?_⟩
  · rw [Run.doing_wall, Run.wall_does, Shift.does, hwall, hevents]
  · rw [Run.doing_events, Run.does_eq s hgroup, Shift.does, hwall, hevents]
    rfl
  · rw [Run.doing_tasks, hleft, List.filter_append, Shift.does, hcalls]
    cases phase j.1 <;> rfl
  · rw [Run.doing_tasks, hleft, List.filter_append, Shift.does, hwall, hevents, hexec]
    have hfinish : (t.left j.1 j.2 (phase j.1)).filter Task.isFinish =
        t.left j.1 j.2 (phase j.1) := by
      cases phase j.1 <;> rfl
    rw [hfinish]
    exact (hends.append_right _).trans List.perm_append_comm
  · intro task' ht'
    rcases List.mem_append.1 ht' with ht' | ht'
    · rw [hleft] at ht'
      exact ⟨j, hj, Tile.tile?_of_mem_left ht'⟩
    · exact hf.tasks_of task' (List.mem_cons_of_mem _ ht')
  · rw [Task.ofTile_append, hleft,
      Task.ofTile_eq_self fun _ => Tile.tile?_of_mem_left]
    exact Tile.left_append_of_tasks_eq htasks.symm
  · rw [Task.ofTile_append, hleft,
      Task.ofTile_eq_nil fun _ ht => ⟨j.1, hi', Tile.tile?_of_mem_left ht⟩, List.nil_append,
      ← hf.tasks_eq j' hj' t' ht', Run.doing_tasks, Task.ofTile_cons_of_ne hi hi']

/-- What the wall does next, somebody can do. -/
theorem Follows.next (hf : u.Follows v jobs es phase (s.doing (task :: us))) (h : v.Manned jobs) :
    ∃ u' phase', u.Step u' ∧
      u'.Follows v jobs es phase' ((s.does task).doing ((s.does task).tasks ++ us)) := by
  obtain ⟨j, hj, hi⟩ := hf.tasks_of task List.mem_cons_self
  obtain ⟨t, -, ht, -⟩ := h.staffed j hj
  have htasks := hf.tasks_eq j hj t ht
  have hcalls := hf.calls_eq
  have hends := hf.ends_perm
  have hwaiting := h.waiting_turned hj phase
  have hraised := h.raised_turned hj phase
  rw [Run.doing_tasks, Task.ofTile_cons_self hi] at htasks
  rw [Run.doing_tasks] at hcalls hends
  rw [← hf.sound.midway.wall_eq] at hwaiting hraised
  cases hφ : phase j.1 with
  | due =>
    rw [hφ] at htasks
    obtain rfl := (List.cons.inj htasks).1
    exact ⟨_, _, .hand hcalls,
      hf.does h hj ht hi (by rw [hφ]; rfl) (hf.sound.hand h hj ht hφ hcalls) rfl hends⟩
  | queued =>
    rw [hφ] at htasks hwaiting
    obtain rfl := (List.cons.inj htasks).1
    have hnone := hf.sound.ofTile_ends hj ht (by rw [hφ]; nofun)
    refine ⟨_, _, .take (hwaiting ▸ Nat.one_ne_zero) fun task' ht' htile => ?_,
      hf.does h hj ht hi (by rw [hφ]; rfl) (hf.sound.take h hj ht hφ) hcalls hends⟩
    exact List.filter_eq_nil_iff.1 hnone task' ht' (decide_eq_true htile)
  | inHand =>
    rw [hφ] at htasks
    obtain rfl := (List.cons.inj htasks).1
    obtain ⟨ends, ends', he⟩ := List.append_of_mem (hends.mem_iff.2 List.mem_cons_self)
    rw [he] at hends
    have hrest := (List.perm_middle.symm.trans hends).cons_inv
    exact ⟨_, _, .finish he,
      hf.does h hj ht hi (by rw [hφ]; rfl) (hf.sound.finish h hj ht hφ he) hcalls hrest⟩
  | raised =>
    rw [hφ] at htasks hraised
    obtain rfl := (List.cons.inj htasks).1
    exact ⟨_, _, .collect hcalls hraised,
      hf.does h hj ht hi (by rw [hφ]; rfl) (hf.sound.collect h hj ht hφ hcalls) rfl hends⟩
  | collected =>
    rw [hφ] at htasks
    cases htasks

/-- The order in which a wall goes through a frame is one in which its workers may. -/
theorem exists_takes {r : Run} (h : r.wall.Manned jobs) (p : Pipeline) :
    ∃ n u, (start r.wall r.events p jobs).Takes n u ∧ u.calls = [] ∧
      u.wall = (r.after (Wall.schedule p jobs)).wall ∧
      u.events = (r.after (Wall.schedule p jobs)).events := by
  have hall : ∀ s ∈ r.during (Wall.schedule p jobs), ∃ n u phase,
      (start r.wall r.events p jobs).Takes n u ∧ u.Follows r.wall jobs r.events phase s := by
    refine Run.during_induction ⟨0, _, _, .refl, follows_start h p⟩ ?_
    rintro s task us - - ⟨n, u, phase, htakes, hf⟩
    obtain ⟨u', phase', hstep, hf'⟩ := hf.next h
    exact ⟨n + 1, u', phase', htakes.tail hstep, hf'⟩
  obtain ⟨n, u, phase, htakes, hf⟩ := hall _ (Run.after_mem_during _ _)
  refine ⟨n, u, htakes, ?_, hf.wall_eq, hf.events_eq⟩
  rw [hf.calls_eq, Run.tasks_after]
  rfl

end Shift

/-! ### Frames -/

theorem Event.ofOutput_append (i : Nat) (es fs : List Event) :
    ofOutput i (es ++ fs) = ofOutput i es ++ ofOutput i fs := List.filter_append ..

/-- Grouping by output does not reorder the events at an output. -/
theorem Event.ofOutput_grouped (i : Nat) (es : List Event) :
    ofOutput i (grouped es) = ofOutput i es := by
  refine filter_grouped (List.pairwise_filter.2 (List.pairwise_of_forall fun a b ha hb => ?_))
  rw [before, of_decide_eq_true ha, of_decide_eq_true hb]
  exact decide_eq_true (Nat.le_refl i)

namespace Wall

variable {w : Wall}

/-- Jobs go to tiles with a worker, from left to right. -/
theorem map_jobs (layers : List Layer) (upload : Bool) :
    (w.jobs layers upload).map (·.1) =
      (w.staffed.take (w.policy.tilesPerFrame w.staffed.length)).map (·.1) := by
  have hfst : (w.staffed.zip (Window.layout (w.staffed.map (·.2)))).map Prod.fst = w.staffed :=
    List.map_fst_zip (by simp [Window.length_layout])
  have htake : w.staffed.take (w.policy.tilesPerFrame w.staffed.length) =
      ((w.staffed.zip (Window.layout (w.staffed.map (·.2)))).take
        (w.policy.tilesPerFrame w.staffed.length)).map Prod.fst := by
    rw [List.map_take, hfst]
  rw [htake, jobs, List.map_map, List.map_map]
  rfl

theorem ready_of_mem (hr : ∀ (i : Nat) (k : Worker), w.staff[i]? = some (some k) → k.Ready) :
    ∀ t ∈ w.tiles, ∀ k, t.worker = some k → k.Ready := by
  intro t ht k hk
  obtain ⟨i, hi⟩ := List.mem_iff_getElem?.1 ht
  exact hr i k (by rw [staff, List.getElem?_map, hi, Option.map_some, hk])

/-- The jobs of a wall whose workers are ready and whose outputs call nobody back. -/
theorem manned_jobs (hr : ∀ (i : Nat) (k : Worker), w.staff[i]? = some (some k) → k.Ready)
    (hs : ∀ t ∈ w.tiles, t.onPresent = []) (layers : List Layer) (upload : Bool) :
    w.Manned (w.jobs layers upload) where
  ready := ready_of_mem hr
  nodup := by
    rw [map_jobs, List.Nodup, List.pairwise_map]
    exact (w.pairwise_staffed.sublist (List.take_sublist _ _)).imp Nat.ne_of_lt
  staffed := by
    intro j hj
    have hmem := List.mem_map_of_mem (f := (·.1)) hj
    rw [map_jobs] at hmem
    obtain ⟨q, hq, hi⟩ := List.mem_map.1 hmem
    obtain ⟨k, hk⟩ := exists_worker_of_mem_staffed (List.mem_of_mem_take hq)
    obtain ⟨t, ht, hw⟩ := exists_tile_of_staff hk
    exact ⟨t, k, hi ▸ ht, hw, hs t (List.mem_of_getElem? ht)⟩

/-- Outputs that call nobody back do not start to as a frame begins. -/
theorem onPresent_of_mem_reconcile {c : Controller} (hs : ∀ t ∈ w.tiles, t.onPresent = []) :
    ∀ t ∈ (w.reconcile c).tiles, t.onPresent = [] := by
  cases hc : c.stale with
  | false => rwa [reconcile_of_not_stale hc]
  | true =>
    rw [tiles_reconcile hc]
    intro t ht
    obtain ⟨i, hi, rfl⟩ := List.mem_mapIdx.1 ht
    rw [Tile.onPresent_reconcile]
    exact hs _ (List.getElem_mem hi)

theorem held_reconcile (c : Controller) : (w.reconcile c).held = w.held := by
  rw [reconcile]
  split <;> rfl

end Wall

namespace Run

variable {r : Run} {jobs : List (Nat × Job)}

/-- What is left of a frame once all jobs are handled changes nothing but that it is over. -/
theorem after_endFrame (hh : r.wall.held = true) {us : List Task} {mark : Nat}
    (hus : us = [] ∨ us = [.group mark]) :
    (r.after (us ++ [.endFrame])).wall =
        { r.wall with presenting := r.wall.presenting - 1 } ∧
      ∀ i, Event.ofOutput i (r.after (us ++ [.endFrame])).events =
        Event.ofOutput i r.events := by
  have hend : ∀ s : Run, s.wall = r.wall →
      s.after [.endFrame] =
        s.incur { wall := { r.wall with presenting := r.wall.presenting - 1 } } := by
    intro s hs
    refine after_eq_of_tasks (by simp) ?_ rfl
    rw [Wall.exec, Wall.settle_of_held (hs ▸ hh), hs]
  rcases hus with rfl | rfl
  · rw [List.nil_append, hend r rfl]
    exact ⟨rfl, fun i => congrArg (Event.ofOutput i) (List.append_nil _)⟩
  · have hgroup : r.after [.group mark] = (r.does (.group mark)).doing [] := by
      rw [after_cons, does_group, List.append_nil, after_nil]
    rw [after_append, hgroup, after_doing, hend (r.does (.group mark)) rfl]
    refine ⟨rfl, fun i => ?_⟩
    refine (congrArg (Event.ofOutput i) (List.append_nil _)).trans ?_
    rw [does_group, Event.ofOutput_append, Event.ofOutput_grouped, ← Event.ofOutput_append,
      List.take_append_drop]

/-- A frame that has begun hands out its jobs, has all of them handled, and is over. -/
theorem after_frame (h : r.wall.Manned jobs) (hh : r.wall.held = true) (p : Pipeline)
    {us : List Task} {mark : Nat} (hus : us = [] ∨ us = [.group mark]) :
    let s := r.after (Wall.schedule p jobs ++ us ++ [.endFrame])
    s.wall = { r.wall.turned jobs (fun _ => .collected) with
      presenting := r.wall.presenting - 1 } ∧
      ∀ i, Event.ofOutput i s.events =
        Event.ofOutput i r.events ++ r.wall.shown jobs (fun _ => .collected) i := by
  intro s
  obtain ⟨n, u, htakes, hcalls, hwall, hevents⟩ := Shift.exists_takes h p
  obtain ⟨-, -, hmidway⟩ := htakes.collected h hcalls
  have hturned := hwall.symm.trans hmidway.wall_eq
  have hend := after_endFrame (r := r.after (Wall.schedule p jobs)) (by rw [hturned]; exact hh) hus
  rw [hturned, ← after_append, ← List.append_assoc] at hend
  exact ⟨hend.1, fun i => (hend.2 i).trans (hevents ▸ hmidway.events_eq i)⟩

end Run

namespace Wall

variable {w : Wall} {layers : List Layer} {upload : Bool}

/-- The jobs that a frame hands out, if it begins. -/
def handed (w : Wall) (layers : List Layer) (upload : Bool) : List (Nat × Job) :=
  if w.beginsFrame (.present layers upload) then
    w.controller.elim [] fun c => (w.reconcile c).jobs layers upload
  else []

/-- A frame that does not begin. -/
theorem begin_present_of_not_beginsFrame (h : w.beginsFrame (.present layers upload) = false)
    (mark : Nat) : ∃ reply, w.begin mark (.present layers upload) = { wall := w, reply } := by
  rcases w.asHolder_cases fun c => w.present c layers upload mark with
    ⟨c, hh, hc, he⟩ | ⟨-, he⟩
  · rw [beginsFrame, hh, hc, Bool.true_and, Option.any_some] at h
    refine ⟨.presented, he.trans ?_⟩
    rw [Wall.present, if_neg (Bool.eq_false_iff.1 h)]
  · exact ⟨.dropped, he⟩

end Wall

theorem Run.call_present_of_not_beginsFrame {r : Run} {layers : List Layer} {upload : Bool}
    (h : r.wall.beginsFrame (.present layers upload) = false) :
    r.begin (.present layers upload) = r.doing [] ∧
      r.call (.present layers upload) = r.doing [] := by
  obtain ⟨reply, hbegin⟩ := Wall.begin_present_of_not_beginsFrame h r.events.length
  have hrun : r.begin (.present layers upload) = r.doing [] := by
    rw [Run.begin, hbegin]
    simp [Run.incur, Run.doing]
  refine ⟨hrun, ?_⟩
  rw [Run.call, hrun]
  exact Run.after_nil _

/-- A frame that a wall presents by itself: if it begins, it hands out its jobs, has all of them
    handled, and is over. -/
theorem Reached.present_turned {t : Tracked} (h : Reached t) (hf : t.run.wall.presenting = 0)
    (hs : ∀ tile ∈ t.run.wall.tiles, tile.onPresent = []) (layers : List Layer) (upload : Bool) :
    let b := t.run.begin (.present layers upload)
    let s := t.run.call (.present layers upload)
    let jobs := t.run.wall.handed layers upload
    b.wall.Manned jobs ∧
      s.wall = { b.wall.turned jobs (fun _ => .collected) with presenting := 0 } ∧
      ∀ i, Event.ofOutput i s.events =
        Event.ofOutput i b.events ++ b.wall.shown jobs (fun _ => .collected) i := by
  intro b s jobs
  cases hb : t.run.wall.beginsFrame (.present layers upload) with
  | false =>
    obtain ⟨(hbegin : b = _), (hcall : s = _)⟩ := Run.call_present_of_not_beginsFrame hb
    have hjobs : jobs = [] := if_neg (Bool.eq_false_iff.1 hb)
    have hready := Wall.ready_of_mem fun i k hk => h.ready hf (i := i) (k := k) hk
    have hturned : t.run.wall.turned [] (fun _ => .collected) = t.run.wall :=
      (Wall.turned_congr (List.forall_mem_nil _)).trans (Wall.turned_due _ [])
    rw [hjobs, hbegin, hcall, Run.doing_wall, Run.doing_events, hturned, ← hf]
    exact ⟨⟨hready, List.nodup_nil, List.forall_mem_nil _⟩, rfl,
      fun i => (List.append_nil _).symm⟩
  | true =>
    obtain ⟨_, _, c, ⟨⟩, hh, hc, hp⟩ := Wall.exists_of_beginsFrame hb
    obtain ⟨hwall, -, us, hus, htasks⟩ := Run.begin_present hh hc hp layers upload
    have hjobs : jobs = (t.run.wall.reconcile c).jobs layers upload := by
      show Wall.handed _ _ _ = _
      rw [Wall.handed, if_pos hb, hc]
      rfl
    have hmanned : b.wall.Manned jobs := by
      rw [hjobs, hwall]
      exact Wall.manned_jobs
        (w := { t.run.wall.reconcile c with presenting := t.run.wall.presenting + 1 })
        (fun i k hk => h.ready_reconcile hf c hk) (Wall.onPresent_of_mem_reconcile hs) layers upload
    have hheld : b.wall.held = true := by
      rw [hwall]
      exact (Wall.held_reconcile c).trans hh
    have hpresenting : b.wall.presenting = 1 := by rw [hwall, hf]
    obtain ⟨hcollected, hevents⟩ := Run.after_frame hmanned hheld t.run.wall.policy.pipeline hus
    rw [hpresenting] at hcollected
    rw [hjobs] at hmanned hcollected hevents ⊢
    rw [← htasks] at hcollected hevents
    exact ⟨hmanned, hcollected, hevents⟩

/-- Whenever a wall is told to present a frame, with no other frame in progress and with outputs
    that call nobody back, it makes no difference which pipeline is in force, nor in which order the
    workers get to their jobs. In each such order there is a next step as long as there is something
    to do for the one who presents, and there are four steps for each job. Throughout, the waits
    that are still to come at a tile are balanced by its jobs, the one in its worker's hand and the
    raised signal. When nothing is left to do for the one who presents, no worker has a job in hand,
    the wall is the one that it comes to by itself, and each output has seen the same calls in the
    same order. There every worker with a job has handled it once and has been waited for, and the
    other tiles are as they were. All workers are ready then, as they were at first: no job waits,
    and no signal is raised that another frame could mistake for its own. -/
theorem Reached.pipelines_agree {t : Tracked} (h : Reached t) (hf : t.run.wall.presenting = 0)
    (hs : ∀ tile ∈ t.run.wall.tiles, tile.onPresent = []) (layers : List Layer) (upload : Bool) :
    let b := t.run.begin (.present layers upload)
    let s := t.run.call (.present layers upload)
    let jobs := t.run.wall.handed layers upload
    let outcome := b.wall.turned jobs fun _ => .collected
    s.wall = { outcome with presenting := 0 } ∧
      (∀ w ∈ [b.wall, outcome], ∀ (i : Nat) (k : Worker), w.staff[i]? = some (some k) → k.Ready) ∧
      (∀ j ∈ jobs, ∃ tile k, b.wall.tiles[j.1]? = some tile ∧ tile.worker = some k ∧
        let composed := k.compose tile.output j.2
        let ended := composed.1.settle composed.2.1 composed.2.2
        outcome.tiles[j.1]? = some { tile with worker := some ended.1.wait, output := ended.2 }) ∧
      (∀ i, i ∉ jobs.map (·.1) → outcome.tiles[i]? = b.wall.tiles[i]?) ∧
      ∀ (p : Pipeline) (n : Nat) (u : Shift), (Shift.start b.wall b.events p jobs).Takes n u →
        u.Balanced ∧ n ≤ 4 * jobs.length ∧ (u.calls ≠ [] → ∃ u', u.Step u') ∧
        (u.calls = [] → n = 4 * jobs.length ∧ u.ends = [] ∧ u.wall = outcome ∧
          ∀ i, Event.ofOutput i u.events = Event.ofOutput i s.events) := by
  intro b s jobs outcome
  obtain ⟨hmanned, hwall, hevents⟩ := h.present_turned hf hs layers upload
  refine ⟨hwall, fun w hw i k hk => ?_, fun j hj => ?_,
    fun i hi => Wall.Manned.tile_turned_of_not_mem hi _, fun p n u htakes => ?_⟩
  · rcases List.mem_pair.1 hw with rfl | rfl
    · obtain ⟨tile, ht, hworker⟩ := Wall.exists_tile_of_staff hk
      exact hmanned.ready tile (List.mem_of_getElem? ht) k hworker
    · exact hmanned.ready_turned hk
  · obtain ⟨tile, k, ht, hk, -⟩ := hmanned.staffed j hj
    exact ⟨tile, k, ht, hk,
      (hmanned.tile_turned hj ht _).trans (congrArg some (Tile.turn_collected hk j.2))⟩
  · obtain ⟨phase, hsound, -⟩ := htakes.sound hmanned
    refine ⟨hsound.balanced hmanned, htakes.le hmanned, hsound.exists_step hmanned, fun hc => ?_⟩
    obtain ⟨hn, hends, hmidway⟩ := htakes.collected hmanned hc
    exact ⟨hn, hends, hmidway.wall_eq, fun i => (hmidway.events_eq i).trans (hevents i).symm⟩

/-- Two outputs that present at the same time, the second of which will refuse its frame. -/
def refusing : Tracked :=
  let output : Output := { configs := [⟨100, 10, none, none, none⟩], fences := true }
  [.setPowerMode .on, .change 1 { failure := some (some .io) } none].foldl
    Tracked.perform { run := (Wall.create [output, output] .concurrent).resting }

/-- The second worker gets to its job first, and ends it last. The calls come in another order than
    they do one after another, but it makes no difference to any output or worker. -/
theorem pipelines_agree_refusing :
    let layers : List Layer := [⟨⟨1⟩, ⟨⟨0⟩, ⟨0⟩, ⟨0x7ff0000000000000⟩, ⟨0⟩⟩, none⟩]
    let b := refusing.run.begin (.present layers true)
    let jobs := refusing.run.wall.handed layers true
    Reached refusing ∧ refusing.run.wall.presenting = 0 ∧
      (∀ tile ∈ refusing.run.wall.tiles, tile.onPresent = []) ∧
      ∃ u u' : Shift, (Shift.start b.wall b.events .barrier jobs).Takes 8 u ∧ u.calls = [] ∧
        (u.events.drop b.events.length).map Event.output? = [some 1, some 0] ∧
        u.wall.staff.map (Option.map fun k => (k.retained.length, k.fence)) =
          [some (1, some ⟨0⟩), some (1, none)] ∧
        (Shift.start b.wall b.events .sequential jobs).Takes 8 u' ∧ u'.calls = [] ∧
        u.wall = u'.wall ∧ ∀ i, Event.ofOutput i u.events = Event.ofOutput i u'.events := by
  intro layers b jobs
  have hreached : Reached refusing := by
    refine ((Reached.create _ _).perform rfl _).perform ?_ _
    decide +kernel
  have hpresenting : refusing.run.wall.presenting = 0 := by decide +kernel
  have hempty : ∀ tile ∈ refusing.run.wall.tiles, tile.onPresent.isEmpty = true := by
    decide +kernel
  have hscripts := fun tile ht => List.isEmpty_iff.1 (hempty tile ht)
  obtain ⟨hmanned, -⟩ := hreached.present_turned hpresenting hscripts layers true
  obtain ⟨-, -, -, -, hagree⟩ := hreached.pipelines_agree hpresenting hscripts layers true
  have htakes := Shift.Takes.refl (s := Shift.start b.wall b.events .barrier jobs)
    |>.tail (.hand rfl) |>.tail (.hand rfl)
    |>.tail (.take (i := 1) (by decide +kernel) (by decide +kernel))
    |>.tail (.take (i := 0) (by decide +kernel) (by decide +kernel))
    |>.tail (@Shift.Step.finish _ _ [_] _ rfl) |>.tail (@Shift.Step.finish _ _ [] _ rfl)
    |>.tail (.collect rfl (by decide +kernel)) |>.tail (.collect rfl (by decide +kernel))
  obtain ⟨n, u', htakes', hcalls', -⟩ := Shift.exists_takes (r := b) hmanned .sequential
  obtain ⟨-, -, -, hcollected⟩ := hagree _ _ _ htakes
  obtain ⟨-, -, -, hcollected'⟩ := hagree _ _ _ htakes'
  obtain ⟨-, -, hwall, hevents⟩ := hcollected rfl
  obtain ⟨hn, -, hwall', hevents'⟩ := hcollected' hcalls'
  refine ⟨hreached, hpresenting, hscripts, _, u', htakes, rfl, ?_, ?_, ?_, hcalls',
    hwall.trans hwall'.symm, fun i => (hevents i).trans (hevents' i).symm⟩
  · decide +kernel
  · decide +kernel
  · have hlength : jobs.length = 2 := by decide +kernel
    rw [hlength] at hn
    rw [hn] at htakes'
    exact htakes'

end VideoWall
