import VideoWall.Proofs.Backlog

/-! The turns of a frame.

    A frame has every tile that gets it take its turn: the tile's worker is handed a job, handles it
    and is waited for. `Run.Turns` says what comes of some tiles' turns: their workers change as the
    jobs say, all others are left alone, and certain things are offered to the outputs. A stage,
    `Run.Stage`, is a list of tasks that brings such turns about. The stages of single tiles make up
    those of many (`Run.Stage.flatMap`), and stages of the same tiles follow one another
    (`Run.Stage.trans`); the two pipelines put these together in different orders, to the same
    effect (`Run.stage_schedule`). While tiles take their turns scripts run, which do nothing to
    workers as long as no other frame begins (`Run.quiet`). A frame that a script begins would wait
    for the one in progress for ever. -/

namespace VideoWall

/-! ### Offers of a job -/

/-- What the output at position `i` is offered when it has this window: the layers that the window
    accepts, with its constraints, if there are any. -/
def Window.offer? (window : Window) (i : Nat) (layers : List Layer) (upload : Bool) :
    Option Offer :=
  match layers.filter fun l => window.accepts l.frame with
  | [] => none
  | accepted => some ⟨i, accepted.map fun l => ⟨l, window.constraints⟩, upload⟩

theorem Window.output_of_offer? {window : Window} {i : Nat} {layers : List Layer} {upload : Bool}
    {o : Offer} (h : window.offer? i layers upload = some o) : o.output = i := by
  rw [offer?] at h
  split at h
  · cases h
  · cases h
    rfl

/-- What the output at position `i` is offered for a job. -/
def Job.offer? (job : Job) (i : Nat) : Option Offer :=
  job.window.offer? i job.layers job.upload

/-! ### Quiet runs -/

namespace Run

variable {r s u : Run} {t : Task} {ts us : List Task} {os os' : List Offer}

/-- Whether the next task begins a frame. -/
def beginsFrame (r : Run) : Bool :=
  match r.tasks with
  | .perform op :: _ => r.wall.beginsFrame op
  | _ => false

/-- While some tasks are done, no other frame begins. -/
def Undisturbed (r : Run) (ts : List Task) : Prop := ∀ s ∈ r.during ts, s.beginsFrame = false

theorem Undisturbed.of_append (h : r.Undisturbed (ts ++ us)) :
    r.Undisturbed ts ∧ (r.after ts).Undisturbed us := by
  refine ⟨fun s hs => ?_, fun s hs => h s ((mem_during_append r ts us).2 (.inr hs))⟩
  cases ht : s.tasks with
  | nil => rw [beginsFrame, ht]
  | cons t rest =>
    have hne : s.tasks ≠ [] := by simp [ht]
    have hs' := h _ ((mem_during_append r ts us).2 (.inl ⟨s, hs, hne, rfl⟩))
    rw [beginsFrame, doing_tasks, ht] at hs'
    rw [beginsFrame, ht]
    cases t <;> exact hs'

theorem Undisturbed.does (h : r.Undisturbed [t]) : (r.does t).Undisturbed (r.does t).tasks := by
  intro s hs
  refine h s ?_
  rw [during_cons, List.append_nil]
  exact List.mem_cons_of_mem _ hs

/-- From `r` to `s`, the outputs are offered this and nothing else. -/
def Offers (os : List Offer) (r s : Run) : Prop :=
  ∃ es, s.events = r.events ++ es ∧ Event.offers es = os

theorem offers_of_events (h : s.events = r.events) : Offers [] r s := ⟨[], by simp [h], rfl⟩

theorem Offers.trans (h : Offers os r s) (h' : Offers os' s u) : Offers (os ++ os') r u := by
  obtain ⟨es, he, rfl⟩ := h
  obtain ⟨es', he', rfl⟩ := h'
  exact ⟨es ++ es', by rw [he', he, List.append_assoc], Event.offers_append es es'⟩

/-- What has nothing to do with frames leaves the workers alone while one is in progress, and offers
    nothing, with all that it causes. -/
theorem quiet (ht : ∀ t ∈ ts, t.ofFrame = false) (hf : 0 < r.wall.presenting)
    (hu : r.Undisturbed ts) : r.wall.Keeps (r.after ts).wall ∧ Offers [] r (r.after ts) := by
  have hall := during_induction (P := fun s : Run =>
    (∀ t ∈ s.tasks, t.ofFrame = false) ∧ r.wall.Keeps s.wall ∧ Offers [] r s)
    (r := r) ⟨ht, .refl _, offers_of_events rfl⟩ ?_
  · exact (hall _ (r.after_mem_during ts)).2
  · rintro s t us hs - ⟨hts, hk, ho⟩
    rw [doing_tasks, List.forall_mem_cons] at hts
    have hb : ∀ op, t = .perform op → s.wall.beginsFrame op = false := by
      rintro op rfl
      exact hu _ hs
    have hplain := Wall.plain_exec (w := s.wall) s.events.length hts.1 hb
    have hg : ∀ mark, t ≠ .group mark := by
      rintro mark rfl
      cases hts.1
    rw [does_eq s hg]
    refine ⟨?_, ?_, ?_⟩
    · intro t' ht'
      rcases List.mem_append.1 ht' with ht' | ht'
      · exact hplain.tasks t' ht'
      · exact hts.2 t' ht'
    · rcases hplain.wall with h | h
      · exact hk.trans h
      · have h0 := hk.presenting_eq.symm.trans h.presenting_eq_zero
        omega
    · have hstep : Offers [] s (s.incur (s.wall.exec s.events.length t)) :=
        ⟨_, rfl, Event.offers_eq_nil hplain.events⟩
      exact Offers.trans (s := s) ho hstep

/-! ### Turns -/

/-- From `r` to `s`, the workers of some tiles change as `R` says for the job of each, all other
    workers are left alone, and the outputs are offered `os`. -/
structure Turns (jobs : List (Nat × Job)) (R : Job → Worker → Worker → Prop) (os : List Offer)
    (r s : Run) : Prop where
  presenting_eq : s.wall.presenting = r.wall.presenting
  offers : Offers os r s
  others : ∀ i, i ∉ jobs.map (·.1) → s.wall.staff[i]? = r.wall.staff[i]?
  each : ∀ j ∈ jobs, ∃ k k', r.wall.staff[j.1]? = some (some k) ∧
    s.wall.staff[j.1]? = some (some k') ∧ R j.2 k k'

variable {jobs jobs' : List (Nat × Job)} {R S T : Job → Worker → Worker → Prop}

/-- Turns of the same tiles, one after the other. -/
theorem Turns.trans (h : Turns jobs R os r s) (h' : Turns jobs S os' s u)
    (hR : ∀ job k k' k'', R job k k' → S job k' k'' → T job k k'') :
    Turns jobs T (os ++ os') r u where
  presenting_eq := h'.presenting_eq.trans h.presenting_eq
  offers := h.offers.trans h'.offers
  others := fun i hi => (h'.others i hi).trans (h.others i hi)
  each := by
    intro j hj
    obtain ⟨k, k₁, hk, hk₁, hr⟩ := h.each j hj
    obtain ⟨k₂, k', hk₂, hk', hr'⟩ := h'.each j hj
    rw [hk₁, Option.some.injEq, Option.some.injEq] at hk₂
    subst hk₂
    exact ⟨k, k', hk, hk', hR _ _ _ _ hr hr'⟩

/-- What is left to do does not matter. -/
theorem Turns.doing (h : Turns jobs R os r s) (ts : List Task) : Turns jobs R os r (s.doing ts) :=
  ⟨h.presenting_eq, h.offers, h.others, h.each⟩

/-- Turns that offer nothing more. -/
theorem Turns.trans_silent (h : Turns jobs R os r s) (h' : Turns jobs S [] s u)
    (hR : ∀ job k k' k'', R job k k' → S job k' k'' → T job k k'') :
    Turns jobs T os r u := by
  rw [← List.append_nil os]
  exact h.trans h' hR

/-- Turns of different tiles, one after the other. -/
theorem Turns.append (h : Turns jobs R os r s) (h' : Turns jobs' R os' s u)
    (hd : ∀ i ∈ jobs.map (·.1), i ∉ jobs'.map (·.1)) :
    Turns (jobs ++ jobs') R (os ++ os') r u where
  presenting_eq := h'.presenting_eq.trans h.presenting_eq
  offers := h.offers.trans h'.offers
  others := by
    intro i hi
    rw [List.map_append, List.mem_append, not_or] at hi
    exact (h'.others i hi.2).trans (h.others i hi.1)
  each := by
    intro j hj
    rcases List.mem_append.1 hj with hj | hj
    · have hmem : j.1 ∈ jobs.map (·.1) := List.mem_map_of_mem hj
      obtain ⟨k, k', hk, hk', hr⟩ := h.each j hj
      exact ⟨k, k', hk, (h'.others j.1 (hd _ hmem)).trans hk', hr⟩
    · have hmem : j.1 ∈ jobs'.map (·.1) := List.mem_map_of_mem hj
      obtain ⟨k, k', hk, hk', hr⟩ := h'.each j hj
      refine ⟨k, k', ?_, hk', hr⟩
      rw [← h.others j.1 fun hj' => hd _ hj' hmem]
      exact hk

/-! ### Stages -/

/-- While a frame is in progress and no other one begins, some tasks, with all that they cause, have
    tiles whose workers are as `P` says take turns by `R`, in which the outputs are offered `os`. -/
def Stage (jobs : List (Nat × Job)) (ts : List Task) (P : Job → Worker → Prop)
    (R : Job → Worker → Worker → Prop) (os : List Offer) : Prop :=
  ∀ r : Run, 0 < r.wall.presenting → r.Undisturbed ts →
    (∀ j ∈ jobs, ∃ k, r.wall.staff[j.1]? = some (some k) ∧ P j.2 k) →
    Turns jobs R os r (r.after ts)

variable {P Q : Job → Worker → Prop}

/-- One stage after the other. -/
theorem Stage.trans (h : Stage jobs ts P R os) (h' : Stage jobs us Q S os')
    (hQ : ∀ job k k', R job k k' → Q job k')
    (hT : ∀ job k k' k'', R job k k' → S job k' k'' → T job k k'') :
    Stage jobs (ts ++ us) P T (os ++ os') := by
  intro r hf hu hP
  obtain ⟨hu, hu'⟩ := hu.of_append
  have hfirst := h r hf hu hP
  have hsecond := h' (r.after ts) (by rw [hfirst.presenting_eq]; exact hf) hu' ?_
  · rw [after_append]
    exact hfirst.trans hsecond hT
  · intro j hj
    obtain ⟨k, k', -, hk', hr⟩ := hfirst.each j hj
    exact ⟨k', hk', hQ _ _ _ hr⟩

/-- The stages of single tiles, one after the other. -/
theorem Stage.flatMap {f : Nat × Job → List Task} {g : Nat × Job → Option Offer}
    (h : ∀ j, Stage [j] (f j) P R (g j).toList) (hd : (jobs.map (·.1)).Nodup) :
    Stage jobs (jobs.flatMap f) P R (jobs.filterMap g) := by
  intro r hf hu hP
  induction jobs generalizing r with
  | nil =>
    rw [List.flatMap_nil, after_nil]
    exact ⟨rfl, offers_of_events rfl, fun _ _ => rfl, List.forall_mem_nil _⟩
  | cons j js ih =>
    rw [List.map_cons, List.nodup_cons] at hd
    rw [List.forall_mem_cons] at hP
    rw [List.flatMap_cons] at hu ⊢
    obtain ⟨hu, hus⟩ := hu.of_append
    have hone := h j r hf hu (List.forall_mem_singleton.2 hP.1)
    have hrest := ih hd.2 (r.after (f j)) (by rw [hone.presenting_eq]; exact hf) hus ?_
    · have hos : (j :: js).filterMap g = (g j).toList ++ js.filterMap g := by
        cases hg : g j <;> simp [hg]
      rw [after_append, hos]
      refine hone.append hrest fun i hi => ?_
      rw [List.map_singleton, List.mem_singleton] at hi
      rw [hi]
      exact hd.1
    · intro j' hj'
      obtain ⟨k', hk', hp'⟩ := hP.2 j' hj'
      refine ⟨k', ?_, hp'⟩
      rw [hone.others, hk']
      simp only [List.map_singleton, List.mem_singleton]
      intro h
      exact hd.1 (h ▸ List.mem_map_of_mem hj')

/-- Stages that offer nothing. -/
theorem Stage.flatMap_silent {f : Nat × Job → List Task} (h : ∀ j, Stage [j] (f j) P R [])
    (hd : (jobs.map (·.1)).Nodup) : Stage jobs (jobs.flatMap f) P R [] := by
  have hnone : (jobs.filterMap fun _ => (none : Option Offer)) = [] :=
    List.filterMap_eq_nil_iff.2 fun _ _ => rfl
  rw [← hnone]
  exact Stage.flatMap h hd

end Run

/-! ### Workers at work -/

namespace Worker

/-- From `k` to `k'`, a job is handled: the layers of its window are kept, and if there are none the
    release fence stays. -/
structure Handles (k : Worker) (job : Job) (k' : Worker) : Prop where
  retained_eq : k'.retained = job.window.assign job.layers
  fence_eq : k'.retained = [] → k'.fence = k.fence

variable (k : Worker) (o : Output) (job : Job)

/-- Composing a job offers its layers to the output, if there are any. -/
theorem offers_compose (i : Nat) :
    Event.offers (((k.compose o job).2.2.call? (k.compose o job).1.retained job.upload).map
      (Event.call i)).toList = (job.offer? i).toList := by
  rw [compose_fst, compose, Job.offer?, Window.offer?, Window.assign]
  dsimp only
  cases job.layers.filter fun l => job.window.accepts l.frame with
  | nil => rfl
  | cons l ls =>
    rw [if_neg (by simp)]
    split <;> rfl

/-- A job that is composed and ended is handled: a blank one does not reach the fence. -/
theorem handles_settle (o' : Output) :
    k.Handles job ((k.compose o job).1.settle o' (k.compose o job).2.2).1 := by
  rw [compose_fst, compose]
  dsimp only
  cases h : job.window.assign job.layers with
  | nil => exact ⟨h.symm, fun _ => rfl⟩
  | cons l ls =>
    rw [if_neg (by simp)]
    rcases o.present with ⟨shown, cause | fence⟩
    all_goals
      refine ⟨h.symm, ?_⟩
      rintro ⟨⟩

end Worker

/-- A job ends at the worker that is there. -/
theorem Tile.worker_finish {t : Tile} {k : Worker} (h : t.worker = some k) (s : Submission) :
    (t.finish s).worker = some (k.settle t.output s).1 := by
  obtain ⟨o, _, script⟩ := t
  subst h
  rfl

namespace Wall

variable {w : Wall} {i : Nat}

theorem exists_tile_of_staff {k : Worker} (h : w.staff[i]? = some (some k)) :
    ∃ tile, w.tiles[i]? = some tile ∧ tile.worker = some k := by
  rw [staff, List.getElem?_map, Option.map_eq_some_iff] at h
  exact h

/-- The step in which a worker composes its only job: the job is offered, and a script may run
    before the job ends. -/
theorem exec_work {tile : Tile} {k : Worker} {job : Job} (ht : w.tiles[i]? = some tile)
    (hw : tile.worker = some k) (hq : k.queue = [job]) (mark : Nat) :
    let e := w.exec mark (.work i)
    let composed := { k with queue := [] }.compose tile.output job
    ∃ (output : Output) (script onPresent : List Op),
      e.wall = w.setTile i (fun _ => { output, worker := some composed.1, onPresent }) ∧
      e.events =
        ((composed.2.2.call? composed.1.retained job.upload).map (Event.call i)).toList ∧
      e.tasks = script.map .perform ++ [.finish i job.upload composed.2.2] := by
  have htake : tile.worker.bind Worker.take? = some (job, { k with queue := [] }) := by
    rw [hw, Option.bind_some, Worker.take?, hq]
  rcases hc : { k with queue := [] }.compose tile.output job with ⟨k₁, output, submission⟩
  rw [exec, work, ht]
  dsimp only
  rw [htake]
  dsimp only
  rw [hc]
  cases submission with
  | blank => exact ⟨_, [], _, rfl, rfl, rfl⟩
  | refused cause => exact ⟨_, [], _, rfl, rfl, rfl⟩
  | shown fence => exact ⟨_, _, _, rfl, rfl, rfl⟩

theorem staff_setTile_of_ne (f : Tile → Tile) {j : Nat} (h : i ≠ j) :
    (w.setTile i f).staff[j]? = w.staff[j]? := by
  rw [staff, staff, setTile, List.getElem?_map, List.getElem?_modify, List.getElem?_map]
  simp [h]

end Wall

namespace Run

variable {r s : Run} {i : Nat} (job : Job) {k k' : Worker} {os : List Offer}
  {R : Job → Worker → Worker → Prop}

variable {job} in
/-- A tile changes. -/
theorem turns_setTile {tile : Tile} {f : Tile → Tile} {n : Nat}
    (ht : r.wall.tiles[i]? = some tile) (hk : tile.worker = some k)
    (hw : s.wall = { r.wall.setTile i f with uploads := n }) (hk' : (f tile).worker = some k')
    (ho : Offers os r s) (hR : R job k k') : Turns [(i, job)] R os r s where
  presenting_eq := by rw [hw]; rfl
  offers := ho
  others := by
    intro j hj
    rw [List.map_singleton, List.mem_singleton] at hj
    rw [hw]
    exact Wall.staff_setTile_of_ne f (Ne.symm hj)
  each := by
    intro j hj
    rw [List.mem_singleton] at hj
    subst hj
    refine ⟨k, k', by simp [Wall.staff, ht, hk], ?_, hR⟩
    simp [hw, Wall.staff, Wall.setTile, ht, hk']

/-- The workers are left alone. -/
theorem turns_of_keeps (h : r.wall.Keeps s.wall) (ho : Offers os r s)
    (hk : r.wall.staff[i]? = some (some k)) :
    Turns [(i, job)] (fun _ k k' => k' = k) os r s where
  presenting_eq := h.presenting_eq
  offers := ho
  others := fun j _ => by rw [h.staff_eq]
  each := by
    intro j hj
    rw [List.mem_singleton] at hj
    subst hj
    exact ⟨k, k, hk, by rw [h.staff_eq, hk], rfl⟩

/-- A job ends. -/
theorem turns_finish (upload : Bool) (submission : Submission)
    (hk : r.wall.staff[i]? = some (some k)) :
    Turns [(i, job)] (fun _ k k' => ∃ o, k' = (k.settle o submission).1) [] r
      (r.after [.finish i upload submission]) := by
  obtain ⟨tile, ht, hw⟩ := Wall.exists_tile_of_staff hk
  rw [after_eq_of_tasks (by simp) rfl rfl]
  exact turns_setTile ht hw rfl (Tile.worker_finish hw submission)
    (offers_of_events (List.append_nil _)) ⟨tile.output, rfl⟩

variable (j : Nat × Job)

/-- A job is handed to a worker. -/
theorem stage_dispatch : Stage [j] [.dispatch j.1 j.2] (fun _ k => k.Idle)
    (fun job k k' => k' = { k with queue := [job] }) [] := by
  obtain ⟨i, job⟩ := j
  intro r _ _ hP
  obtain ⟨k, hk, hi⟩ := hP _ (List.mem_singleton_self _)
  obtain ⟨tile, ht, hw⟩ := Wall.exists_tile_of_staff hk
  have he : r.wall.exec r.events.length (.dispatch i job) =
      { wall := r.wall.setTile i fun t =>
          { t with worker := some { k with queue := [job] } } } := by
    rw [Wall.exec, Wall.dispatch, ht, Option.bind_some, hw]
    dsimp only
    rw [Worker.present, hi.1, if_neg Bool.false_ne_true, hi.2]
    rfl
  rw [after_eq_of_tasks (by simp) he rfl]
  exact turns_setTile ht hw rfl rfl (offers_of_events (List.append_nil _)) rfl

/-- A worker handles its job: it is composed, a script may run while the output shows the frame, and
    the job ends. -/
theorem stage_work : Stage [j] [.work j.1] (fun job k => k.queue = [job])
    (fun job k k' => k.Handles job k') (j.2.offer? j.1).toList := by
  obtain ⟨i, job⟩ := j
  intro r hf hu hP
  obtain ⟨k, hk, hq⟩ := hP _ (List.mem_singleton_self _)
  obtain ⟨tile, ht, hw⟩ := Wall.exists_tile_of_staff hk
  obtain ⟨output, script, onPresent, hwall, hevents, htasks⟩ :=
    Wall.exec_work ht hw hq r.events.length
  have hoffers := { k with queue := [] }.offers_compose tile.output job i
  have hhandles := { k with queue := [] }.handles_settle tile.output job
  generalize { k with queue := [] }.compose tile.output job = composed at *
  have hdoes := hu.does
  rw [does_eq r (by simp)] at hdoes
  rw [after_eq (by simp) rfl]
  generalize r.wall.exec r.events.length (.work i) = e at *
  rw [incur, htasks] at hdoes
  rw [htasks, after_append]
  have hcompose : Turns [(i, job)] (fun job' k' k'' => job' = job ∧ k' = k ∧ k'' = composed.1)
      (job.offer? i).toList r (r.incur e) :=
    turns_setTile ht hw hwall rfl ⟨_, rfl, hevents ▸ hoffers⟩ ⟨rfl, rfl, rfl⟩
  obtain ⟨_, _, -, hk₁, -⟩ := hcompose.each _ (List.mem_singleton_self _)
  have hplain : ∀ t ∈ script.map Task.perform, t.ofFrame = false :=
    List.forall_mem_map.2 fun _ _ => rfl
  obtain ⟨hkeeps, hnone⟩ :=
    quiet (r := r.incur e) hplain (by rw [hcompose.presenting_eq]; exact hf) hdoes.of_append.1
  have hscript := turns_of_keeps job hkeeps hnone hk₁
  obtain ⟨_, _, -, hk₂, -⟩ := hscript.each _ (List.mem_singleton_self _)
  have hfinish := turns_finish job job.upload composed.2.2 hk₂
  have hshown := hcompose.trans_silent hscript
    (T := fun job' k' k'' => job' = job ∧ k' = k ∧ k'' = composed.1) (by
      rintro _ _ _ _ h rfl
      exact h)
  refine hshown.trans_silent hfinish ?_
  rintro _ _ _ _ ⟨rfl, rfl, rfl⟩ ⟨o, rfl⟩
  exact ⟨(hhandles o).retained_eq, (hhandles o).fence_eq⟩

/-- The one who presents waits for a worker. -/
theorem stage_await : Stage [j] [.await j.1] (fun _ _ => True) (fun _ k k' => k' = k.wait) [] := by
  obtain ⟨i, job⟩ := j
  intro r _ _ hP
  obtain ⟨k, hk, -⟩ := hP _ (List.mem_singleton_self _)
  obtain ⟨tile, ht, hw⟩ := Wall.exists_tile_of_staff hk
  rw [after_eq_of_tasks (by simp) rfl rfl]
  refine turns_setTile ht hw rfl ?_ (offers_of_events (List.append_nil _)) rfl
  rw [hw]
  rfl

/-! ### Schedules -/

variable {jobs : List (Nat × Job)}

/-- Jobs that are handed out, handled and waited for are handled, all in all. -/
theorem Stage.chain {ds ws vs : List Task}
    (hd : Stage jobs ds (fun _ k => k.Idle) (fun job k k' => k' = { k with queue := [job] }) [])
    (hw : Stage jobs ws (fun job k => k.queue = [job]) (fun job k k' => k.Handles job k') os)
    (hv : Stage jobs vs (fun _ _ => True) (fun _ k k' => k' = k.wait) []) :
    Stage jobs (ds ++ (ws ++ vs)) (fun _ k => k.Idle) (fun job k k' => k.Handles job k') os := by
  have hhandled := hw.trans hv (T := fun job k k' => k.Handles job k') (fun _ _ _ _ => trivial) (by
    rintro job k k' _ ⟨hr, hfence⟩ rfl
    exact ⟨hr, hfence⟩)
  rw [List.append_nil] at hhandled
  refine hd.trans hhandled ?_ ?_
  · rintro job k _ rfl
    rfl
  · rintro job k _ k' rfl ⟨hr, hfence⟩
    exact ⟨hr, hfence⟩

/-- Whatever the order is in which a schedule hands out jobs, has them handled and waits, every job
    is handled and offered once, in the order of the jobs. -/
theorem stage_schedule (p : Pipeline) (hd : (jobs.map (·.1)).Nodup) :
    Stage jobs (Wall.schedule p jobs) (fun _ k => k.Idle) (fun job k k' => k.Handles job k')
      (jobs.filterMap fun j => j.2.offer? j.1) := by
  cases p with
  | sequential =>
    exact .flatMap (fun j => (stage_dispatch j).chain (stage_work j) (stage_await j)) hd
  | barrier =>
    rw [Wall.schedule, List.map_eq_flatMap, List.map_eq_flatMap, List.map_eq_flatMap,
      List.append_assoc]
    exact (Stage.flatMap_silent stage_dispatch hd).chain (.flatMap stage_work hd)
      (.flatMap_silent stage_await hd)

end Run

end VideoWall
