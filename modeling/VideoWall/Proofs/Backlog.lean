import VideoWall.Proofs.Registry

/-! Jobs that wait, and frames in progress.

    A frame hands every job to its worker before it has the worker handle it, and it comes to its
    end only after that. So the tasks that are left handle all jobs that wait by then or are still
    to be handed out, and there is an end left for every frame in progress. `Wall.Orderly` says so,
    and `Reached.orderly` that it holds of whatever a wall comes to. So a worker that is there has
    not exited, and when no frame is in progress, none has anything to do. -/

namespace VideoWall

namespace Task

/-! ### Loads -/

/-- How many jobs wait at a tile after some tasks, when `n` did before. -/
def loads (i n : Nat) (ts : List Task) : Nat := ts.foldl (load i) n

theorem loads_append (i n : Nat) (ts us : List Task) :
    loads i n (ts ++ us) = loads i (loads i n ts) us := List.foldl_append

theorem load_mono {i m n : Nat} (h : m ≤ n) (t : Task) : t.load i m ≤ t.load i n := by
  cases t <;> simp only [load] <;> try exact h
  all_goals
    split <;> omega

theorem loads_mono {i m n : Nat} (h : m ≤ n) (ts : List Task) : loads i m ts ≤ loads i n ts := by
  induction ts generalizing m n with
  | nil => exact h
  | cons t ts ih => exact ih (load_mono h t)

theorem load_of_isLight {t : Task} (h : t.isLight = true) (i n : Nat) : t.load i n = n := by
  cases t <;> first | rfl | cases h

theorem loads_of_isLight {ts : List Task} (h : ∀ t ∈ ts, t.isLight = true) (i n : Nat) :
    loads i n ts = n := by
  induction ts with
  | nil => rfl
  | cons t ts ih =>
    rw [loads, List.foldl_cons, load_of_isLight (h t List.mem_cons_self)]
    exact ih fun u hu => h u (List.mem_cons_of_mem _ hu)

/-- Jobs that are handed out wait at their tiles. -/
theorem loads_map_dispatch (i n : Nat) (jobs : List (Nat × Job)) :
    loads i n (jobs.map fun j => .dispatch j.1 j.2) = n + jobs.countP (·.1 == i) := by
  induction jobs generalizing n with
  | nil => rfl
  | cons j js ih =>
    rw [List.map_cons, loads, List.foldl_cons, List.countP_cons]
    refine (ih _).trans ?_
    by_cases h : j.1 = i
    · simp only [load, h, beq_self_eq_true, if_true]
      omega
    · simp [load, h]

/-- Each job that is handled waits no longer. -/
theorem loads_map_work (i n : Nat) (jobs : List (Nat × Job)) :
    loads i n (jobs.map fun j => .work j.1) = n - jobs.countP (·.1 == i) := by
  induction jobs generalizing n with
  | nil => rfl
  | cons j js ih =>
    rw [List.map_cons, loads, List.foldl_cons, List.countP_cons]
    refine (ih _).trans ?_
    by_cases h : j.1 = i
    · simp only [load, h, beq_self_eq_true, if_true]
      omega
    · simp [load, h]

/-- A schedule handles as many jobs as it hands out. -/
theorem loads_schedule (i n : Nat) (p : Pipeline) (jobs : List (Nat × Job)) :
    loads i n (Wall.schedule p jobs) = n := by
  cases p with
  | sequential =>
    induction jobs with
    | nil => rfl
    | cons j js ih =>
      have hone : loads i n [.dispatch j.1 j.2, .work j.1, .await j.1] = n := by
        by_cases h : j.1 = i
        · simp [loads, load, h]
        · simp [loads, load, h]
      rw [Wall.schedule, List.flatMap_cons, loads_append, hone]
      exact ih
  | barrier =>
    have hawait : ∀ t ∈ jobs.map (fun j => Task.await j.1), t.isLight = true := by
      intro t ht
      obtain ⟨j, -, rfl⟩ := List.mem_map.1 ht
      rfl
    show loads i n (jobs.map (fun j => .dispatch j.1 j.2) ++ jobs.map (fun j => .work j.1) ++
      jobs.map fun j => .await j.1) = n
    rw [loads_append, loads_append, loads_of_isLight hawait, loads_map_dispatch, loads_map_work,
      Nat.add_sub_cancel]

/-! ### Ends -/

/-- Whether a task is the end of a frame. -/
def isEnd : Task → Bool
  | .endFrame => true
  | _ => false

theorem isEnd_of_isLight {t : Task} (h : t.isLight = true) : t.isEnd = false := by
  cases t <;> first | rfl | cases h

theorem isEnd_of_tile? {t : Task} {i : Nat} (h : t.tile? = some i) : t.isEnd = false := by
  cases t <;> first | rfl | cases h

theorem countP_isEnd {ts : List Task} (h : ∀ t ∈ ts, t.isEnd = false) : ts.countP isEnd = 0 :=
  List.countP_eq_zero.2 fun t ht => by rw [h t ht]; exact Bool.false_ne_true

/-- Wherever a job is still to be handled, the frame is still to end. -/
def Ended : List Task → Prop
  | [] => True
  | t :: ts => (∀ i, t = .work i → .endFrame ∈ ts) ∧ Ended ts

theorem ended_append_of_isLight {ts us : List Task} (h : ∀ t ∈ ts, t.isLight = true)
    (hu : Ended us) : Ended (ts ++ us) := by
  induction ts with
  | nil => exact hu
  | cons t ts ih =>
    refine ⟨?_, ih fun u hm => h u (List.mem_cons_of_mem _ hm)⟩
    rintro i rfl
    cases h _ List.mem_cons_self

/-- A frame that ends before anything else is done. -/
theorem ended_append_endFrame (ts : List Task) {us : List Task} (hu : Ended us) :
    Ended (ts ++ [.endFrame] ++ us) := by
  rw [List.append_assoc]
  induction ts with
  | nil =>
    refine ⟨?_, hu⟩
    rintro i ⟨⟩
  | cons t ts ih => exact ⟨fun _ _ => List.mem_append_right ts List.mem_cons_self, ih⟩

/-- Without an end left, no job is left to be handled, so that none is waiting. -/
theorem le_loads {ts : List Task} (h : Ended ts) (he : .endFrame ∉ ts) (i n : Nat) :
    n ≤ loads i n ts := by
  induction ts generalizing n with
  | nil => exact Nat.le_refl n
  | cons t ts ih =>
    rw [List.mem_cons, not_or] at he
    have hload : n ≤ t.load i n := by
      cases t with
      | work j => exact absurd (h.1 j rfl) he.2
      | dispatch j job =>
        rw [load]
        split <;> omega
      | _ => exact Nat.le_refl n
    exact Nat.le_trans hload (ih h.2 he.2 _)

end Task

/-- A worker that has nothing to do and takes jobs. -/
def Worker.Idle (k : Worker) : Prop := k.exited = false ∧ k.queue = []

namespace Wall

variable {w v : Wall}

/-! ### What waits -/

/-- From `w` to `v`, every worker has nothing to do, or was there before and has been brought at
    most as many jobs as a task with this load brings. -/
def Burdens (load : Nat → Nat → Nat) (w v : Wall) : Prop :=
  ∀ (i : Nat) (k' : Worker), v.staff[i]? = some (some k') →
    k'.Idle ∨ ∃ k, w.staff[i]? = some (some k) ∧ k.Serves (load i k.queue.length) k'

theorem Keeps.burdens (h : w.Keeps v) : w.Burdens (fun _ n => n) v := by
  intro i k hk
  rw [h.staff_eq] at hk
  exact .inr ⟨k, hk, rfl, Nat.le_refl _⟩

theorem Ends.burdens {load : Nat → Nat → Nat} (h : w.Ends v) : w.Burdens load v := by
  intro i k hk
  rw [h.staff_eq, List.getElem?_map, Option.map_eq_some_iff] at hk
  obtain ⟨_, -, hk⟩ := hk
  cases hk

/-- A task of a frame burdens the worker that it is about. -/
theorem Serves.burdens {t : Task} {i : Nat} (ht : t.tile? = some i) (h : Serves t i w v) :
    w.Burdens (fun i n => t.load i n) v := by
  obtain ⟨f, n, rfl, hf⟩ := h.change
  intro j k' hk
  rw [staff, List.getElem?_map, setTile, List.getElem?_modify] at hk
  obtain ⟨tile', htile', hk⟩ := Option.map_eq_some_iff.1 hk
  obtain ⟨tile, htile, rfl⟩ := Option.map_eq_some_iff.1 htile'
  have hstaff : w.staff[j]? = some tile.worker := by rw [staff, List.getElem?_map, htile]; rfl
  refine .inr ?_
  by_cases hij : i = j
  · subst hij
    have hrel := (hf tile htile).2
    rw [if_pos rfl] at hk
    rw [hk] at hrel
    rw [hstaff]
    generalize tile.worker = a at hrel
    cases hrel with
    | some hserves => exact ⟨_, rfl, hserves⟩
  · rw [if_neg hij] at hk
    have hload : ∀ n, t.load j n = n := by
      intro n
      cases t <;> cases ht <;> simp [Task.load, hij]
    exact ⟨k', by rw [hstaff, hk], rfl, Nat.le_of_eq (hload _).symm⟩

/-- New workers have nothing to do. -/
theorem burdens_reconcile (w : Wall) (c : Controller) :
    w.Burdens (fun _ n => n) (w.reconcile c) := by
  cases hs : c.stale with
  | false =>
    rw [reconcile_of_not_stale hs]
    exact (Keeps.refl w).burdens
  | true =>
    intro i k' hk
    rw [staff, List.getElem?_map, tiles_reconcile hs, List.getElem?_mapIdx, Option.map_map] at hk
    obtain ⟨tile, htile, hk⟩ := Option.map_eq_some_iff.1 hk
    have hstaff : w.staff[i]? = some tile.worker := by rw [staff, List.getElem?_map, htile]; rfl
    have hm := tile.matches_reconcile i
    rw [Function.comp_apply] at hk
    generalize tile.reconcile i = tile' at hm hk
    cases hm with
    | kept _ hc hw => exact .inr ⟨k', by rw [hstaff, hk], rfl, Nat.le_refl _⟩
    | started hc hw =>
      cases hk
      exact .inl ⟨rfl, rfl⟩
    | retired k hc hw => cases hk
    | without hc hw =>
      rw [hw] at hk
      cases hk

/-- A step burdens the workers as its task does. -/
theorem burdens_exec (mark : Nat) (t : Task) :
    w.Burdens (fun i n => t.load i n) (w.exec mark t).wall := by
  cases t with
  | perform op =>
    cases hb : w.beginsFrame op with
    | true =>
      obtain ⟨layers, upload, c, rfl, hh, hc, hp⟩ := exists_of_beginsFrame hb
      show w.Burdens _ (w.begin mark (.present layers upload)).wall
      rw [begin_present hh hc hp]
      exact w.burdens_reconcile c
    | false => exact (plain_begin mark hb).wall.elim Keeps.burdens Ends.burdens
  | dispatch i job => exact (serves_exec mark rfl).1.burdens rfl
  | work i => exact (serves_exec mark rfl).1.burdens rfl
  | finish i upload s => exact (serves_exec mark rfl).1.burdens rfl
  | await i => exact (serves_exec mark rfl).1.burdens rfl
  | endFrame =>
    have hb : Burdens (fun _ n => n) { w with presenting := w.presenting - 1 } _ :=
      (keeps_or_ends_settle _).elim Keeps.burdens Ends.burdens
    exact hb
  | group => exact (Keeps.refl w).burdens
  | report | deliver | leave | arrive | poll | item | arm =>
    exact (plain_exec mark rfl (by simp)).wall.elim Keeps.burdens Ends.burdens

/-- How many jobs wait at a tile. -/
def waiting (w : Wall) (i : Nat) : Nat :=
  match w.staff[i]? with
  | some (some k) => k.queue.length
  | _ => 0

/-- No worker that is there has exited. -/
def Serving (w : Wall) : Prop := ∀ (i : Nat) (k : Worker), w.staff[i]? = some (some k) →
  k.exited = false

theorem Burdens.serving {load : Nat → Nat → Nat} (h : w.Burdens load v) (hw : w.Serving) :
    v.Serving := by
  intro i k' hk
  rcases h i k' hk with ⟨hx, -⟩ | ⟨k, hk, hs⟩
  · exact hx
  · exact hs.exited_eq.trans (hw i k hk)

theorem Burdens.waiting_le {load : Nat → Nat → Nat} (h : w.Burdens load v) (i : Nat) :
    v.waiting i ≤ load i (w.waiting i) := by
  rw [waiting]
  split
  · next k' hk =>
    rcases h i k' hk with ⟨-, hq⟩ | ⟨k, hk, hs⟩
    · rw [hq]
      exact Nat.zero_le _
    · rw [waiting, hk]
      exact hs.queue_le
  · exact Nat.zero_le _

/-- No worker has exited, the tasks that are left handle all jobs that wait, and every frame in
    progress is still to end. -/
structure Orderly (w : Wall) (ts : List Task) : Prop where
  serving : w.Serving
  waiting_eq_zero : ∀ i, Task.loads i (w.waiting i) ts = 0
  ended : Task.Ended ts
  presenting_eq : w.presenting = ts.countP Task.isEnd

/-- Without a frame in progress, none is left to end. -/
theorem Orderly.endFrame_not_mem {ts : List Task} (h : w.Orderly ts) (hp : w.presenting = 0) :
    .endFrame ∉ ts := by
  intro hmem
  have hpos : 0 < ts.countP Task.isEnd := List.countP_pos_iff.2 ⟨_, hmem, rfl⟩
  rw [← h.presenting_eq, hp] at hpos
  exact Nat.lt_irrefl 0 hpos

/-- Without a frame in progress, no job waits. -/
theorem Orderly.waiting_eq {ts : List Task} (h : w.Orderly ts) (hp : w.presenting = 0) (i : Nat) :
    w.waiting i = 0 := by
  have hle := Task.le_loads h.ended (h.endFrame_not_mem hp) i (w.waiting i)
  exact Nat.le_zero.1 (h.waiting_eq_zero i ▸ hle)

/-- A worker that is there as a frame begins, with no other frame in progress, has nothing to do. -/
theorem Orderly.idle_reconcile {ts : List Task} (h : w.Orderly ts) (hf : w.presenting = 0)
    (c : Controller) {i : Nat} {k : Worker} (hk : (w.reconcile c).staff[i]? = some (some k)) :
    k.Idle := by
  rcases w.burdens_reconcile c i k hk with hidle | ⟨k₀, hk₀, hs⟩
  · exact hidle
  · have hw : k₀.queue.length = 0 := by
      have hw := h.waiting_eq hf i
      rwa [waiting, hk₀] at hw
    have hq : k.queue.length ≤ k₀.queue.length := hs.queue_le
    rw [hw, Nat.le_zero, List.length_eq_zero_iff] at hq
    exact ⟨hs.exited_eq.trans (h.serving i k₀ hk₀), hq⟩

/-- A task is done. -/
theorem Orderly.step {t : Task} {ts : List Task} (h : w.Orderly (t :: ts))
    (hb : w.Burdens (fun i n => t.load i n) v)
    (hp : v.presenting = w.presenting - if t.isEnd then 1 else 0) : v.Orderly ts where
  serving := hb.serving h.serving
  waiting_eq_zero := fun i =>
    Nat.le_zero.1 (h.waiting_eq_zero i ▸ Task.loads_mono (hb.waiting_le i) ts)
  ended := h.ended.2
  presenting_eq := by
    rw [hp, h.presenting_eq, List.countP_cons, Nat.add_sub_cancel]

/-- Something happens that brings no job. -/
theorem Orderly.of_burdens {ts : List Task} (h : w.Orderly ts) (hb : w.Burdens (fun _ n => n) v)
    (hp : v.presenting = w.presenting) : v.Orderly ts where
  serving := hb.serving h.serving
  waiting_eq_zero := fun i =>
    Nat.le_zero.1 (h.waiting_eq_zero i ▸ Task.loads_mono (hb.waiting_le i) ts)
  ended := h.ended
  presenting_eq := hp.trans h.presenting_eq

/-- Tasks that have nothing to do with jobs come first. -/
theorem Orderly.append_of_isLight {us ts : List Task} (h : w.Orderly ts)
    (hu : ∀ t ∈ us, t.isLight = true) : w.Orderly (us ++ ts) where
  serving := h.serving
  waiting_eq_zero := fun i => by
    rw [Task.loads_append, Task.loads_of_isLight hu, h.waiting_eq_zero]
  ended := Task.ended_append_of_isLight hu h.ended
  presenting_eq := by
    have hnone : us.countP Task.isEnd = 0 :=
      Task.countP_isEnd fun t ht => Task.isEnd_of_isLight (hu t ht)
    rw [List.countP_append, hnone, Nat.zero_add, h.presenting_eq]

/-- A frame begins. -/
theorem Orderly.append_schedule {ts us : List Task} (h : w.Orderly ts)
    (hb : w.Burdens (fun _ n => n) v) (hp : v.presenting = w.presenting + 1) (p : Pipeline)
    (jobs : List (Nat × Job)) (hu : ∀ t ∈ us, t.isLight = true) :
    v.Orderly (schedule p jobs ++ us ++ [.endFrame] ++ ts) where
  serving := hb.serving h.serving
  waiting_eq_zero := fun i => by
    rw [Task.loads_append, Task.loads_append, Task.loads_append, Task.loads_schedule,
      Task.loads_of_isLight hu]
    exact Nat.le_zero.1 (h.waiting_eq_zero i ▸ Task.loads_mono (hb.waiting_le i) ts)
  ended := Task.ended_append_endFrame _ h.ended
  presenting_eq := by
    have hnone : (schedule p jobs ++ us).countP Task.isEnd = 0 := by
      refine Task.countP_isEnd fun t ht => ?_
      rcases List.mem_append.1 ht with ht | ht
      · obtain ⟨i, hi⟩ := exists_tile_of_mem_schedule ht
        exact Task.isEnd_of_tile? hi
      · exact Task.isEnd_of_isLight (hu t ht)
    rw [List.countP_append, List.countP_append, hnone, hp, h.presenting_eq, Nat.zero_add,
      Nat.add_comm]
    rfl

/-! ### Steps and runs -/

/-- What an operation leaves to do: things that have nothing to do with jobs, or a frame. -/
theorem Orderly.begin {ts : List Task} (h : w.Orderly ts) (mark : Nat) (op : Op) :
    (w.begin mark op).wall.Orderly ((w.begin mark op).tasks ++ ts) := by
  cases hb : w.beginsFrame op with
  | true =>
    obtain ⟨layers, upload, c, rfl, hh, hc, hp⟩ := exists_of_beginsFrame hb
    rw [begin_present hh hc hp]
    refine h.append_schedule (v := { w.reconcile c with presenting := w.presenting + 1 })
      (w.burdens_reconcile c) rfl _ _ fun t ht => ?_
    split at ht
    · cases ht
    · rw [List.mem_singleton.1 ht]
      rfl
  | false =>
    have hplain := plain_begin mark hb
    refine Orderly.append_of_isLight ?_ fun t ht => Task.isLight_of_ofFrame (hplain.tasks t ht)
    exact h.of_burdens (hplain.wall.elim Keeps.burdens Ends.burdens)
      (hplain.wall.elim Keeps.presenting_eq Ends.presenting_eq)

/-- Whatever the next task is, what it leaves behind keeps the wall orderly. -/
theorem Orderly.exec {t : Task} {ts : List Task} (h : w.Orderly (t :: ts)) (mark : Nat) :
    (w.exec mark t).wall.Orderly ((w.exec mark t).tasks ++ ts) := by
  have hplain : t.ofFrame = false → (∀ op, t ≠ .perform op) →
      (w.exec mark t).wall.Orderly ((w.exec mark t).tasks ++ ts) := by
    intro ht hop
    have hp := plain_exec (w := w) mark ht fun op he => absurd he (hop op)
    refine Orderly.append_of_isLight ?_ fun u hu => Task.isLight_of_ofFrame (hp.tasks u hu)
    refine h.step (burdens_exec mark t) ?_
    rw [Task.isEnd_of_isLight (Task.isLight_of_ofFrame ht), if_neg Bool.false_ne_true, Nat.sub_zero]
    exact hp.wall.elim Keeps.presenting_eq Ends.presenting_eq
  have hserves : ∀ i, t.tile? = some i →
      (w.exec mark t).wall.Orderly ((w.exec mark t).tasks ++ ts) := by
    intro i hi
    obtain ⟨hs, hlight⟩ := serves_exec (w := w) mark hi
    refine Orderly.append_of_isLight (h.step (hs.burdens hi) ?_) hlight
    obtain ⟨f, n, hv, -⟩ := hs.change
    rw [Task.isEnd_of_tile? hi, if_neg Bool.false_ne_true, hv]
    rfl
  cases t with
  | perform op =>
    have hrest : w.Orderly ts := h.step (Keeps.refl w).burdens rfl
    have hreport : w.Orderly ([.report op (w.begin mark op).reply] ++ ts) := by
      refine hrest.append_of_isLight fun u hu => ?_
      rw [List.mem_singleton.1 hu]
      rfl
    show (w.begin mark op).wall.Orderly (((w.begin mark op).tasks ++ [.report op _]) ++ ts)
    rw [List.append_assoc]
    exact hreport.begin mark op
  | dispatch i job => exact hserves i rfl
  | work i => exact hserves i rfl
  | finish i upload s => exact hserves i rfl
  | await i => exact hserves i rfl
  | endFrame =>
    refine h.step (burdens_exec mark .endFrame) ?_
    exact (keeps_or_ends_settle { w with presenting := w.presenting - 1 }).elim
      Keeps.presenting_eq Ends.presenting_eq
  | group => exact h.step (Keeps.refl w).burdens rfl
  | report | deliver | leave | arrive | poll | item | arm => exact hplain rfl (by simp)

end Wall

/-- Whatever a wall comes to is orderly. -/
theorem Reached.orderly {t : Tracked} (h : Reached t) : t.run.wall.Orderly t.run.tasks := by
  refine h.invariant (P := Wall.Orderly) ?_ ?_ ?_ fun _ mark _ _ ho => ho.exec mark
  · intro outputs policy
    have hstaff : ∀ (i : Nat) (k : Worker),
        (Wall.create outputs policy).staff[i]? ≠ some (some k) := by
      intro i k hk
      simp [Wall.create, Wall.staff] at hk
    refine ⟨fun i k hk => absurd hk (hstaff i k), fun i => ?_, trivial, rfl⟩
    show (Wall.create outputs policy).waiting i = 0
    rw [Wall.waiting]
    split
    · next k hk => exact absurd hk (hstaff i k)
    · rfl
  · intro w tiles ho
    have hlight : ∀ u ∈ tiles.map Task.poll, u.isLight = true :=
      List.forall_mem_map.2 fun _ _ => rfl
    have hpolls := ho.append_of_isLight hlight
    rwa [List.append_nil] at hpolls
  · intro w mark op ho
    have hbegin := ho.begin mark op
    rwa [List.append_nil] at hbegin

/-- When nothing is left to do, no frame is in progress. -/
theorem Reached.presenting_eq_zero {t : Tracked} (h : Reached t) (hr : t.run.isAtRest = true) :
    t.run.wall.presenting = 0 := by
  rw [Run.isAtRest, Bool.and_eq_true, List.isEmpty_iff] at hr
  rw [h.orderly.presenting_eq, hr.1]
  rfl

end VideoWall
