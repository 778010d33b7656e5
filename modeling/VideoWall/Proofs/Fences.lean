import VideoWall.Proofs.Backlog
import VideoWall.Proofs.Chronicle
import VideoWall.Proofs.Custody
import VideoWall.Proofs.Service

/-! Who holds the fences of a wall's outputs.

    On a wall a worker composes a job in one step and ends it in a later one. In between its fence
    is on its way, and anything may happen to the worker: scripts run while the output shows the
    frame. `Wall.Accounted` says that all fences that are alive are with a worker or on their way to
    one, and `Wall.Brings.fences_held` that this is so of whatever a wall comes to, so that none is
    lost and none is let go too early. `Wall.Handed` says that workers compose the jobs that they
    are handed, all of them and in that order. -/

namespace VideoWall

/-! ### Fences on their way -/

namespace Task

variable {i j : Nat} {upload : Bool} {submission : Submission}

theorem fence?_finish_self :
    (Task.finish i upload submission).fence? i = submission.shown?.join := by
  cases submission with
  | shown fence => exact if_pos rfl
  | _ => rfl

theorem fence?_finish_of_ne (h : i ≠ j) : (Task.finish i upload submission).fence? j = none := by
  cases submission with
  | shown fence => exact if_neg h
  | _ => rfl

end Task

/-! ### Tiles -/

/-- What is held of a tile's output: only its worker holds fences of it, but for those to come. -/
def Tile.Accounted (coming : List Fence) (s : Service) (t : Tile) : Prop :=
  match t.worker with
  | none => t.output.live.Perm coming
  | some k => k.Carries coming s t.output

namespace Tile

variable {t u : Tile} {k : Worker} {s s' : Service} {coming : List Fence}

theorem accounted_of_none (h : t.worker = none) :
    t.Accounted coming s ↔ t.output.live.Perm coming := by rw [Accounted, h]

theorem accounted_of_some (h : t.worker = some k) :
    t.Accounted coming s ↔ k.Carries coming s t.output := by rw [Accounted, h]

/-- Only the holdings matter, and what they are by the service of a worker that is there. -/
theorem Accounted.congr (h : t.Accounted coming s) (heq : u.holdings = t.holdings)
    (hs : t.worker.isSome → s'.holds = s.holds) : u.Accounted coming s' := by
  obtain ⟨hlive, hworker⟩ := Prod.mk.inj heq
  cases ht : t.worker with
  | none =>
    rw [accounted_of_none ht] at h
    rw [ht, Option.map_none, Option.map_eq_none_iff] at hworker
    rw [accounted_of_none hworker, hlive]
    exact h
  | some k =>
    rw [accounted_of_some ht] at h
    rw [ht, Option.map_some, Option.map_eq_some_iff] at hworker
    obtain ⟨k', hk', heq'⟩ := hworker
    obtain ⟨hfence, hretained⟩ := Prod.mk.inj heq'
    obtain ⟨hfence', hlayers⟩ := Prod.mk.inj (hs (by rw [ht]; rfl))
    rw [accounted_of_some hk']
    exact ⟨by rw [hlive, hfence]; exact h.live, hfence.trans (h.fence_eq.trans hfence'.symm),
      hretained.trans (h.retained_eq.trans hlayers.symm)⟩

/-- A worker that retires lets its fence go. -/
theorem Accounted.retire (h : t.Accounted coming s) : t.retire.Accounted coming s' := by
  rw [Tile.retire]
  cases ht : t.worker with
  | none => exact (accounted_of_none ht).2 ((accounted_of_none ht).1 h)
  | some k => exact (accounted_of_none rfl).2 ((accounted_of_some ht).1 h).retire

/-- A new worker holds nothing. -/
theorem Accounted.reconcile (h : t.Accounted coming s) (i : Nat)
    (hs : s' = if t.worker.isSome then s else {}) : (t.reconcile i).Accounted coming s' := by
  rw [Tile.reconcile]
  split
  · cases ht : t.worker with
    | none =>
      rw [ht, Option.isSome_none, if_neg Bool.false_ne_true] at hs
      rw [hs]
      have hlive := (accounted_of_none ht).1 h
      exact (accounted_of_some (k := { id := ⟨i⟩ }) rfl).2 ⟨hlive, rfl, rfl⟩
    | some k =>
      rw [ht, Option.isSome_some, if_pos rfl] at hs
      rw [hs]
      exact (accounted_of_some rfl).2 ((accounted_of_some ht).1 h)
  · exact h.retire

/-- A job ends, whether or not the worker is still there. -/
theorem Accounted.finish (submission : Submission)
    (h : t.Accounted ((submission.shown?.join).toList ++ coming) s)
    (hs : t.worker.isSome → s' = s.ends submission) :
    (t.finish submission).Accounted coming s' := by
  obtain ⟨o, worker, script⟩ := t
  cases worker with
  | none =>
    cases submission with
    | shown fence =>
      exact (accounted_of_none rfl).2 (Output.live_release ((accounted_of_none rfl).1 h))
    | _ => exact h
  | some k =>
    rw [hs rfl]
    exact (accounted_of_some rfl).2 (Worker.Carries.settle submission h)

/-- What the worker of a tile has composed, and then what waits, is what it was handed, in that
    order. -/
def Handed (s : Service) (t : Tile) : Prop :=
  ∀ k, t.worker = some k → k.exited = false ∧ s.jobs ++ k.queue = s.handed

theorem handed_of_none (h : t.worker = none) : t.Handed s := by
  intro k hk
  cases h.symm.trans hk

theorem handed_of_some (hk : t.worker = some k) (hx : k.exited = false)
    (h : s.jobs ++ k.queue = s.handed) : t.Handed s := by
  intro k' hk'
  obtain rfl := Option.some.inj (hk.symm.trans hk')
  exact ⟨hx, h⟩

theorem Handed.congr (h : t.Handed s) (hw : u.worker = t.worker)
    (hs : t.worker.isSome → s' = s) : u.Handed s' := by
  intro k hk
  rw [hw] at hk
  rw [hs (by rw [hk]; rfl)]
  exact h k hk

theorem handed_retire (t : Tile) (s : Service) : t.retire.Handed s := by
  refine handed_of_none ?_
  rw [Tile.retire]
  split
  · assumption
  · rfl

/-- Nothing was handed to a new worker. -/
theorem Handed.reconcile (h : t.Handed s) (i : Nat)
    (hs : s' = if t.worker.isSome then s else {}) : (t.reconcile i).Handed s' := by
  rw [Tile.reconcile]
  split
  · cases ht : t.worker with
    | none =>
      rw [ht, Option.isSome_none, if_neg Bool.false_ne_true] at hs
      rw [hs]
      exact handed_of_some rfl rfl rfl
    | some k =>
      rw [ht, Option.isSome_some, if_pos rfl] at hs
      rw [hs]
      exact handed_of_some rfl (h k ht).1 (h k ht).2
  · exact t.handed_retire s'

/-- A job that ends was composed before. -/
theorem Handed.finish (h : t.Handed s) (submission : Submission) :
    (t.finish submission).Handed (s.ends submission) := by
  cases hk : t.worker with
  | none => exact handed_of_none (t.worker_finish_of_none hk submission)
  | some k =>
    obtain ⟨hx, hjobs⟩ := h k hk
    obtain ⟨o, _, script⟩ := t
    subst hk
    cases submission <;> exact handed_of_some rfl hx hjobs

end Tile

/-! ### Walls -/

namespace Wall

/-- What the workers of a wall have done, by tile. A worker that comes has done nothing. -/
def serve (w : Wall) (t : Task) (s : Nat → Service) (i : Nat) : Service :=
  if (w.tiles[i]?.bind (·.worker)).isSome then
    match t with
    | .dispatch j job => if j = i then (s i).hands job else s i
    | .work j => if j = i then (w.nextJob? i).elim (s i) (s i).takes else s i
    | .finish j _ submission => if j = i then (s i).ends submission else s i
    | _ => s i
  else {}

/-- All fences that are alive are accounted for. -/
def Accounted (w : Wall) (ts : List Task) (s : Nat → Service) : Prop :=
  ∀ (i : Nat) (t : Tile), w.tiles[i]? = some t → t.Accounted (Task.fences i ts) (s i)

variable {w v : Wall} {t : Task} {ts us : List Task} {s s' : Nat → Service}

theorem serve_of_isSome {i : Nat} (hi : (w.tiles[i]?.bind (·.worker)).isSome) :
    w.serve t s i =
      match t with
      | .dispatch j job => if j = i then (s i).hands job else s i
      | .work j => if j = i then (w.nextJob? i).elim (s i) (s i).takes else s i
      | .finish j _ submission => if j = i then (s i).ends submission else s i
      | _ => s i := if_pos hi

/-- A task of a frame is about one tile. -/
theorem serve_of_ne {i j : Nat} (ht : t.tile? = some i) (hij : i ≠ j)
    (hj : (w.tiles[j]?.bind (·.worker)).isSome) : w.serve t s j = s j := by
  rw [serve_of_isSome hj]
  cases t <;> cases ht <;> first | rfl | exact if_neg hij

theorem serve_work {i : Nat} {u : Tile} {k k' : Worker} {job : Job} (hu : w.tiles[i]? = some u)
    (hk : u.worker = some k) (htake : k.take? = some (job, k')) :
    w.serve (.work i) s i = (s i).takes job := by
  rw [serve_of_isSome (by rw [hu, Option.bind_some, hk]; rfl)]
  dsimp only
  rw [if_pos rfl, nextJob?, hu, Option.bind_some, hk, Option.bind_some, htake]
  rfl

/-- Without a job nothing is handled. -/
theorem serve_work_of_none {i j : Nat} (hnone : w.nextJob? i = none)
    (hj : (w.tiles[j]?.bind (·.worker)).isSome) : w.serve (.work i) s j = s j := by
  by_cases hij : i = j
  · subst hij
    rw [serve_of_isSome hj]
    dsimp only
    rw [if_pos rfl, hnone]
    rfl
  · exact serve_of_ne rfl hij hj

theorem serve_finish {i : Nat} {upload : Bool} {submission : Submission}
    (hi : (w.tiles[i]?.bind (·.worker)).isSome) :
    w.serve (.finish i upload submission) s i = (s i).ends submission :=
  (serve_of_isSome hi).trans (if_pos rfl)

/-- What is true of every tile, when one of them changes. -/
theorem forall_setTile {P Q : Nat → Tile → Prop} {i : Nat} {f : Tile → Tile}
    (h : ∀ j u, w.tiles[j]? = some u → P j u)
    (hother : ∀ j u, i ≠ j → w.tiles[j]? = some u → P j u → Q j u)
    (hf : ∀ u, w.tiles[i]? = some u → Q i (f u)) :
    ∀ j u, (w.setTile i f).tiles[j]? = some u → Q j u := by
  intro j u hu
  rw [Wall.setTile, List.getElem?_modify] at hu
  obtain ⟨u₀, hu₀, rfl⟩ := Option.map_eq_some_iff.1 hu
  by_cases hij : i = j
  · subst hij
    rw [if_pos rfl]
    exact hf u₀ hu₀
  · rw [if_neg hij]
    exact hother j u₀ hij hu₀ (h j u₀ hu₀)

/-- What is true of every tile, when a frame begins. -/
theorem forall_reconcile {P Q : Nat → Tile → Prop} (h : ∀ i u, w.tiles[i]? = some u → P i u)
    (c : Controller) (hkeep : ∀ i u, w.tiles[i]? = some u → P i u → Q i u)
    (hmatch : ∀ i u, w.tiles[i]? = some u → P i u → Q i (u.reconcile i)) :
    ∀ i u, (w.reconcile c).tiles[i]? = some u → Q i u := by
  intro i u hu
  cases hst : c.stale with
  | false =>
    rw [reconcile_of_not_stale hst] at hu
    exact hkeep i u hu (h i u hu)
  | true =>
    rw [tiles_reconcile hst, List.getElem?_mapIdx] at hu
    obtain ⟨u₀, hu₀, rfl⟩ := Option.map_eq_some_iff.1 hu
    exact hmatch i u₀ hu₀ (h i u₀ hu₀)

/-- The tiles keep their holdings, and no fence comes or goes. -/
theorem Accounted.keep (h : w.Accounted (t :: ts) s) (hw : v.holdings = w.holdings)
    (hts : ∀ i, Task.fences i (us ++ ts) = Task.fences i (t :: ts))
    (hs : ∀ i, (w.tiles[i]?.bind (·.worker)).isSome → (s' i).holds = (s i).holds) :
    v.Accounted (us ++ ts) s' := by
  intro i u hu
  have hget : w.tiles[i]?.map Tile.holdings = some u.holdings := by
    rw [← List.getElem?_map, show w.tiles.map Tile.holdings = v.holdings from hw.symm, holdings,
      List.getElem?_map, hu]
    rfl
  obtain ⟨u₀, hu₀, heq⟩ := Option.map_eq_some_iff.1 hget
  rw [hts]
  refine (h i u₀ hu₀).congr heq.symm fun hk => hs i ?_
  rw [hu₀]
  exact hk

/-- One tile changes. -/
theorem Accounted.setTile {i : Nat} {f : Tile → Tile} (h : w.Accounted (t :: ts) s)
    (hts : ∀ j, i ≠ j → Task.fences j (us ++ ts) = Task.fences j (t :: ts))
    (hs : ∀ j, i ≠ j → (w.tiles[j]?.bind (·.worker)).isSome → (s' j).holds = (s j).holds)
    (hf : ∀ u, w.tiles[i]? = some u → (f u).Accounted (Task.fences i (us ++ ts)) (s' i)) :
    (w.setTile i f).Accounted (us ++ ts) s' := by
  refine forall_setTile h (fun j u hij hu hacc => ?_) hf
  rw [hts j hij]
  refine hacc.congr rfl fun hk => hs j hij ?_
  rw [hu]
  exact hk

/-- The end of a call, of a frame, or of the host's interest. -/
theorem Accounted.settle (h : w.Accounted ts s)
    (hs : ∀ i, (w.tiles[i]?.bind (·.worker)).isSome → (s' i).holds = (s i).holds) :
    w.settle.Accounted ts s' := by
  rcases w.settle_cases with ⟨hw, -⟩ | hw
  · rw [hw]
    intro i u hu
    refine (h i u hu).congr rfl fun hk => hs i ?_
    rw [hu]
    exact hk
  · rw [hw]
    intro i u hu
    rw [dissolve, List.getElem?_map] at hu
    obtain ⟨u₀, hu₀, rfl⟩ := Option.map_eq_some_iff.1 hu
    exact (h i u₀ hu₀).retire

/-- A worker composes its next job, or there is none. -/
theorem Accounted.work {i : Nat} (h : w.Accounted (.work i :: ts) s) :
    (w.work i).wall.Accounted ((w.work i).tasks ++ ts) (w.serve (.work i) s) := by
  rcases w.work_cases i with ⟨hw, hnone⟩ | ⟨u, k, job, k', hu, hk, htake, script, _, _, hw, -⟩
  · rw [hw]
    exact h.keep rfl (fun _ => rfl) fun j hj => congrArg Service.holds (serve_work_of_none hnone hj)
  · have hnone : ∀ j, Task.fences j (script.map Task.perform) = [] :=
      Task.fences_of_aside (Task.isAside_map_perform script)
    rw [hw]
    refine h.setTile (fun j hij => ?_)
      (fun j hij hj => congrArg Service.holds (serve_of_ne rfl hij hj)) fun u' hu' => ?_
    · rw [List.append_assoc, Task.fences_append, hnone, List.nil_append, List.singleton_append,
        Task.fences_cons, Task.fence?_finish_of_ne hij]
      rfl
    · obtain rfl := Option.some.inj (hu.symm.trans hu')
      have hcarries := ((Tile.accounted_of_some hk).1 (h i u hu)).compose htake
      rw [serve_work hu hk htake, List.append_assoc, Task.fences_append, hnone, List.nil_append,
        List.singleton_append, Task.fences_cons, Task.fence?_finish_self]
      exact (Tile.accounted_of_some rfl).2 hcarries

/-- A job ends. -/
theorem Accounted.finish {i : Nat} {upload : Bool} {submission : Submission}
    (h : w.Accounted (.finish i upload submission :: ts) s) :
    (w.finish i upload submission).wall.Accounted ts
      (w.serve (.finish i upload submission) s) := by
  rw [← List.nil_append ts]
  refine Accounted.setTile (w := { w with uploads := w.uploads + submission.uploads upload })
    h (fun j hij => ?_) (fun j hij hj => ?_) fun u hu => ?_
  · rw [List.nil_append, Task.fences_cons, Task.fence?_finish_of_ne hij]
    rfl
  · exact congrArg Service.holds (serve_of_ne (w := w) rfl hij hj)
  · have hi := h i u hu
    rw [Task.fences_cons, Task.fence?_finish_self] at hi
    refine hi.finish submission fun hk => serve_finish ?_
    rw [show w.tiles[i]? = some u from hu]
    exact hk

/-- A frame begins: workers come and go with the connected outputs. -/
theorem Accounted.reconcile (h : w.Accounted ts s) (c : Controller)
    (hs : ∀ i, s' i = if (w.tiles[i]?.bind (·.worker)).isSome then s i else {}) :
    (w.reconcile c).Accounted ts s' := by
  refine forall_reconcile h c (fun i u hu hacc => ?_) fun i u hu hacc => ?_
  · refine hacc.congr rfl fun hk => ?_
    rw [hs, hu, Option.bind_some, if_pos hk]
  · refine hacc.reconcile i ?_
    rw [hs, hu, Option.bind_some]

/-- Whatever the next task is. -/
theorem Accounted.exec (h : w.Accounted (t :: ts) s) (mark : Nat) :
    (w.exec mark t).wall.Accounted ((w.exec mark t).tasks ++ ts) (w.serve t s) := by
  cases htouch : w.touches t with
  | false =>
    have hm := w.minds_exec mark htouch
    refine h.keep hm.holdings_eq (fun i => ?_) fun i hk => ?_
    · rw [Task.fences_append, hm.fences_eq, Task.fences_cons]
      cases t <;> first | rfl | cases htouch
    · rw [serve_of_isSome hk]
      cases t with
      | dispatch j job =>
        dsimp only
        split <;> rfl
      | _ => first | rfl | cases htouch
  | true =>
    cases t with
    | leave =>
      have hts : w.Accounted ts s := h
      exact hts.settle (w := { w with delivering := w.delivering - 1 })
        fun i hi => congrArg Service.holds (serve_of_isSome (w := w) hi)
    | endFrame =>
      have hts : w.Accounted ts s := h
      exact hts.settle (w := { w with presenting := w.presenting - 1 })
        fun i hi => congrArg Service.holds (serve_of_isSome (w := w) hi)
    | work i => exact h.work
    | finish i upload submission => exact h.finish
    | perform op =>
      have hts : w.Accounted ts s := h
      cases hb : w.beginsFrame op with
      | true =>
        obtain ⟨layers, upload, c, rfl, hh, hc, hp⟩ := exists_of_beginsFrame hb
        rw [exec, begin_present hh hc hp]
        have hnone : ∀ i, Task.fences i _ = [] :=
          Task.fences_of_aside fun u => isAside_of_mem_present (t := u) hh hc hp layers upload mark
        rw [begin_present hh hc hp] at hnone
        have hwall : (w.reconcile c).Accounted ts (w.serve (.perform (.present layers upload)) s) :=
          hts.reconcile c fun _ => rfl
        intro i u hu
        rw [Task.fences_append, Task.fences_append, hnone]
        exact hwall i u hu
      | false =>
        cases op with
        | drop =>
          exact hts.settle (w := { w with held := false })
            fun i hi => congrArg Service.holds (serve_of_isSome (w := w) hi)
        | _ => cases hb.symm.trans htouch
    | _ => cases htouch

/-- What the workers have composed, and then what waits, is what they were handed. -/
def Handed (w : Wall) (s : Nat → Service) : Prop :=
  ∀ (i : Nat) (t : Tile), w.tiles[i]? = some t → t.Handed (s i)

/-- The workers stay, and none is handed a job or handles one. -/
theorem Handed.keep (h : w.Handed s) (hw : v.staff = w.staff)
    (hs : ∀ i, (w.tiles[i]?.bind (·.worker)).isSome → s' i = s i) : v.Handed s' := by
  intro i u hu
  have hget : w.tiles[i]?.map (·.worker) = some u.worker := by
    rw [← List.getElem?_map, show w.tiles.map (·.worker) = v.staff from hw.symm, staff,
      List.getElem?_map, hu]
    rfl
  obtain ⟨u₀, hu₀, heq⟩ := Option.map_eq_some_iff.1 hget
  refine (h i u₀ hu₀).congr heq.symm fun hk => hs i ?_
  rw [hu₀]
  exact hk

/-- The workers stay, or nobody works any more. -/
theorem Handed.keep_or_end (h : w.Handed s) (hv : w.Keeps v ∨ w.Ends v)
    (hs : ∀ i, (w.tiles[i]?.bind (·.worker)).isSome → s' i = s i) : v.Handed s' := by
  rcases hv with hk | he
  · exact h.keep hk.staff_eq hs
  · intro i u hu
    have hget : v.staff[i]? = some u.worker := by rw [staff, List.getElem?_map, hu]; rfl
    rw [he.staff_eq, List.getElem?_map, Option.map_eq_some_iff] at hget
    obtain ⟨_, -, hnone⟩ := hget
    exact Tile.handed_of_none hnone.symm

/-- One tile changes. -/
theorem Handed.setTile {i : Nat} {f : Tile → Tile} (h : w.Handed s)
    (hs : ∀ j, i ≠ j → (w.tiles[j]?.bind (·.worker)).isSome → s' j = s j)
    (hf : ∀ u, w.tiles[i]? = some u → (f u).Handed (s' i)) : (w.setTile i f).Handed s' := by
  refine forall_setTile h (fun j u hij hu hhanded => ?_) hf
  refine hhanded.congr rfl fun hk => hs j hij ?_
  rw [hu]
  exact hk

/-- A job is handed to a worker, and waits behind the others. -/
theorem Handed.dispatch (h : w.Handed s) (i : Nat) (job : Job) :
    (w.dispatch i job).wall.Handed (w.serve (.dispatch i job) s) := by
  rcases w.dispatch_cases i job with ⟨log, he, hexited⟩ | ⟨k, hk, hx, he⟩
  · rw [he]
    refine h.keep rfl fun j hj => ?_
    by_cases hij : i = j
    · subst hij
      obtain ⟨k, hk⟩ := Option.isSome_iff_exists.1 hj
      obtain ⟨t, ht, hw⟩ := Option.bind_eq_some_iff.1 hk
      cases ((h i t ht) k hw).1.symm.trans (hexited k hk)
    · exact serve_of_ne rfl hij hj
  · rw [he]
    refine h.setTile (fun j hij hj => serve_of_ne rfl hij hj) fun u hu => ?_
    have hserve : w.serve (.dispatch i job) s i = (s i).hands job :=
      (serve_of_isSome (by rw [hk]; rfl)).trans (if_pos rfl)
    obtain ⟨t, ht, hw⟩ := Option.bind_eq_some_iff.1 hk
    rw [hserve]
    refine Tile.handed_of_some rfl hx ?_
    rw [Service.hands, ← ((h i t ht) k hw).2, List.append_assoc]

/-- The job that was handed to a worker first is the next that it composes. -/
theorem Handed.work (h : w.Handed s) (i : Nat) :
    (w.work i).wall.Handed (w.serve (.work i) s) := by
  rcases w.work_cases i with ⟨he, hnone⟩ | ⟨u, k, job, k', hu, hk, htake, _, _, _, he, -⟩
  · rw [he]
    exact h.keep rfl fun j hj => serve_work_of_none hnone hj
  · rw [he]
    refine h.setTile (fun j hij hj => serve_of_ne rfl hij hj) fun u' hu' => ?_
    obtain ⟨hx, hjobs⟩ := (h i u hu) k hk
    obtain ⟨hq, hk'⟩ := Worker.take?_eq_some htake
    rw [hq, List.append_cons] at hjobs
    rw [serve_work hu hk htake]
    refine Tile.handed_of_some rfl ?_ ?_
    · rw [Worker.compose_fst, hk']
      exact hx
    · rw [Worker.compose_fst]
      exact hjobs

/-- A job ends, and nothing is handed out. -/
theorem Handed.finish (h : w.Handed s) (i : Nat) (upload : Bool) (submission : Submission) :
    (w.finish i upload submission).wall.Handed (w.serve (.finish i upload submission) s) := by
  refine Handed.setTile (w := { w with uploads := w.uploads + submission.uploads upload }) h
    (fun j hij hj => serve_of_ne (w := w) rfl hij hj) fun u hu => ?_
  cases hk : u.worker with
  | none => exact Tile.handed_of_none (u.worker_finish_of_none hk submission)
  | some k =>
    rw [serve_finish (by rw [show w.tiles[i]? = some u from hu, Option.bind_some, hk]; rfl)]
    exact (h i u hu).finish submission

/-- To wait for a worker hands it nothing. -/
theorem Handed.await (h : w.Handed s) (i : Nat) :
    (w.setTile i fun t => { t with worker := t.worker.map Worker.wait }).Handed
      (w.serve (.await i) s) := by
  refine h.setTile (fun j _ hj => serve_of_isSome hj) fun u hu k' hk' => ?_
  obtain ⟨k, hk, rfl⟩ := Option.map_eq_some_iff.1 hk'
  have hserve : w.serve (.await i) s i = s i :=
    serve_of_isSome (by rw [hu, Option.bind_some, hk]; rfl)
  rw [hserve]
  exact (h i u hu) k hk

/-- A frame begins: nothing was handed to the workers that come. -/
theorem Handed.reconcile (h : w.Handed s) (c : Controller)
    (hs : ∀ i, s' i = if (w.tiles[i]?.bind (·.worker)).isSome then s i else {}) :
    (w.reconcile c).Handed s' := by
  refine forall_reconcile h c (fun i u hu hhanded => ?_) fun i u hu hhanded => ?_
  · refine hhanded.congr rfl fun hk => ?_
    rw [hs, hu, Option.bind_some, if_pos hk]
  · refine hhanded.reconcile i ?_
    rw [hs, hu, Option.bind_some]

/-- Whatever the task is. -/
theorem Handed.exec (h : w.Handed s) (mark : Nat) (t : Task) :
    (w.exec mark t).wall.Handed (w.serve t s) := by
  cases t with
  | perform op =>
    cases hb : w.beginsFrame op with
    | true =>
      obtain ⟨layers, upload, c, rfl, hh, hc, hp⟩ := exists_of_beginsFrame hb
      rw [Wall.exec, begin_present hh hc hp]
      exact h.reconcile c fun _ => rfl
    | false => exact h.keep_or_end (plain_begin mark hb).wall fun i hi => serve_of_isSome hi
  | dispatch i job => exact h.dispatch i job
  | work i => exact h.work i
  | finish i upload submission => exact h.finish i upload submission
  | await i => exact h.await i
  | endFrame =>
    exact Handed.keep_or_end (w := { w with presenting := w.presenting - 1 }) h
      (keeps_or_ends_settle _) fun i hi => serve_of_isSome (w := w) hi
  | group => exact h.keep rfl fun i hi => serve_of_isSome hi
  | report | deliver | leave | arrive | poll | item | arm =>
    exact h.keep_or_end (plain_exec mark rfl (by simp)).wall fun i hi => serve_of_isSome hi

end Wall

/-! ### Over a run -/

namespace Wall.Brings

variable {outputs : List Output} {policy : Policy}

/-- What a new wall comes to, with whatever notes, it comes to without them. -/
theorem exists_reached {σ : Type} {note : Wall → Task → σ → σ} {notes : σ} {n : Noted σ}
    (h : (create outputs policy).Brings note notes n) : ∃ t, Reached t ∧ t.run = n.run := by
  induction h with
  | start => exact ⟨_, .create outputs policy, rfl⟩
  | begins _ hr op ih =>
    obtain ⟨t, ht, hrun⟩ := ih
    rw [← hrun] at hr
    exact ⟨t.begins op, ht.begins hr op, by rw [Noted.begins, ← hrun]; rfl⟩
  | next _ hr ih =>
    obtain ⟨t, ht, hrun⟩ := ih
    rw [← hrun] at hr
    exact ⟨t.next, ht.next hr, by rw [Noted.next, ← hrun]; rfl⟩

variable {n : Noted (Nat → Service)}

theorem needed (h : (create outputs policy).Brings serve (fun _ => {}) n) :
    n.run.wall.Needed n.run.tasks := by
  refine h.invariant (P := fun w ts _ _ => w.Needed ts) ?_ ?_ ?_ ?_ ?_ ?_
  · exact ⟨rfl, nofun, nofun⟩
  · rintro w op - - ⟨hd, hn, hg⟩
    exact ⟨hd, hn, hg⟩
  · rintro w ts op r - - ⟨hd, hn, hg⟩
    rw [List.countP_append] at hd
    exact ⟨hd, hn, hg⟩
  · rintro w tiles - - ⟨hd, hn, hg⟩
    have haside : ∀ t ∈ tiles.map Task.poll, t.isAside = true :=
      List.forall_mem_map.2 fun _ _ => rfl
    exact ⟨hd.trans (Task.countP_isLeave_of_aside haside).symm, hn, hg⟩
  · rintro w mark ts - - ⟨hd, hn, hg⟩
    exact ⟨hd, hn, hg⟩
  · exact fun w t ts es _ _ hw => hw.exec es.length

theorem accounted (h : (create outputs policy).Brings serve (fun _ => {}) n)
    (hlive : ∀ o ∈ outputs, o.live = []) : n.run.wall.Accounted n.run.tasks n.notes := by
  refine h.invariant (P := fun w ts _ s => w.Accounted ts s) ?_ ?_ ?_ ?_ ?_ ?_
  · intro i t ht
    rw [create, List.getElem?_map] at ht
    obtain ⟨o, ho, rfl⟩ := Option.map_eq_some_iff.1 ht
    refine (Tile.accounted_of_none rfl).2 ?_
    rw [hlive o (List.mem_of_getElem? ho)]
    rfl
  · exact fun w op _ s hs => hs
  · intro w ts op r _ s hs i t ht
    have hi := hs i t ht
    rw [Task.fences_append] at hi
    rwa [show Task.fences i [.report op r] = [] from rfl, List.append_nil] at hi
  · intro w tiles _ s hs i t ht
    have haside : ∀ t ∈ tiles.map Task.poll, t.isAside = true :=
      List.forall_mem_map.2 fun _ _ => rfl
    rw [Task.fences_of_aside haside]
    exact hs i t ht
  · intro w mark ts _ s hs
    rw [← List.nil_append ts]
    exact hs.keep rfl (fun _ => rfl) fun i hi => congrArg Service.holds (serve_of_isSome hi)
  · exact fun w t ts es s _ hw => hw.exec es.length

theorem handed (h : (create outputs policy).Brings serve (fun _ => {}) n) :
    n.run.wall.Handed n.notes := by
  refine h.invariant (P := fun w _ _ s => w.Handed s) ?_ ?_ ?_ ?_ ?_ ?_
  · intro i t ht
    rw [create, List.getElem?_map] at ht
    obtain ⟨o, -, rfl⟩ := Option.map_eq_some_iff.1 ht
    exact Tile.handed_of_none rfl
  · exact fun w op _ s hs => hs
  · exact fun w ts op r _ s hs => hs
  · exact fun w tiles _ s hs => hs
  · exact fun w mark ts _ s hs => hs.keep rfl fun i hi => serve_of_isSome hi
  · exact fun w t ts es s _ hw => hw.exec es.length t

/-- Over whatever a new wall comes to, by whatever operations of the host and of scripts, every
    fence of an output that is alive is held by the output's worker or on its way to it, and the
    jobs that a worker has composed are those that it was handed, in that order, but for those that
    wait. When nothing is left to do none is on its way, and no job waits: at most one fence is
    alive, the one of the last frame that the worker showed, and none is where there is no worker;
    and once the controller is given up, there is no worker. The same goes for a worker that is used
    on its own, whatever is done with it, and it was handed the jobs that it accepted; once it has
    exited, no fence is alive. A worker keeps the layers of its last job. -/
theorem fences_held (h : (create outputs policy).Brings serve (fun _ => {}) n)
    (hlive : ∀ o ∈ outputs, o.live = []) :
    n.run.wall.Accounted n.run.tasks n.notes ∧
    n.run.wall.Handed n.notes ∧
    (n.run.isAtRest = true →
      (∀ (i : Nat) (t : Tile), n.run.wall.tiles[i]? = some t →
        Custody t.worker t.output (n.notes i) ∧
        (t.worker.isSome → (n.notes i).jobs = (n.notes i).handed)) ∧
      (n.run.wall.held = false → ∀ t ∈ n.run.wall.tiles, t.worker = none)) ∧
    ∀ (id : OutputId) (o : Output) (ops : List Worker.Operation), o.live = [] →
      let p := Worker.Session.runs (.create id o, {}) ops
      Custody p.1.worker p.1.output p.2 ∧
      p.1.Handed p.2 ∧
      p.2.handed = (Worker.Session.create id o).accepted ops ∧
      ∀ op, op = .exit ∨ op = .drop → (p.1.run op).1.output.live = [] ∧
        ∀ k, (p.1.run op).1.worker = some k → k.exited = true := by
  have hacc := h.accounted hlive
  have hhanded := h.handed
  obtain ⟨tr, htr, hrun⟩ := h.exists_reached
  have horderly := htr.orderly
  have hp : n.run.isAtRest = true → n.run.wall.presenting = 0 := by
    intro hr
    rw [← hrun] at hr ⊢
    exact htr.presenting_eq_zero hr
  rw [hrun] at horderly
  refine ⟨hacc, hhanded, fun hr => ⟨fun i t ht => ⟨?_, fun hk => ?_⟩, fun hh => ?_⟩,
    fun id o ops ho => ?_⟩
  · have hi := hacc i t ht
    rw [Run.isAtRest, Bool.and_eq_true, List.isEmpty_iff] at hr
    rw [hr.1] at hi
    cases hk : t.worker with
    | none => exact custody_of_none ((Tile.accounted_of_none hk).1 hi).eq_nil _
    | some k => exact ((Tile.accounted_of_some hk).1 hi).custody (hhanded i t ht k hk).1
  · obtain ⟨k, hk⟩ := Option.isSome_iff_exists.1 hk
    have hwaiting := horderly.waiting_eq (hp hr) i
    rw [waiting, staff, List.getElem?_map, ht, Option.map_some, hk] at hwaiting
    rw [← (hhanded i t ht k hk).2, List.length_eq_zero_iff.1 hwaiting, List.append_nil]
  · have hneeded := h.needed
    have hnot := hp hr
    rw [Run.isAtRest, Bool.and_eq_true, List.isEmpty_iff] at hr
    rcases hneeded.needed hh with hc | hd | hp'
    · exact hneeded.gone hc
    · rw [hneeded.delivering_eq, hr.1] at hd
      exact absurd rfl hd
    · exact absurd hnot hp'
  · have hattended := Worker.Session.attended_create id ho
    refine ⟨(hattended.runs ops).custody, Worker.Session.Handed.runs ⟨rfl, rfl⟩ hattended ops,
      Worker.Session.handed_runs _ _ ops, ?_⟩
    rintro op (rfl | rfl)
    · exact (hattended.runs ops).run_exit
    · refine ⟨(hattended.runs ops).live_exit, ?_⟩
      rintro k ⟨⟩

end Wall.Brings

/-- An output that hands out fences. -/
def fenced : Output := { configs := [⟨100, 10, none, none, none⟩], fences := true }

/-- A frame with one layer, which covers the canvas. -/
def covering (id : Nat) : Op :=
  .present [⟨⟨id⟩, ⟨⟨0⟩, ⟨0⟩, ⟨0x7ff0000000000000⟩, ⟨0⟩⟩, none⟩] false

/-- Three outputs have shown a frame, each with a fence. When the next frame comes, the first output
    refuses it, the second shows it without a fence, and the third is gone. -/
def replacing : Noted (Nat → Service) :=
  [.setPowerMode .on, covering 1, .change 0 { failure := some (some .io) } none,
    .change 1 { fences := some false } none, .change 2 { connected := some false } none,
    .hotplugUpdate false, covering 2].foldl (Noted.perform Wall.serve)
      ⟨(Wall.create [fenced, fenced, fenced] {}).resting, fun _ => {}⟩

/-- The first worker keeps its fence; the second has let its own go, and so has the third, which is
    gone. -/
theorem fences_held_replacing :
    (Wall.create [fenced, fenced, fenced] {}).Brings Wall.serve (fun _ => {}) replacing ∧
      replacing.run.isAtRest = true ∧
      (∀ (i : Nat) (t : Tile), replacing.run.wall.tiles[i]? = some t →
        Custody t.worker t.output (replacing.notes i)) ∧
      replacing.run.wall.liveFences = [1, 0, 0] ∧
      (List.range 3).map (fun i => (replacing.notes i).fence?) = [some ⟨0⟩, none, none] ∧
      (List.range 3).map (fun i => (replacing.notes i).layers.length) = [1, 1, 0] ∧
      (List.range 3).map (fun i => (replacing.notes i).jobs.length) = [2, 2, 0] := by
  have hbrings : (Wall.create [fenced, fenced, fenced] {}).Brings Wall.serve (fun _ => {})
      replacing := by
    refine ((((((Wall.Brings.start.perform rfl _).perform ?_ _).perform ?_ _).perform ?_
      _).perform ?_ _).perform ?_ _).perform ?_ _
    all_goals decide +kernel
  have hrest : replacing.run.isAtRest = true := by decide +kernel
  obtain ⟨-, -, hcustody, -⟩ := hbrings.fences_held (by decide)
  refine ⟨hbrings, hrest, fun i t ht => ((hcustody hrest).1 i t ht).1, ?_, ?_, ?_, ?_⟩
  all_goals decide +kernel

end VideoWall
