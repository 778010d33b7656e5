import Mathlib.Data.List.Nodup
import Mathlib.Logic.Function.Basic
import VideoWall.Proofs.Signals
import VideoWall.Proofs.Turns

/-! How far the tiles are with the jobs of a frame.

    A tile goes through the same phases whatever the others do: its job is due, it waits in the
    queue, it is in the worker's hand while the output shows the frame, it has ended and the signal
    is raised, and the signal has been waited for. As long as outputs call nobody back, the phases
    of the tiles alone say what has become of the wall since the frame began (`Wall.turned`), and a
    task of the frame takes one tile to its next phase (`Wall.Manned.exec_turned`), in whatever
    phases the others are. -/

namespace VideoWall

/-! ### Phases -/

/-- How far a tile is with its job. -/
inductive Phase where
  | due | queued | inHand | raised | collected
  deriving DecidableEq

namespace Phase

/-- The phase after this one; nothing comes after the last. -/
def next : Phase → Phase
  | .due => .queued
  | .queued => .inHand
  | .inHand => .raised
  | .raised | .collected => .collected

/-- How many tasks have been done for the tile. -/
def rank : Phase → Nat
  | .due => 0
  | .queued => 1
  | .inHand => 2
  | .raised => 3
  | .collected => 4

theorem rank_le (φ : Phase) : φ.rank ≤ 4 := by cases φ <;> decide

theorem sum_rank_le (phase : Nat → Phase) (jobs : List (Nat × Job)) :
    (jobs.map fun j => (phase j.1).rank).sum ≤ 4 * jobs.length := by
  induction jobs with
  | nil => exact Nat.le_refl 0
  | cons j js ih =>
    have hj := (phase j.1).rank_le
    rw [List.map_cons, List.sum_cons, List.length_cons]
    omega

/-- Whether the job has been composed. -/
def isComposed : Phase → Bool
  | .due | .queued => false
  | _ => true

/-- Whether the job has ended. -/
def isEnded : Phase → Bool
  | .raised | .collected => true
  | _ => false

end Phase

namespace Tile

/-- What becomes of a tile's job. -/
def submission (t : Tile) (job : Job) : Submission :=
  t.worker.elim .blank fun k => (k.compose t.output job).2.2

/-- A tile whose worker has composed a job. -/
def composed (t : Tile) (job : Job) : Tile :=
  match t.worker with
  | none => t
  | some k =>
    { t with worker := some (k.compose t.output job).1, output := (k.compose t.output job).2.1 }

theorem composed_of_some {t : Tile} {k : Worker} (hk : t.worker = some k) (job : Job) :
    t.composed job =
      { t with
        worker := some (k.compose t.output job).1
        output := (k.compose t.output job).2.1 } := by
  rw [composed, hk]

/-- A tile in a phase of its job. -/
def turn (t : Tile) (job : Job) : Phase → Tile
  | .due => t
  | .queued => { t with worker := t.worker.map fun k => { k with queue := [job] } }
  | .inHand => t.composed job
  | .raised => (t.composed job).finish (t.submission job)
  | .collected =>
    let ended := (t.composed job).finish (t.submission job)
    { ended with worker := ended.worker.map Worker.wait }

/-- What can be seen of a job when it is composed. -/
def shows (t : Tile) (i : Nat) (job : Job) : List Event :=
  (((t.submission job).call? (job.window.assign job.layers) job.upload).map (Event.call i)).toList

/-- In the end the worker has composed the job and ended it, and has been waited for. -/
theorem turn_collected {t : Tile} {k : Worker} (hk : t.worker = some k) (job : Job) :
    t.turn job .collected =
      let c := k.compose t.output job
      { t with
        worker := some (c.1.settle c.2.1 c.2.2).1.wait
        output := (c.1.settle c.2.1 c.2.2).2 } := by
  rw [turn, composed_of_some hk, submission, hk]
  rfl

/-- What is left to do for a tile: its job is handed out, taken up, ended and waited for. -/
def tasks (t : Tile) (i : Nat) (job : Job) : Phase → List Task
  | .due => [.dispatch i job, .work i, .await i]
  | .queued => [.work i, .await i]
  | .inHand => [.finish i job.upload (t.submission job), .await i]
  | .raised => [.await i]
  | .collected => []

/-- What the task that is next for a tile leaves behind: a job that is taken up is to be ended. -/
def left (t : Tile) (i : Nat) (job : Job) (φ : Phase) : List Task :=
  if φ = .queued then [.finish i job.upload (t.submission job)] else []

theorem tile?_of_mem_left {t : Tile} {i : Nat} {job : Job} {φ : Phase} {task : Task}
    (h : task ∈ t.left i job φ) : task.tile? = some i := by
  rw [left] at h
  split at h
  · rw [List.mem_singleton.1 h]
    rfl
  · cases h

/-- It is what is left to do in the next phase and was not before. -/
theorem left_append_of_tasks_eq {t : Tile} {i : Nat} {job : Job} {φ : Phase} {task : Task}
    {rest : List Task} (h : t.tasks i job φ = task :: rest) :
    t.left i job φ ++ rest = t.tasks i job φ.next := by
  cases φ with
  | collected => cases h
  | _ =>
    cases h
    rfl

/-- A ready worker goes on; a job waits for it while the tile's phase is `queued`, and its signal is
    raised while the phase is `raised`. -/
theorem worker_turn {t : Tile} {k : Worker} (hk : t.worker = some k) (h : k.Ready) (job : Job)
    (φ : Phase) :
    ∃ k', (t.turn job φ).worker = some k' ∧ k'.exited = false ∧
      k'.queue = (if φ = .queued then [job] else []) ∧ k'.signal.raised = decide (φ = .raised) := by
  have hcomposed : (t.composed job).worker =
      some { k with retained := job.window.assign job.layers } := by
    rw [composed_of_some hk, Worker.compose_fst]
  have hended : ∃ k', (t.turn job .raised).worker = some k' ∧ k'.exited = false ∧ k'.queue = [] ∧
      k'.signal.raised = true := by
    refine ⟨_, worker_finish hcomposed (t.submission job), ?_⟩
    cases t.submission job <;> exact ⟨h.exited_eq, h.queue_eq, rfl⟩
  cases φ with
  | due => exact ⟨k, hk, h.exited_eq, h.queue_eq, h.signal_eq⟩
  | queued =>
    refine ⟨{ k with queue := [job] }, ?_, h.exited_eq, rfl, h.signal_eq⟩
    rw [turn, hk]
    rfl
  | inHand => exact ⟨_, hcomposed, h.exited_eq, h.queue_eq, h.signal_eq⟩
  | raised => exact hended
  | collected =>
    obtain ⟨k', hk', hx, hq, -⟩ := hended
    refine ⟨k'.wait, ?_, hx, hq, k'.raised_wait⟩
    exact congrArg (Option.map Worker.wait) hk'

end Tile

namespace Wall

/-- How many uploads a job has made. -/
def uploaded (v : Wall) (phase : Phase) (j : Nat × Job) : Nat :=
  if phase.isEnded then v.tiles[j.1]?.elim 0 fun t => (t.submission j.2).uploads j.2.upload else 0

/-- A wall as it is when the tiles have come to some phases of their jobs. -/
def turned (v : Wall) (jobs : List (Nat × Job)) (phase : Nat → Phase) : Wall :=
  { v with
    tiles := v.tiles.mapIdx fun i t => (jobs.lookup i).elim t fun job => t.turn job (phase i)
    uploads := v.uploads + (jobs.map fun j => v.uploaded (phase j.1) j).sum }

/-- All workers are ready, and every job is for another tile, which has one and whose output calls
    nobody back. -/
structure Manned (v : Wall) (jobs : List (Nat × Job)) : Prop where
  ready : ∀ t ∈ v.tiles, ∀ k, t.worker = some k → k.Ready
  nodup : (jobs.map (·.1)).Nodup
  staffed : ∀ j ∈ jobs, ∃ t k, v.tiles[j.1]? = some t ∧ t.worker = some k ∧ t.onPresent = []

variable {v : Wall} {jobs : List (Nat × Job)} {phase phase' : Nat → Phase} {j : Nat × Job}

theorem lookup_of_mem (hd : (jobs.map (·.1)).Nodup) (hj : j ∈ jobs) :
    jobs.lookup j.1 = some j.2 := by
  induction jobs with
  | nil => cases hj
  | cons j' js ih =>
    rw [List.map_cons, List.nodup_cons] at hd
    rcases List.mem_cons.1 hj with rfl | hj
    · exact List.lookup_cons_self
    · have hne : (j.1 == j'.1) = false := by
        refine beq_eq_false_iff_ne.2 fun h => hd.1 (h ▸ List.mem_map_of_mem hj)
      rw [List.lookup_cons, hne]
      exact ih hd.2 hj

theorem mem_of_lookup {i : Nat} {job : Job} (h : jobs.lookup i = some job) : (i, job) ∈ jobs := by
  obtain ⟨l, l', rfl, -⟩ := List.lookup_eq_some_iff.1 h
  exact List.mem_append_right l List.mem_cons_self

/-- Only the phases of tiles with a job matter. -/
theorem turned_congr (h : ∀ j ∈ jobs, phase j.1 = phase' j.1) :
    v.turned jobs phase = v.turned jobs phase' := by
  have htiles : ∀ (i : Nat) (t : Tile),
      (jobs.lookup i).elim t (fun job => t.turn job (phase i)) =
        (jobs.lookup i).elim t fun job => t.turn job (phase' i) := by
    intro i t
    cases hi : jobs.lookup i with
    | none => rfl
    | some job => exact congrArg (t.turn job) (h _ (mem_of_lookup hi))
  have huploads : (jobs.map fun j => v.uploaded (phase j.1) j) =
      jobs.map fun j => v.uploaded (phase' j.1) j :=
    List.map_congr_left fun j hj => by rw [h j hj]
  simp only [turned, htiles, huploads]

/-- With all jobs due, nothing has happened. -/
theorem turned_due (v : Wall) (jobs : List (Nat × Job)) : v.turned jobs (fun _ => .due) = v := by
  have htiles : ∀ (i : Nat) (t : Tile),
      (jobs.lookup i).elim t (fun job => t.turn job .due) = t := by
    intro i t
    cases jobs.lookup i <;> rfl
  have hidx : v.tiles.mapIdx (fun _ t => t) = v.tiles :=
    List.ext_getElem? fun i => by simp
  have huploads : (jobs.map fun j => v.uploaded .due j).sum = 0 := by
    clear htiles
    induction jobs with
    | nil => rfl
    | cons j js ih =>
      rw [List.map_cons, List.sum_cons, ih]
      rfl
  simp only [turned, htiles, hidx, huploads, Nat.add_zero]

/-- What is summed up over the jobs changes by the part of the one whose tile goes on. -/
theorem sum_update (phase : Nat → Phase) (hd : (jobs.map (·.1)).Nodup) (hj : j ∈ jobs)
    (f : Phase → Nat × Job → Nat) (φ : Phase) :
    (jobs.map fun j' => f (Function.update phase j.1 φ j'.1) j').sum + f (phase j.1) j =
      (jobs.map fun j' => f (phase j'.1) j').sum + f φ j := by
  induction jobs with
  | nil => cases hj
  | cons j' js ih =>
    rw [List.map_cons, List.nodup_cons] at hd
    rw [List.map_cons, List.map_cons, List.sum_cons, List.sum_cons]
    rcases List.mem_cons.1 hj with rfl | hj
    · have hrest : (js.map fun j' => f (Function.update phase j.1 φ j'.1) j') =
          js.map fun j' => f (phase j'.1) j' := by
        refine List.map_congr_left fun j' hj' => ?_
        have hne : j'.1 ≠ j.1 := fun h => hd.1 (h ▸ List.mem_map_of_mem hj')
        rw [Function.update_of_ne hne]
      rw [hrest, Function.update_self]
      omega
    · have hne : j'.1 ≠ j.1 := fun h => hd.1 (h ▸ List.mem_map_of_mem hj)
      have hrest := ih hd.2 hj
      rw [Function.update_of_ne hne]
      omega

namespace Manned

/-- What holds of the tile that goes on, in its new phase, and of the others in theirs. -/
theorem forall_update (h : v.Manned jobs) {P : Nat × Job → Tile → Phase → Prop} (hj : j ∈ jobs)
    {t : Tile} (ht : v.tiles[j.1]? = some t) {φ : Phase} (hself : P j t φ)
    (hother : ∀ j' ∈ jobs, j'.1 ≠ j.1 → ∀ t', v.tiles[j'.1]? = some t' → P j' t' (phase j'.1)) :
    ∀ j' ∈ jobs, ∀ t', v.tiles[j'.1]? = some t' →
      P j' t' (Function.update phase j.1 φ j'.1) := by
  intro j' hj' t' ht'
  by_cases hi : j'.1 = j.1
  · obtain rfl := List.inj_on_of_nodup_map h.nodup hj' hj hi
    obtain rfl := Option.some.inj (ht.symm.trans ht')
    rwa [Function.update_self]
  · rw [Function.update_of_ne hi]
    exact hother j' hj' hi t' ht'

/-- A tile takes part in the wall's phases. -/
theorem tile_turned (h : v.Manned jobs) (hj : j ∈ jobs) {t : Tile} (ht : v.tiles[j.1]? = some t)
    (phase : Nat → Phase) :
    (v.turned jobs phase).tiles[j.1]? = some (t.turn j.2 (phase j.1)) := by
  rw [turned, List.getElem?_mapIdx, ht, lookup_of_mem h.nodup hj]
  rfl

/-- A tile goes on to another phase. -/
theorem setTile_turned (h : v.Manned jobs) (hj : j ∈ jobs) {t : Tile}
    (ht : v.tiles[j.1]? = some t) (φ : Phase) {f : Tile → Tile} {uploads : Nat}
    (hf : f (t.turn j.2 (phase j.1)) = t.turn j.2 φ)
    (hu : (v.turned jobs phase).uploads + v.uploaded φ j =
      uploads + v.uploaded (phase j.1) j) :
    { (v.turned jobs phase).setTile j.1 f with uploads } =
      v.turned jobs (Function.update phase j.1 φ) := by
  have htiles : ((v.turned jobs phase).setTile j.1 f).tiles =
      (v.turned jobs (Function.update phase j.1 φ)).tiles := by
    refine List.ext_getElem? fun i => ?_
    rw [setTile, List.getElem?_modify, turned, turned, List.getElem?_mapIdx, List.getElem?_mapIdx]
    by_cases hij : j.1 = i
    · subst hij
      rw [ht, lookup_of_mem h.nodup hj, Function.update_self]
      simpa using hf
    · rw [Function.update_of_ne (Ne.symm hij)]
      simp [hij]
  have huploads : uploads = (v.turned jobs (Function.update phase j.1 φ)).uploads := by
    have hsum := sum_update phase h.nodup hj v.uploaded φ
    simp only [turned] at hu ⊢
    omega
  rw [huploads]
  exact congrArg (fun tiles => { v with
    tiles
    uploads := (v.turned jobs (Function.update phase j.1 φ)).uploads }) htiles

variable {t : Tile} {k : Worker}

/-- A task that changes the tile's part of the wall and uploads nothing. -/
theorem setTile_turned_of_not_isEnded (h : v.Manned jobs) (hj : j ∈ jobs)
    (ht : v.tiles[j.1]? = some t) (φ : Phase) {f : Tile → Tile}
    (hf : f (t.turn j.2 (phase j.1)) = t.turn j.2 φ) (he : φ.isEnded = (phase j.1).isEnded) :
    (v.turned jobs phase).setTile j.1 f = v.turned jobs (Function.update phase j.1 φ) :=
  h.setTile_turned hj ht φ hf (by rw [uploaded, uploaded, he])

/-- A job that is due is handed out. -/
theorem dispatch_turned (h : v.Manned jobs) (hj : j ∈ jobs) (ht : v.tiles[j.1]? = some t)
    (hφ : phase j.1 = .due) :
    (v.turned jobs phase).dispatch j.1 j.2 =
      { wall := v.turned jobs (Function.update phase j.1 .queued) } := by
  obtain ⟨t', k, ht', hk, -⟩ := h.staffed j hj
  obtain rfl := Option.some.inj (ht.symm.trans ht')
  have hready := h.ready t (List.mem_of_getElem? ht) k hk
  have htile := h.tile_turned hj ht phase
  rw [hφ] at htile
  rw [dispatch, htile, Option.bind_some, Tile.turn, hk]
  dsimp only
  rw [Worker.present, hready.exited_eq, if_neg Bool.false_ne_true]
  dsimp only
  rw [h.setTile_turned_of_not_isEnded hj ht .queued ?_ (by rw [hφ]; rfl)]
  rw [hφ, Tile.turn, Tile.turn, hk, Option.map_some, hready.queue_eq, hready.exited_eq]
  rfl

/-- A job that waits is taken up, and is left to be ended. -/
theorem work_turned (h : v.Manned jobs) (hj : j ∈ jobs) (ht : v.tiles[j.1]? = some t)
    (hφ : phase j.1 = .queued) :
    ∃ log, (v.turned jobs phase).work j.1 =
      { wall := v.turned jobs (Function.update phase j.1 .inHand)
        events := t.shows j.1 j.2
        log
        tasks := [.finish j.1 j.2.upload (t.submission j.2)] } := by
  obtain ⟨t', k, ht', hk, hscript⟩ := h.staffed j hj
  obtain rfl := Option.some.inj (ht.symm.trans ht')
  have hready := h.ready t (List.mem_of_getElem? ht) k hk
  have htile := h.tile_turned hj ht phase
  rw [hφ] at htile
  have hidle : { k with queue := [] } = k := by rw [← hready.queue_eq]
  have htake : ({ k with queue := [j.2] } : Worker).take? = some (j.2, k) :=
    congrArg (fun k' => some (j.2, k')) hidle
  have hworker : (t.turn j.2 .queued).worker = some { k with queue := [j.2] } := by
    rw [Tile.turn, hk]
    rfl
  rcases (v.turned jobs phase).work_cases j.1 with
    ⟨-, hnone⟩ | ⟨u, k₁, job, k₂, hu, hk₁, htake', script, onPresent, log, hw, hnil⟩
  · rw [nextJob?, htile, Option.bind_some, hworker, Option.bind_some, htake] at hnone
    cases hnone
  · obtain rfl := Option.some.inj (htile.symm.trans hu)
    obtain rfl := Option.some.inj (hworker.symm.trans hk₁)
    obtain ⟨rfl, rfl⟩ := Prod.mk.inj (Option.some.inj (htake.symm.trans htake'))
    obtain ⟨rfl, rfl⟩ : script = [] ∧ onPresent = [] := by
      rcases hnil with ⟨hs, ho⟩ | ⟨hs, ho⟩
      · exact ⟨hs, ho.trans hscript⟩
      · exact ⟨hs.trans hscript, ho⟩
    have hretained : (k.compose t.output j.2).1.retained = j.2.window.assign j.2.layers := by
      rw [Worker.compose_fst]
    refine ⟨log, ?_⟩
    rw [hw, h.setTile_turned_of_not_isEnded hj ht .inHand ?_ (by rw [hφ]; rfl), Tile.shows,
      Tile.submission, hk, ← hretained]
    · rfl
    · rw [Tile.turn, Tile.turn, Tile.composed_of_some hk, hscript]

/-- A job that is in hand is ended, and its uploads are counted. -/
theorem finish_turned (h : v.Manned jobs) (hj : j ∈ jobs) (ht : v.tiles[j.1]? = some t)
    (hφ : phase j.1 = .inHand) :
    (v.turned jobs phase).finish j.1 j.2.upload (t.submission j.2) =
      { wall := v.turned jobs (Function.update phase j.1 .raised) } := by
  have hu : (v.turned jobs phase).uploads + v.uploaded .raised j =
      (v.turned jobs phase).uploads + (t.submission j.2).uploads j.2.upload +
        v.uploaded (phase j.1) j := by
    rw [hφ, uploaded, uploaded, ht]
    rfl
  have hset := h.setTile_turned hj ht .raised (f := (·.finish (t.submission j.2)))
    (by rw [hφ]; rfl) hu
  exact congrArg (fun wall => ({ wall } : Effect)) hset

/-- In whatever phases the tiles are, the task that is next for one of them takes this one to its
    next phase, with what can be seen of it; a job that is composed is left to be ended. -/
theorem exec_turned (h : v.Manned jobs) (hj : j ∈ jobs) (ht : v.tiles[j.1]? = some t)
    {task : Task} (htask : (t.tasks j.1 j.2 (phase j.1)).head? = some task) (mark : Nat) :
    ∃ log, (v.turned jobs phase).exec mark task =
      { wall := v.turned jobs (Function.update phase j.1 (phase j.1).next)
        events := if phase j.1 = .queued then t.shows j.1 j.2 else []
        log
        tasks := t.left j.1 j.2 (phase j.1) } := by
  cases hφ : phase j.1 with
  | due =>
    rw [hφ] at htask
    cases htask
    exact ⟨[], h.dispatch_turned hj ht hφ⟩
  | queued =>
    rw [hφ] at htask
    cases htask
    exact h.work_turned hj ht hφ
  | inHand =>
    rw [hφ] at htask
    cases htask
    exact ⟨[], h.finish_turned hj ht hφ⟩
  | raised =>
    rw [hφ] at htask
    cases htask
    refine ⟨[], ?_⟩
    rw [exec, h.setTile_turned_of_not_isEnded hj ht .collected (by rw [hφ]; rfl) (by rw [hφ]; rfl)]
    rfl
  | collected =>
    rw [hφ] at htask
    cases htask

/-- A job waits at the tiles that are in the phase for that. -/
theorem waiting_turned (h : v.Manned jobs) (hj : j ∈ jobs) (phase : Nat → Phase) :
    (v.turned jobs phase).waiting j.1 = if phase j.1 = .queued then 1 else 0 := by
  obtain ⟨t, k, ht, hk, -⟩ := h.staffed j hj
  obtain ⟨k', hk', -, hq, -⟩ :=
    t.worker_turn hk (h.ready t (List.mem_of_getElem? ht) k hk) j.2 (phase j.1)
  rw [waiting, staff, List.getElem?_map, h.tile_turned hj ht phase, Option.map_some, hk']
  dsimp only
  rw [hq]
  split <;> rfl

/-- A signal is raised at the tiles that are in the phase for that. -/
theorem raised_turned (h : v.Manned jobs) (hj : j ∈ jobs) (phase : Nat → Phase) :
    (v.turned jobs phase).raised j.1 = decide (phase j.1 = .raised) := by
  obtain ⟨t, k, ht, hk, -⟩ := h.staffed j hj
  obtain ⟨k', hk', -, -, hs⟩ :=
    t.worker_turn hk (h.ready t (List.mem_of_getElem? ht) k hk) j.2 (phase j.1)
  rw [raised, h.tile_turned hj ht phase, Option.any_some, Tile.raised, hk']
  exact hs

/-- Nothing happens at a tile without a job. -/
theorem tile_turned_of_not_mem {i : Nat} (hi : i ∉ jobs.map (·.1)) (phase : Nat → Phase) :
    (v.turned jobs phase).tiles[i]? = v.tiles[i]? := by
  have hnone : jobs.lookup i = none :=
    List.lookup_eq_none_iff.2 fun j hj => by
      rw [bne_iff_ne]
      rintro rfl
      exact hi (List.mem_map_of_mem hj)
  rw [turned, List.getElem?_mapIdx, hnone]
  exact Option.map_id' ..

theorem waiting_turned_of_not_mem (h : v.Manned jobs) {i : Nat} (hi : i ∉ jobs.map (·.1))
    (phase : Nat → Phase) : (v.turned jobs phase).waiting i = 0 := by
  rw [waiting, staff, List.getElem?_map, tile_turned_of_not_mem hi]
  cases ht : v.tiles[i]? with
  | none => rfl
  | some t =>
    rw [Option.map_some]
    cases hk : t.worker with
    | none => rfl
    | some k => exact congrArg List.length (h.ready t (List.mem_of_getElem? ht) k hk).queue_eq

theorem raised_turned_of_not_mem (h : v.Manned jobs) {i : Nat} (hi : i ∉ jobs.map (·.1))
    (phase : Nat → Phase) : (v.turned jobs phase).raised i = false := by
  rw [raised, tile_turned_of_not_mem hi]
  cases ht : v.tiles[i]? with
  | none => rfl
  | some t =>
    rw [Option.any_some, Tile.raised]
    cases hk : t.worker with
    | none => rfl
    | some k => exact (h.ready t (List.mem_of_getElem? ht) k hk).signal_eq

/-- In the end all workers are ready again. -/
theorem ready_turned (h : v.Manned jobs) {i : Nat} {k : Worker}
    (hk : (v.turned jobs fun _ => .collected).staff[i]? = some (some k)) : k.Ready := by
  obtain ⟨t', ht', hk'⟩ := exists_tile_of_staff hk
  by_cases hi : i ∈ jobs.map (·.1)
  · obtain ⟨j, hj, rfl⟩ := List.mem_map.1 hi
    obtain ⟨t, k₀, ht, hk₀, -⟩ := h.staffed j hj
    obtain ⟨k₁, hk₁, hx, hq, hs⟩ :=
      t.worker_turn hk₀ (h.ready t (List.mem_of_getElem? ht) k₀ hk₀) j.2 .collected
    obtain rfl := Option.some.inj (ht'.symm.trans (h.tile_turned hj ht fun _ => .collected))
    obtain rfl := Option.some.inj (hk₁.symm.trans hk')
    exact ⟨hx, hq, hs⟩
  · rw [tile_turned_of_not_mem hi] at ht'
    exact h.ready t' (List.mem_of_getElem? ht') k hk'

end Manned

/-! ### What can be seen -/

/-- What has been seen at a tile since the frame began. -/
def shown (v : Wall) (jobs : List (Nat × Job)) (phase : Nat → Phase) (i : Nat) : List Event :=
  (jobs.lookup i).elim [] fun job =>
    if (phase i).isComposed then v.tiles[i]?.elim [] (·.shows i job) else []

end Wall

/-- The events at an output, in order. -/
def Event.ofOutput (i : Nat) (es : List Event) : List Event :=
  es.filter fun e => e.output? = some i

namespace Wall

/-- In the middle of a frame: the phases of the tiles say what has become of the wall `v`, and what
    has been seen of it after `es`. -/
structure Midway (v : Wall) (jobs : List (Nat × Job)) (es : List Event) (phase : Nat → Phase)
    (w : Wall) (fs : List Event) : Prop where
  wall_eq : w = v.turned jobs phase
  events_eq : ∀ i, Event.ofOutput i fs = Event.ofOutput i es ++ v.shown jobs phase i

variable {v w : Wall} {jobs : List (Nat × Job)} {phase phase' : Nat → Phase} {j : Nat × Job}
  {es fs : List Event}

/-- What can be seen of a job can be seen at its output. -/
theorem ofOutput_shows (t : Tile) (job : Job) (i i' : Nat) :
    Event.ofOutput i' (t.shows i job) = if i = i' then t.shows i job else [] := by
  rw [Tile.shows]
  cases (t.submission job).call? (job.window.assign job.layers) job.upload with
  | none => exact (ite_self _).symm
  | some call =>
    by_cases hi : i = i'
    · rw [if_pos hi]
      exact List.filter_cons_of_pos (by simpa [Event.output?] using hi)
    · rw [if_neg hi]
      exact List.filter_cons_of_neg (by simpa [Event.output?] using hi)

theorem midway_due (v : Wall) (jobs : List (Nat × Job)) (es : List Event) :
    v.Midway jobs es (fun _ => .due) v es where
  wall_eq := (v.turned_due jobs).symm
  events_eq := by
    intro i
    have hnone : v.shown jobs (fun _ => .due) i = [] := by
      rw [shown]
      cases jobs.lookup i <;> rfl
    rw [hnone, List.append_nil]

/-- Only the phases of tiles with a job matter. -/
theorem Midway.congr (hm : v.Midway jobs es phase w fs) (h : ∀ j ∈ jobs, phase j.1 = phase' j.1) :
    v.Midway jobs es phase' w fs where
  wall_eq := hm.wall_eq.trans (turned_congr h)
  events_eq := by
    intro i
    rw [hm.events_eq, shown, shown]
    cases hi : jobs.lookup i with
    | none => rfl
    | some job =>
      have hφ := h _ (mem_of_lookup hi)
      dsimp only at hφ
      rw [hφ]

/-- One tile goes on. -/
theorem Midway.exec (hm : v.Midway jobs es phase w fs) (h : v.Manned jobs) (hj : j ∈ jobs)
    {t : Tile} (ht : v.tiles[j.1]? = some t) {task : Task}
    (htask : (t.tasks j.1 j.2 (phase j.1)).head? = some task) (mark : Nat) :
    v.Midway jobs es (Function.update phase j.1 (phase j.1).next) (w.exec mark task).wall
        (fs ++ (w.exec mark task).events) ∧
      (w.exec mark task).tasks = t.left j.1 j.2 (phase j.1) := by
  obtain ⟨log, hexec⟩ := h.exec_turned hj ht htask mark
  rw [hm.wall_eq, hexec]
  refine ⟨⟨rfl, fun i => ?_⟩, rfl⟩
  rw [Event.ofOutput, List.filter_append]
  refine (congrArg (· ++ _) (hm.events_eq i)).trans ?_
  rw [List.append_assoc, shown, shown]
  refine congrArg (Event.ofOutput i es ++ ·) ?_
  by_cases hi : j.1 = i
  · subst hi
    rw [lookup_of_mem h.nodup hj, ht, Function.update_self]
    cases hφ : phase j.1 with
    | due => rfl
    | queued => exact (ofOutput_shows t j.2 j.1 j.1).trans (if_pos rfl)
    | inHand | raised | collected => exact List.append_nil _
  · have hnone : (if phase j.1 = .queued then t.shows j.1 j.2 else []).filter
        (fun e => decide (e.output? = some i)) = [] := by
      split
      · exact (ofOutput_shows t j.2 j.1 i).trans (if_neg hi)
      · rfl
    rw [Function.update_of_ne (Ne.symm hi)]
    exact (congrArg _ hnone).trans (List.append_nil _)

end Wall

end VideoWall
