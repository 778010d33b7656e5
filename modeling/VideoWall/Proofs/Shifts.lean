import VideoWall.Proofs.Phases

/-! A frame that is presented concurrently.

    Workers run on their own. Whoever presents hands out the jobs and waits for the workers, in the
    order of the pipeline; in the meantime each worker takes up the job in its queue whenever it
    pleases, and ends it whenever it pleases. `Shift.Step` is one step of one of them, so a run of
    such steps is any order at all in which the jobs may be handled. In each of these orders the
    tiles go through the phases of their jobs one by one (`Shift.Sound`), which is why no order can
    get stuck (`Shift.Sound.exists_step`), and all of them come to the same end
    (`Shift.Takes.collected`). -/

namespace VideoWall

/-! ### Tasks by tile -/

namespace Task

/-- The tasks about a tile, in order. -/
def ofTile (i : Nat) (ts : List Task) : List Task := ts.filter fun t => t.tile? = some i

/-- Whether a task hands out a job. -/
def isDispatch : Task → Bool
  | .dispatch .. => true
  | _ => false

/-- Whether a task waits for a worker. -/
def isAwait : Task → Bool
  | .await _ => true
  | _ => false

/-- Whether the one who presents does a task; the others are the workers'. -/
def isCall (t : Task) : Bool := t.isDispatch || t.isAwait

/-- Whether a task ends a job. -/
def isFinish : Task → Bool
  | .finish .. => true
  | _ => false

variable {jobs : List (Nat × Job)} {j : Nat × Job} {i i' : Nat} {t : Task}

theorem ofTile_append (i : Nat) (ts us : List Task) :
    ofTile i (ts ++ us) = ofTile i ts ++ ofTile i us := List.filter_append ..

theorem ofTile_cons_self (h : t.tile? = some i) (ts : List Task) :
    ofTile i (t :: ts) = t :: ofTile i ts := List.filter_cons_of_pos (decide_eq_true h)

theorem ofTile_cons_of_ne (h : t.tile? = some i) (hne : i' ≠ i) (ts : List Task) :
    ofTile i' (t :: ts) = ofTile i' ts := by
  refine List.filter_cons_of_neg ?_
  rw [h]
  simpa using Ne.symm hne

theorem ofTile_eq_self {ts : List Task} (h : ∀ t ∈ ts, t.tile? = some i) : ofTile i ts = ts :=
  List.filter_eq_self.2 fun t ht => decide_eq_true (h t ht)

theorem ofTile_eq_nil {ts : List Task} (h : ∀ t ∈ ts, ∃ i', i ≠ i' ∧ t.tile? = some i') :
    ofTile i ts = [] := by
  refine List.filter_eq_nil_iff.2 fun t ht => ?_
  obtain ⟨i', hne, hi⟩ := h t ht
  rw [hi]
  simpa using Ne.symm hne

/-- Tasks that belong to the jobs, job by job. -/
theorem ofTile_flatMap {f : Nat × Job → List Task} (hf : ∀ j, ∀ t ∈ f j, t.tile? = some j.1)
    (hd : (jobs.map (·.1)).Nodup) (hj : j ∈ jobs) : ofTile j.1 (jobs.flatMap f) = f j := by
  induction jobs with
  | nil => cases hj
  | cons j' js ih =>
    rw [List.map_cons, List.nodup_cons] at hd
    rw [List.flatMap_cons, ofTile_append]
    rcases List.mem_cons.1 hj with rfl | hj
    · have hrest : ofTile j.1 (js.flatMap f) = [] := by
        refine ofTile_eq_nil fun t ht => ?_
        obtain ⟨j', hj', ht⟩ := List.mem_flatMap.1 ht
        exact ⟨j'.1, fun h => hd.1 (h ▸ List.mem_map_of_mem hj'), hf j' t ht⟩
      rw [ofTile_eq_self (hf j), hrest, List.append_nil]
    · have hne : j.1 ≠ j'.1 := fun h => hd.1 (h ▸ List.mem_map_of_mem hj)
      rw [ofTile_eq_nil fun t ht => ⟨j'.1, hne, hf j' t ht⟩, List.nil_append, ih hd.2 hj]

/-- A schedule hands out each job, has it handled and waits for it. -/
theorem ofTile_schedule (p : Pipeline) (hd : (jobs.map (·.1)).Nodup) (hj : j ∈ jobs) :
    ofTile j.1 (Wall.schedule p jobs) = [.dispatch j.1 j.2, .work j.1, .await j.1] := by
  cases p with
  | sequential =>
    refine ofTile_flatMap (f := fun j => [.dispatch j.1 j.2, .work j.1, .await j.1]) ?_ hd hj
    intro j t ht
    simp only [List.mem_cons, List.not_mem_nil, or_false] at ht
    rcases ht with rfl | rfl | rfl <;> rfl
  | barrier =>
    have hone : ∀ f : Nat × Job → Task, (∀ j, (f j).tile? = some j.1) →
        ofTile j.1 (jobs.map f) = [f j] := by
      intro f hf
      rw [List.map_eq_flatMap]
      exact ofTile_flatMap (fun j t ht => List.mem_singleton.1 ht ▸ hf j) hd hj
    have hdispatch := hone (fun j => .dispatch j.1 j.2) fun _ => rfl
    have hwork := hone (fun j => .work j.1) fun _ => rfl
    have hawait := hone (fun j => .await j.1) fun _ => rfl
    rw [Wall.schedule, ofTile_append, ofTile_append, hdispatch, hwork, hawait]
    rfl

end Task

/-! ### Steps -/

/-- A frame in progress: the wall, what has been seen, what the one who presents is still to do, and
    the jobs that workers have in hand, by the tasks that end them. -/
structure Shift where
  wall : Wall
  events : List Event
  calls : List Task
  ends : List Task

namespace Shift

/-- The frame when it has just begun. -/
def start (w : Wall) (es : List Event) (p : Pipeline) (jobs : List (Nat × Job)) : Shift :=
  ⟨w, es, (Wall.schedule p jobs).filter Task.isCall, []⟩

/-- Somebody does a task, and this is left to do; a job that is taken up is left to be ended. -/
def does (s : Shift) (t : Task) (calls ends : List Task) : Shift :=
  let e := s.wall.exec s.events.length t
  { wall := e.wall, events := s.events ++ e.events, calls, ends := ends ++ e.tasks }

/-- One step: the one who presents hands out a job, or waits for a worker whose signal is raised; a
    worker that has no job in hand takes up the next one in its queue, or ends the one it has. -/
inductive Step (s : Shift) : Shift → Prop
  | hand {i : Nat} {job : Job} {calls : List Task} (h : s.calls = .dispatch i job :: calls) :
      Step s (s.does (.dispatch i job) calls s.ends)
  | collect {i : Nat} {calls : List Task} (h : s.calls = .await i :: calls)
      (hr : s.wall.raised i = true) : Step s (s.does (.await i) calls s.ends)
  | take {i : Nat} (hq : s.wall.waiting i ≠ 0) (hi : ∀ t ∈ s.ends, t.tile? ≠ some i) :
      Step s (s.does (.work i) s.calls s.ends)
  | finish {t : Task} {ends ends' : List Task} (h : s.ends = ends ++ t :: ends') :
      Step s (s.does t s.calls (ends ++ ends'))

/-- Some steps, one after another. -/
inductive Takes (s : Shift) : Nat → Shift → Prop
  | refl : Takes s 0 s
  | tail {n : Nat} {u u' : Shift} (h : Takes s n u) (hs : u.Step u') : Takes s (n + 1) u'

/-- At every tile, the waits that are still to come are for a job that is still to be handed out,
    waits in the queue, is in the worker's hand, or has ended with the signal raised. -/
def Balanced (s : Shift) : Prop :=
  ∀ i, (Task.ofTile i s.calls).countP Task.isAwait =
    (Task.ofTile i s.calls).countP Task.isDispatch + s.wall.waiting i +
      (Task.ofTile i s.ends).length + (s.wall.raised i).toNat

/-! ### Orders of all kinds -/

/-- The tiles are in some phases of their jobs, and what is left to do is what they still need. -/
structure Sound (v : Wall) (jobs : List (Nat × Job)) (es : List Event) (phase : Nat → Phase)
    (s : Shift) : Prop where
  midway : v.Midway jobs es phase s.wall s.events
  calls_of : ∀ task ∈ s.calls, ∃ j ∈ jobs, task.tile? = some j.1
  ends_of : ∀ task ∈ s.ends, ∃ j ∈ jobs, task.tile? = some j.1
  calls_eq : ∀ j ∈ jobs, ∀ t, v.tiles[j.1]? = some t →
    Task.ofTile j.1 s.calls = (t.tasks j.1 j.2 (phase j.1)).filter Task.isCall
  ends_eq : ∀ j ∈ jobs, ∀ t, v.tiles[j.1]? = some t →
    Task.ofTile j.1 s.ends = (t.tasks j.1 j.2 (phase j.1)).filter Task.isFinish

variable {v : Wall} {jobs : List (Nat × Job)} {es : List Event} {phase : Nat → Phase} {s s' : Shift}
  {j : Nat × Job} {t : Tile} {task : Task} {calls ends ends' : List Task}

theorem sound_start (h : v.Manned jobs) (es : List Event) (p : Pipeline) :
    (start v es p jobs).Sound v jobs es (fun _ => .due) where
  midway := v.midway_due jobs es
  calls_of := fun _ ht => Wall.exists_job_of_mem_schedule (List.mem_of_mem_filter ht)
  ends_of := List.forall_mem_nil _
  calls_eq := by
    intro j hj t _
    rw [start, Task.ofTile, List.filter_comm]
    exact congrArg (List.filter Task.isCall) (Task.ofTile_schedule p h.nodup hj)
  ends_eq := fun j _ t _ => rfl

/-- The task that is next for a tile takes it to its next phase, if nothing changes for the others
    and the calls that are left for this one are those that it needs in the next phase. -/
theorem Sound.does (hs : s.Sound v jobs es phase) (h : v.Manned jobs) (hj : j ∈ jobs)
    (ht : v.tiles[j.1]? = some t) (htask : (t.tasks j.1 j.2 (phase j.1)).head? = some task)
    (hcalls : calls.Sublist s.calls) (hends : ends.Sublist s.ends)
    (hother : ∀ i, i ≠ j.1 → Task.ofTile i calls = Task.ofTile i s.calls ∧
      Task.ofTile i ends = Task.ofTile i s.ends)
    (hcallsj : Task.ofTile j.1 calls = (t.tasks j.1 j.2 (phase j.1).next).filter Task.isCall)
    (hendsj : Task.ofTile j.1 ends = []) :
    (s.does task calls ends).Sound v jobs es (Function.update phase j.1 (phase j.1).next) := by
  obtain ⟨hmidway, htasks⟩ := hs.midway.exec h hj ht htask s.events.length
  have hleft : ∀ i, Task.ofTile i (s.does task calls ends).ends =
      Task.ofTile i ends ++ Task.ofTile i (t.left j.1 j.2 (phase j.1)) := by
    intro i
    rw [← Task.ofTile_append, ← htasks]
    rfl
  refine ⟨hmidway, fun task' ht' => hs.calls_of task' (hcalls.subset ht'), ?_,
    h.forall_update (P := fun j t φ => Task.ofTile j.1 calls =
      (t.tasks j.1 j.2 φ).filter Task.isCall) hj ht hcallsj fun j' hj' hi t' ht' => ?_,
    h.forall_update (P := fun j t φ => Task.ofTile j.1 (s.does task _ _).ends =
      (t.tasks j.1 j.2 φ).filter Task.isFinish) hj ht ?_ fun j' hj' hi t' ht' => ?_⟩
  · intro task' ht'
    rcases List.mem_append.1 ht' with ht' | ht'
    · exact hs.ends_of task' (hends.subset ht')
    · rw [htasks] at ht'
      exact ⟨j, hj, Tile.tile?_of_mem_left ht'⟩
  · exact (hother j'.1 hi).1.trans (hs.calls_eq j' hj' t' ht')
  · rw [hleft, hendsj, List.nil_append, Task.ofTile_eq_self fun _ => Tile.tile?_of_mem_left]
    cases phase j.1 <;> rfl
  · rw [hleft, Task.ofTile_eq_nil fun _ ht => ⟨j.1, hi, Tile.tile?_of_mem_left ht⟩,
      List.append_nil, (hother j'.1 hi).2, hs.ends_eq j' hj' t' ht']

/-- A call that is next is a call for the tile of some job. -/
theorem Sound.head (hs : s.Sound v jobs es phase) (h : v.Manned jobs)
    (hc : s.calls = task :: calls) :
    ∃ j ∈ jobs, ∃ t, v.tiles[j.1]? = some t ∧ task.tile? = some j.1 ∧
      (t.tasks j.1 j.2 (phase j.1)).filter Task.isCall = task :: Task.ofTile j.1 calls := by
  obtain ⟨j, hj, hi⟩ := hs.calls_of _ (hc ▸ List.mem_cons_self)
  obtain ⟨t, -, ht, -⟩ := h.staffed j hj
  refine ⟨j, hj, t, ht, hi, ?_⟩
  rw [← hs.calls_eq j hj t ht, hc, Task.ofTile_cons_self hi]

/-- A job that is in hand is that of a tile in this phase. -/
theorem Sound.inHand (hs : s.Sound v jobs es phase) (h : v.Manned jobs) (he : task ∈ s.ends) :
    ∃ j ∈ jobs, ∃ t, v.tiles[j.1]? = some t ∧ phase j.1 = .inHand ∧
      task = .finish j.1 j.2.upload (t.submission j.2) := by
  obtain ⟨j, hj, hi⟩ := hs.ends_of _ he
  obtain ⟨t, -, ht, -⟩ := h.staffed j hj
  have hmem : task ∈ Task.ofTile j.1 s.ends := List.mem_filter.2 ⟨he, decide_eq_true hi⟩
  rw [hs.ends_eq j hj t ht] at hmem
  refine ⟨j, hj, t, ht, ?_⟩
  cases hφ : phase j.1 with
  | inHand =>
    rw [hφ] at hmem
    exact ⟨rfl, List.mem_singleton.1 hmem⟩
  | _ =>
    rw [hφ] at hmem
    cases hmem

/-- No tile has a job in hand while it is in another phase. -/
theorem Sound.ofTile_ends (hs : s.Sound v jobs es phase) (hj : j ∈ jobs)
    (ht : v.tiles[j.1]? = some t) (hφ : phase j.1 ≠ .inHand) : Task.ofTile j.1 s.ends = [] := by
  rw [hs.ends_eq j hj t ht]
  cases hφ' : phase j.1 with
  | inHand => exact absurd hφ' hφ
  | _ => rfl

/-- The one who presents does its next task. -/
theorem Sound.call (hs : s.Sound v jobs es phase) (h : v.Manned jobs) (hj : j ∈ jobs)
    (ht : v.tiles[j.1]? = some t) (hc : s.calls = task :: calls) (hi : task.tile? = some j.1)
    (hhead : (t.tasks j.1 j.2 (phase j.1)).head? = some task) (hφ : phase j.1 ≠ .inHand)
    (hcalls : Task.ofTile j.1 calls = (t.tasks j.1 j.2 (phase j.1).next).filter Task.isCall) :
    (s.does task calls s.ends).Sound v jobs es (Function.update phase j.1 (phase j.1).next) := by
  refine hs.does h hj ht hhead (hc ▸ List.sublist_cons_self task calls) (List.Sublist.refl _)
    (fun i hne => ⟨?_, rfl⟩) hcalls (hs.ofTile_ends hj ht hφ)
  rw [hc, Task.ofTile_cons_of_ne hi hne]

/-- A job that is due is handed out. -/
theorem Sound.hand (hs : s.Sound v jobs es phase) (h : v.Manned jobs) (hj : j ∈ jobs)
    (ht : v.tiles[j.1]? = some t) (hφ : phase j.1 = .due)
    (hc : s.calls = .dispatch j.1 j.2 :: calls) :
    (s.does (.dispatch j.1 j.2) calls s.ends).Sound v jobs es
      (Function.update phase j.1 .queued) := by
  have hcalls := hs.calls_eq j hj t ht
  rw [hφ, hc, Task.ofTile_cons_self rfl] at hcalls
  have hnext := hs.call h hj ht hc rfl (by rw [hφ]; rfl) (by rw [hφ]; nofun)
    (by rw [hφ]; exact (List.cons.inj hcalls).2)
  rwa [hφ] at hnext

/-- A job that waits is taken up. -/
theorem Sound.take (hs : s.Sound v jobs es phase) (h : v.Manned jobs) (hj : j ∈ jobs)
    (ht : v.tiles[j.1]? = some t) (hφ : phase j.1 = .queued) :
    (s.does (.work j.1) s.calls s.ends).Sound v jobs es (Function.update phase j.1 .inHand) := by
  have hcalls := hs.calls_eq j hj t ht
  rw [hφ] at hcalls
  have hnext := hs.does h hj ht (by rw [hφ]; rfl) (List.Sublist.refl _) (List.Sublist.refl _)
    (fun _ _ => ⟨rfl, rfl⟩) (by rw [hφ]; exact hcalls) (hs.ofTile_ends hj ht (by rw [hφ]; nofun))
  rwa [hφ] at hnext

/-- A job that is in hand is ended. -/
theorem Sound.finish (hs : s.Sound v jobs es phase) (h : v.Manned jobs) (hj : j ∈ jobs)
    (ht : v.tiles[j.1]? = some t) (hφ : phase j.1 = .inHand)
    (he : s.ends = ends ++ .finish j.1 j.2.upload (t.submission j.2) :: ends') :
    (s.does (.finish j.1 j.2.upload (t.submission j.2)) s.calls (ends ++ ends')).Sound v jobs es
      (Function.update phase j.1 .raised) := by
  have hcalls := hs.calls_eq j hj t ht
  have hends := hs.ends_eq j hj t ht
  rw [hφ] at hcalls hends
  have hnil : Task.ofTile j.1 (ends ++ ends') = [] := by
    rw [he, Task.ofTile_append, Task.ofTile_cons_self rfl] at hends
    have hlength : (Task.ofTile j.1 ends ++ _ :: Task.ofTile j.1 ends').length = 1 :=
      congrArg List.length hends
    rw [List.length_append, List.length_cons] at hlength
    refine List.length_eq_zero_iff.1 ?_
    rw [Task.ofTile_append, List.length_append]
    omega
  have hnext := hs.does h hj ht (by rw [hφ]; rfl) (List.Sublist.refl _)
    (he ▸ (List.sublist_cons_self _ ends').append_left ends) (fun i hne => ⟨rfl, ?_⟩)
    (by rw [hφ]; exact hcalls) hnil
  · rwa [hφ] at hnext
  · rw [he, Task.ofTile_append, Task.ofTile_append, Task.ofTile_cons_of_ne rfl hne]

/-- A worker whose signal is raised is waited for. -/
theorem Sound.collect (hs : s.Sound v jobs es phase) (h : v.Manned jobs) (hj : j ∈ jobs)
    (ht : v.tiles[j.1]? = some t) (hφ : phase j.1 = .raised)
    (hc : s.calls = .await j.1 :: calls) :
    (s.does (.await j.1) calls s.ends).Sound v jobs es (Function.update phase j.1 .collected) := by
  have hcalls := hs.calls_eq j hj t ht
  rw [hφ, hc, Task.ofTile_cons_self rfl] at hcalls
  have hnext := hs.call h hj ht hc rfl (by rw [hφ]; rfl) (by rw [hφ]; nofun)
    (by rw [hφ]; exact (List.cons.inj hcalls).2)
  rwa [hφ] at hnext

/-- Whoever takes the next step, it takes one tile to its next phase. -/
theorem Sound.step (hs : s.Sound v jobs es phase) (h : v.Manned jobs) (hstep : s.Step s') :
    ∃ j ∈ jobs, ∃ φ, s'.Sound v jobs es (Function.update phase j.1 φ) ∧
      φ.rank = (phase j.1).rank + 1 := by
  cases hstep with
  | @hand i job calls hc =>
    obtain ⟨j, hj, t, ht, hi, hcalls⟩ := hs.head h hc
    cases hφ : phase j.1 with
    | due =>
      rw [hφ] at hcalls
      obtain ⟨rfl, rfl⟩ := Task.dispatch.inj (List.cons.inj hcalls).1
      exact ⟨j, hj, .queued, hs.hand h hj ht hφ hc, by rw [hφ]; rfl⟩
    | _ =>
      rw [hφ] at hcalls
      cases hcalls
  | collect hc hr =>
    obtain ⟨j, hj, t, ht, hi, -⟩ := hs.head h hc
    obtain rfl := Option.some.inj hi
    rw [hs.midway.wall_eq, h.raised_turned hj, decide_eq_true_eq] at hr
    exact ⟨j, hj, .collected, hs.collect h hj ht hr hc, by rw [hr]; rfl⟩
  | @take i hq hi =>
    rw [hs.midway.wall_eq] at hq
    have hmem : i ∈ jobs.map (·.1) := by
      by_contra hmem
      exact hq (h.waiting_turned_of_not_mem hmem phase)
    obtain ⟨j, hj, rfl⟩ := List.mem_map.1 hmem
    obtain ⟨t, -, ht, -⟩ := h.staffed j hj
    rw [h.waiting_turned hj] at hq
    have hφ : phase j.1 = .queued := by
      by_contra hφ
      exact hq (if_neg hφ)
    exact ⟨j, hj, .inHand, hs.take h hj ht hφ, by rw [hφ]; rfl⟩
  | finish he =>
    obtain ⟨j, hj, t, ht, hφ, rfl⟩ := hs.inHand h (he ▸ List.mem_append_right _ List.mem_cons_self)
    exact ⟨j, hj, .raised, hs.finish h hj ht hφ he, by rw [hφ]; rfl⟩

/-- However many steps have been taken, each of them for a tile. -/
theorem Takes.sound {n : Nat} (h : v.Manned jobs) {p : Pipeline}
    (hs : (start v es p jobs).Takes n s) :
    ∃ phase, s.Sound v jobs es phase ∧ (jobs.map fun j => (phase j.1).rank).sum = n := by
  induction hs with
  | refl =>
    refine ⟨fun _ => .due, sound_start h es p, ?_⟩
    simp [Phase.rank]
  | tail _ hstep ih =>
    obtain ⟨phase, hs, hsum⟩ := ih
    obtain ⟨j, hj, φ, hs, hrank⟩ := hs.step h hstep
    have hupdate := Wall.sum_update phase h.nodup hj (fun φ _ => φ.rank) φ
    refine ⟨_, hs, ?_⟩
    omega

/-- The waits that are left are balanced, in whatever phases the tiles are. -/
theorem Sound.balanced (hs : s.Sound v jobs es phase) (h : v.Manned jobs) : s.Balanced := by
  intro i
  rw [hs.midway.wall_eq]
  by_cases hi : i ∈ jobs.map (·.1)
  · obtain ⟨j, hj, rfl⟩ := List.mem_map.1 hi
    obtain ⟨t, -, ht, -⟩ := h.staffed j hj
    rw [hs.calls_eq j hj t ht, hs.ends_eq j hj t ht, h.waiting_turned hj, h.raised_turned hj]
    cases phase j.1 <;> rfl
  · have hnone : ∀ ts : List Task, (∀ task ∈ ts, ∃ j ∈ jobs, task.tile? = some j.1) →
        Task.ofTile i ts = [] := by
      intro ts hts
      refine Task.ofTile_eq_nil fun task ht => ?_
      obtain ⟨j, hj, hj'⟩ := hts task ht
      refine ⟨j.1, ?_, hj'⟩
      rintro rfl
      exact hi (List.mem_map_of_mem hj)
    rw [hnone s.calls hs.calls_of, hnone s.ends hs.ends_of, h.waiting_turned_of_not_mem hi,
      h.raised_turned_of_not_mem hi]
    rfl

/-- As long as there is something to do for the one who presents, somebody can take a step. -/
theorem Sound.exists_step (hs : s.Sound v jobs es phase) (h : v.Manned jobs) (hc : s.calls ≠ []) :
    ∃ s', s.Step s' := by
  obtain ⟨task, calls, hc⟩ := List.exists_cons_of_ne_nil hc
  obtain ⟨j, hj, t, ht, hi, hcalls⟩ := hs.head h hc
  have hends := hs.ends_eq j hj t ht
  have hwaiting := h.waiting_turned hj phase
  have hraised := h.raised_turned hj phase
  rw [← hs.midway.wall_eq] at hwaiting hraised
  cases hφ : phase j.1 with
  | due =>
    rw [hφ] at hcalls
    rw [← (List.cons.inj hcalls).1] at hc
    exact ⟨_, .hand hc⟩
  | queued =>
    have hq : s.wall.waiting j.1 ≠ 0 := by
      rw [hwaiting, hφ]
      exact Nat.one_ne_zero
    have hnone := hs.ofTile_ends hj ht (by rw [hφ]; nofun)
    refine ⟨_, .take hq fun u hu htile => ?_⟩
    exact List.filter_eq_nil_iff.1 hnone u hu (decide_eq_true htile)
  | inHand =>
    rw [hφ] at hends
    have hmem : Task.finish j.1 j.2.upload (t.submission j.2) ∈ Task.ofTile j.1 s.ends :=
      hends ▸ List.mem_singleton_self _
    obtain ⟨ends, ends', he⟩ := List.append_of_mem (List.mem_filter.1 hmem).1
    exact ⟨_, .finish he⟩
  | raised =>
    rw [hφ] at hcalls hraised
    rw [← (List.cons.inj hcalls).1] at hc
    exact ⟨_, .collect hc hraised⟩
  | collected =>
    rw [hφ] at hcalls
    cases hcalls

/-- When nothing is left for the one who presents, every tile is through. -/
theorem Sound.collected (hs : s.Sound v jobs es phase) (h : v.Manned jobs) (hc : s.calls = []) :
    ∀ j ∈ jobs, phase j.1 = .collected := by
  intro j hj
  obtain ⟨t, -, ht, -⟩ := h.staffed j hj
  have hcalls := hs.calls_eq j hj t ht
  rw [hc] at hcalls
  cases hφ : phase j.1 with
  | collected => rfl
  | _ =>
    rw [hφ] at hcalls
    cases hcalls

variable {n : Nat} {p : Pipeline}

/-- A frame takes no more than four steps for each job. -/
theorem Takes.le (hs : (start v es p jobs).Takes n s) (h : v.Manned jobs) :
    n ≤ 4 * jobs.length := by
  obtain ⟨phase, -, rfl⟩ := hs.sound h
  exact Phase.sum_rank_le phase jobs

/-- When nothing is left for the one who presents, four steps have been taken for each job, no
    worker has a job in hand, and everything has come to the same end, whatever the order. -/
theorem Takes.collected (hs : (start v es p jobs).Takes n s) (h : v.Manned jobs)
    (hc : s.calls = []) :
    n = 4 * jobs.length ∧ s.ends = [] ∧ v.Midway jobs es (fun _ => .collected) s.wall s.events := by
  obtain ⟨phase, hs, hsum⟩ := hs.sound h
  have hcollected := hs.collected h hc
  refine ⟨?_, ?_, hs.midway.congr hcollected⟩
  · have hranks : (jobs.map fun j => (phase j.1).rank) = jobs.map fun _ => 4 :=
      List.map_congr_left fun j hj => by rw [hcollected j hj]; rfl
    rw [← hsum, hranks, List.map_const', List.sum_replicate_nat, Nat.mul_comm]
  · refine List.eq_nil_iff_forall_not_mem.2 fun task hmem => ?_
    obtain ⟨j, hj, t, -, hφ, -⟩ := hs.inHand h hmem
    rw [hcollected j hj] at hφ
    cases hφ

end Shift

end VideoWall
