import VideoWall.Proofs.Staff
import VideoWall.Worker.Session

/-! What a worker holds.

    A worker's service is what it has done: the jobs that it was handed, those of them that it has
    composed, and what became of those that have ended. Its service alone says what it holds, the
    layers of the last job and the fence of the last frame that was shown; and the fences of its
    output that are alive are the one that it holds and those on their way to it
    (`Worker.Carries`). When no fence is on its way, at most one is alive: `Custody`. So it is with
    a worker that is used on its own, whatever is done with it (`Worker.Session.Attended`). The jobs
    that it has composed are those that it was handed, in that order, but for those that wait
    (`Worker.Session.Handed`). -/

namespace VideoWall

/-! ### Service -/

/-- What a worker has done: the jobs that it was handed, those that it has composed, and what became
    of those that have ended. -/
structure Service where
  handed : List Job := []
  jobs : List Job := []
  ended : List Submission := []

/-- What a frame that was shown came with. -/
def Submission.shown? : Submission → Option (Option Fence)
  | .shown fence => some fence
  | _ => none

namespace Service

/-- The fence of the last frame that was shown, if it came with one. -/
def fence? (s : Service) : Option Fence := (s.ended.filterMap Submission.shown?).getLast?.join

/-- The layers that the last job's window accepted. -/
def layers (s : Service) : List TileLayer :=
  (s.jobs.getLast?.map fun j => j.window.assign j.layers).getD []

/-- What the worker holds for it: the fence, and the layers. -/
def holds (s : Service) : Option Fence × List TileLayer := (s.fence?, s.layers)

/-- A job is handed to the worker. -/
def hands (s : Service) (job : Job) : Service := { s with handed := s.handed ++ [job] }

/-- A job is composed. -/
def takes (s : Service) (job : Job) : Service := { s with jobs := s.jobs ++ [job] }

/-- A job ends. -/
def ends (s : Service) (submission : Submission) : Service :=
  { s with ended := s.ended ++ [submission] }

variable (s : Service) (job : Job) (submission : Submission)

@[simp] theorem fence?_takes : (s.takes job).fence? = s.fence? := rfl

@[simp] theorem layers_takes : (s.takes job).layers = job.window.assign job.layers := by
  rw [layers, takes, List.getLast?_concat]
  rfl

/-- Only a frame that is shown makes a difference to the fence. -/
@[simp] theorem fence?_ends :
    (s.ends submission).fence? = submission.shown?.getD s.fence? := by
  rw [fence?, ends, List.filterMap_append]
  cases submission with
  | shown fence => exact congrArg Option.join List.getLast?_concat
  | _ =>
    rw [List.filterMap_cons_none rfl, List.filterMap_nil, List.append_nil]
    rfl

end Service

/-! ### Workers -/

/-- Letting a fence go. -/
theorem Output.live_release {o : Output} {fence : Option Fence} {rest : List Fence}
    (h : o.live.Perm (fence.toList ++ rest)) : (o.release fence).live.Perm rest := by
  cases fence with
  | none => exact h
  | some f =>
    have herase := h.erase f
    rwa [Option.toList_some, List.singleton_append, List.erase_cons_head] at herase

/-- A worker holds what its service says; the fences of its output that are alive are the one that
    it holds and those to come. -/
structure Worker.Carries (coming : List Fence) (s : Service) (k : Worker) (o : Output) : Prop where
  live : o.live.Perm (k.fence.toList ++ coming)
  fence_eq : k.fence = s.fence?
  retained_eq : k.retained = s.layers

namespace Worker

variable {k k' : Worker} {o : Output} {s : Service} {coming : List Fence} {job : Job}

/-- Showing a frame is where fences are made. -/
theorem live_compose (k : Worker) (o : Output) (job : Job) :
    (k.compose o job).2.1.live =
      o.live ++ ((k.compose o job).2.2.shown?.join).toList := by
  have hnone : o.live ++ (none : Option Fence).toList = o.live := List.append_nil _
  rw [compose, Output.present]
  dsimp only
  split
  · exact hnone.symm
  · cases o.failure with
    | some cause => exact hnone.symm
    | none =>
      cases o.fences with
      | true => rfl
      | false => exact hnone.symm

/-- A job is composed: its layers are kept, and its fence is on its way. -/
theorem Carries.compose (h : k.Carries coming s o) (htake : k.take? = some (job, k')) :
    (k'.compose o job).1.Carries (((k'.compose o job).2.2.shown?.join).toList ++ coming)
      (s.takes job) (k'.compose o job).2.1 := by
  obtain ⟨-, hk'⟩ := take?_eq_some htake
  have hfence : (k'.compose o job).1.fence = k.fence := by rw [compose_fst, hk']
  refine ⟨?_, ?_, ?_⟩
  · rw [live_compose, hfence]
    have hmove : (o.live ++ ((k'.compose o job).2.2.shown?.join).toList).Perm
        ((k.fence.toList ++ coming) ++ ((k'.compose o job).2.2.shown?.join).toList) :=
      h.live.append_right _
    rw [List.append_assoc] at hmove
    exact hmove.trans (List.perm_append_comm.append_left _)
  · rw [hfence, Service.fence?_takes]
    exact h.fence_eq
  · rw [compose_fst, Service.layers_takes]

theorem exited_settle (k : Worker) (o : Output) (submission : Submission) :
    (k.settle o submission).1.exited = k.exited := by
  cases submission <;> rfl

theorem retained_settle (k : Worker) (o : Output) (submission : Submission) :
    (k.settle o submission).1.retained = k.retained := by
  cases submission <;> rfl

/-- Only a frame that is shown makes a difference to the fence. -/
theorem fence_settle (k : Worker) (o : Output) (submission : Submission) :
    (k.settle o submission).1.fence = submission.shown?.getD k.fence := by
  cases submission <;> rfl

/-- A job ends: a fence that came with it takes the place of the one held. -/
theorem Carries.settle (submission : Submission)
    (h : k.Carries ((submission.shown?.join).toList ++ coming) s o) :
    (k.settle o submission).1.Carries coming (s.ends submission) (k.settle o submission).2 := by
  cases submission with
  | shown fence =>
    refine ⟨Output.live_release h.live, ?_, h.retained_eq⟩
    rw [Service.fence?_ends]
    rfl
  | _ =>
    refine ⟨h.live, ?_, h.retained_eq⟩
    rw [Service.fence?_ends]
    exact h.fence_eq

theorem Carries.retire (h : k.Carries coming s o) : (k.retire o).2.live.Perm coming :=
  Output.live_release h.live

end Worker

/-! ### At rest -/

/-- When no fence is on its way, at most one of an output's fences is alive: the one that its worker
    holds, if the last frame that it showed came with one. A worker that has exited holds
    nothing. -/
structure Custody (worker : Option Worker) (o : Output) (s : Service) : Prop where
  live_eq : o.live = (worker.bind (·.fence)).toList
  length_eq : o.live.length = if worker.any (!·.exited) && s.fence?.isSome then 1 else 0
  serving : ∀ k, worker = some k → k.exited = false → k.fence = s.fence? ∧ k.retained = s.layers
  exited : ∀ k, worker = some k → k.exited = true → k.fence = none ∧ k.retained = []

theorem custody_of_none {o : Output} (h : o.live = []) (s : Service) : Custody none o s where
  live_eq := h
  length_eq := by rw [h]; rfl
  serving := by rintro k ⟨⟩
  exited := by rintro k ⟨⟩

namespace Worker

variable {k : Worker} {o : Output} {s : Service}

theorem Carries.custody (h : k.Carries [] s o) (hx : k.exited = false) :
    Custody (some k) o s := by
  have hlive : o.live = k.fence.toList := by
    have hperm := h.live
    rw [List.append_nil] at hperm
    cases hf : k.fence with
    | none =>
      rw [hf] at hperm
      exact hperm.eq_nil
    | some f =>
      rw [hf] at hperm
      exact List.perm_singleton.1 hperm
  refine ⟨hlive, ?_, ?_, ?_⟩
  · rw [hlive, h.fence_eq, Option.any_some, hx]
    cases s.fence? <;> rfl
  · rintro _ ⟨⟩ -
    exact ⟨h.fence_eq, h.retained_eq⟩
  · rintro _ ⟨⟩ hx'
    rw [hx] at hx'
    cases hx'

theorem custody_of_exited (hlive : o.live = []) (hx : k.exited = true) (hf : k.fence = none)
    (hr : k.retained = []) : Custody (some k) o s where
  live_eq := by rw [hlive, Option.bind_some, hf]; rfl
  length_eq := by rw [hlive, Option.any_some, hx]; rfl
  serving := by
    rintro _ ⟨⟩ hx'
    rw [hx] at hx'
    cases hx'
  exited := by
    rintro _ ⟨⟩ -
    exact ⟨hf, hr⟩

end Worker

/-! ### A worker on its own -/

namespace Worker.Session

/-- The job that an operation hands to the worker, if the worker takes it. -/
def accepted? (s : Session) (op : Operation) : Option Job :=
  match op with
  | .frame job | .queue job => if (s.run op).2 = .ok then some job else none
  | _ => none

/-- What handling the next job adds to the service. -/
def serveNext (s : Session) (v : Service) : Service :=
  match s.worker.bind take? with
  | some (job, k) => (v.takes job).ends (k.compose s.output job).2.2
  | none => v

/-- The service once every queued job is handled. -/
def served (s : Session) (v : Service) : Service :=
  (Nat.repeat (fun p : Session × Service => (p.1.work, p.1.serveNext p.2))
    ((s.worker.map (·.queue.length)).getD 0) (s, v)).2

/-- What an operation has done at once: a frame that is waited for, an exit and a drop have all
    queued jobs handled. -/
def hurry (s : Session) (v : Service) : Operation → Service
  | .frame job => (s.run (.queue job)).1.served v
  | .exit | .drop => s.served v
  | _ => v

/-- The service after an operation: the worker may have been handed a job, and jobs may have been
    handled. -/
def serve (s : Session) (v : Service) (op : Operation) : Service :=
  s.hurry ((s.accepted? op).elim v v.hands) op

/-- Some operations, one after another, and the service. -/
def runs (p : Session × Service) (ops : List Operation) : Session × Service :=
  ops.foldl (fun p op => ((p.1.run op).1, p.1.serve p.2 op)) p

/-- The jobs that the worker takes over some operations, in order. -/
def accepted (s : Session) : List Operation → List Job
  | [] => []
  | op :: ops => (s.accepted? op).toList ++ accepted (s.run op).1 ops

/-- The worker holds what its service says until it exits, and nothing afterwards. -/
structure Attended (s : Session) (v : Service) : Prop where
  gone : s.worker = none → s.output.live = []
  serving : ∀ k, s.worker = some k → k.exited = false → k.Carries [] v s.output
  exited : ∀ k, s.worker = some k → k.exited = true →
    k.queue = [] ∧ k.fence = none ∧ k.retained = [] ∧ s.output.live = []

variable {s : Session} {v : Service}

theorem Attended.custody (h : s.Attended v) : Custody s.worker s.output v := by
  cases hk : s.worker with
  | none => exact custody_of_none (h.gone hk) v
  | some k =>
    cases hx : k.exited with
    | false => exact (h.serving k hk hx).custody hx
    | true =>
      obtain ⟨-, hf, hr, hlive⟩ := h.exited k hk hx
      exact custody_of_exited hlive hx hf hr

theorem attended_of_carries {k : Worker} (hk : s.worker = some k) (hx : k.exited = false)
    (h : k.Carries [] v s.output) : s.Attended v := by
  refine ⟨fun hn => ?_, fun k' hk' _ => ?_, fun k' hk' hx' => ?_⟩
  · cases hk.symm.trans hn
  · exact Option.some.inj (hk.symm.trans hk') ▸ h
  · rw [← Option.some.inj (hk.symm.trans hk'), hx] at hx'
    cases hx'

/-- A job is handled from beginning to end. -/
theorem Attended.work (h : s.Attended v) : s.work.Attended (s.serveNext v) := by
  rw [Session.work, serveNext]
  cases hk : s.worker with
  | none => exact h
  | some k =>
    cases htake : k.take? with
    | none =>
      rw [Option.bind_some, htake]
      exact h
    | some taken =>
      obtain ⟨job, k'⟩ := taken
      obtain ⟨hq, hk'⟩ := take?_eq_some htake
      have hx : k.exited = false := by
        refine Bool.eq_false_iff.2 fun hx => ?_
        rw [(h.exited k hk hx).1] at hq
        cases hq
      have hcarries := ((h.serving k hk hx).compose htake).settle
      have hx' : ((k'.compose s.output job).1.settle (k'.compose s.output job).2.1
          (k'.compose s.output job).2.2).1.exited = false := by
        rw [exited_settle, compose_fst, hk']
        exact hx
      rw [Option.bind_some, htake]
      exact attended_of_carries rfl hx' hcarries

/-- What holds of a session and a service however often the next job is handled, holds when the
    queue is finished. -/
theorem drain_induction {P : Session → Service → Prop}
    (step : ∀ s v, P s v → P s.work (s.serveNext v)) (h : P s v) : P s.drain (s.served v) := by
  have hall : ∀ n, P (Nat.repeat Session.work n s)
      (Nat.repeat (fun p : Session × Service => (p.1.work, p.1.serveNext p.2)) n (s, v)).2 ∧
      (Nat.repeat (fun p : Session × Service => (p.1.work, p.1.serveNext p.2)) n (s, v)).1 =
        Nat.repeat Session.work n s := by
    intro n
    induction n with
    | zero => exact ⟨h, rfl⟩
    | succ n ih =>
      obtain ⟨ih, heq⟩ := ih
      refine ⟨?_, congrArg Session.work heq⟩
      have hwork := step _ _ ih
      simpa only [Nat.repeat, heq] using hwork
  exact (hall _).1

theorem Attended.drain (h : s.Attended v) : s.drain.Attended (s.served v) :=
  drain_induction (fun _ _ h => h.work) h

/-- Nothing is held for a job that waits. -/
theorem Attended.enqueue (h : s.Attended v) {k : Worker} (hk : s.worker = some k)
    (hx : k.exited = false) (job : Job) :
    Attended { s with worker := some { k with queue := k.queue ++ [job] } } v := by
  obtain ⟨hlive, hfence, hretained⟩ := h.serving k hk hx
  exact attended_of_carries rfl hx ⟨hlive, hfence, hretained⟩

theorem Attended.await (h : s.Attended v) : s.await.Attended (s.served v) := by
  obtain ⟨hgone, hserving, hexited⟩ := h.drain
  refine ⟨fun hn => hgone (Option.map_eq_none_iff.1 hn), fun k hk => ?_, fun k hk => ?_⟩
  · obtain ⟨k₀, hk₀, rfl⟩ := Option.map_eq_some_iff.1 hk
    intro hx
    obtain ⟨hlive, hfence, hretained⟩ := hserving k₀ hk₀ hx
    exact ⟨hlive, hfence, hretained⟩
  · obtain ⟨k₀, hk₀, rfl⟩ := Option.map_eq_some_iff.1 hk
    exact hexited k₀ hk₀

/-- A worker that exits, if there is one, retires when its queue is finished. -/
theorem exit_cases (s : Session) :
    s.drain.worker = none ∧ s.exit = s.drain ∨
      ∃ k, s.drain.worker = some k ∧ s.exit = { s.drain with
        worker := some (k.retire s.drain.output).1
        output := (k.retire s.drain.output).2 } := by
  rw [Session.exit]
  dsimp only
  split
  · next hk => exact .inl ⟨hk, rfl⟩
  · next k hk => exact .inr ⟨k, hk, rfl⟩

/-- No fence is alive after an exit. -/
theorem Attended.live_exit (h : s.Attended v) : s.exit.output.live = [] := by
  rcases s.exit_cases with ⟨hk, hs⟩ | ⟨k, hk, hs⟩
  · rw [hs]
    exact h.drain.gone hk
  · rw [hs]
    cases hx : k.exited with
    | false => exact (h.drain.serving k hk hx).retire.eq_nil
    | true =>
      obtain ⟨-, hf, -, hlive⟩ := h.drain.exited k hk hx
      rw [Worker.retire, hf]
      exact hlive

theorem Attended.exit (h : s.Attended v) : s.exit.Attended (s.served v) := by
  have hlive := h.live_exit
  rcases s.exit_cases with ⟨-, hs⟩ | ⟨k, -, hs⟩
  · rw [hs]
    exact h.drain
  · rw [hs] at hlive ⊢
    refine ⟨fun _ => hlive, ?_, ?_⟩
    · rintro _ ⟨⟩ ⟨⟩
    · rintro _ ⟨⟩ -
      exact ⟨rfl, rfl, rfl, hlive⟩

/-- An exit, of a worker that may have exited before or be gone. -/
theorem Attended.run_exit (h : s.Attended v) : (s.run .exit).1.output.live = [] ∧
    ∀ k, (s.run .exit).1.worker = some k → k.exited = true := by
  rcases s.run_exit_cases with ⟨hk, hrun⟩ | ⟨-, hrun⟩
  · rw [hrun, hk]
    exact ⟨h.gone hk, nofun⟩
  · rw [hrun]
    refine ⟨h.live_exit, ?_⟩
    rcases s.exit_cases with ⟨hk', hs⟩ | ⟨k', -, hs⟩
    · rw [hs, hk']
      exact nofun
    · rw [hs]
      rintro _ ⟨⟩
      rfl

theorem Attended.drop (h : s.Attended v) : s.drop.Attended (s.served v) := by
  refine ⟨fun _ => h.live_exit, ?_, ?_⟩
  · rintro _ ⟨⟩
  · rintro _ ⟨⟩

/-- With no job queued, nothing is added to the service. -/
theorem served_of_nil (h : ∀ k, s.worker = some k → k.queue = []) (v : Service) :
    s.served v = v := by
  have hlength : (s.worker.map (·.queue.length)).getD 0 = 0 := by
    cases hk : s.worker with
    | none => rfl
    | some k =>
      rw [Option.map_some, h k hk]
      rfl
  rw [served, hlength]
  rfl

/-- Nothing more is held of a worker for what it is handed. -/
theorem Attended.hands (h : s.Attended v) (accepted : Option Job) :
    s.Attended (accepted.elim v v.hands) := by
  cases accepted with
  | none => exact h
  | some job =>
    refine ⟨h.gone, fun k hk hx => ?_, h.exited⟩
    obtain ⟨hlive, hfence, hretained⟩ := h.serving k hk hx
    exact ⟨hlive, hfence, hretained⟩

theorem Attended.hurry (h : s.Attended v) (op : Operation) :
    (s.run op).1.Attended (s.hurry v op) := by
  cases op with
  | change c =>
    refine ⟨h.gone, fun k hk hx => ?_, h.exited⟩
    obtain ⟨hlive, hfence, hretained⟩ := h.serving k hk hx
    exact ⟨hlive, hfence, hretained⟩
  | queue job =>
    rcases s.queue_cases job with ⟨reply, -, hqueue, -, -⟩ | ⟨k, hk, hx, hqueue, -⟩ <;> rw [hqueue]
    · exact h
    · exact h.enqueue hk hx job
  | frame job =>
    rw [Session.hurry]
    rcases s.queue_cases job with ⟨reply, -, hqueue, hframe, hx⟩ | ⟨k, hk, hx, hqueue, hframe⟩ <;>
      rw [hqueue, hframe]
    · rw [served_of_nil fun k hk => (h.exited k hk (hx k hk)).1]
      exact h
    · exact (h.enqueue hk hx job).await
  | drop => exact h.drop
  | exit =>
    rcases s.run_exit_cases with ⟨hk, hrun⟩ | ⟨-, hrun⟩ <;> rw [hrun]
    · rw [Session.hurry, served_of_nil (by rw [hk]; rintro k ⟨⟩)]
      exact h
    · exact h.exit
  | describe =>
    rw [fst_run_describe]
    exact h

theorem Attended.run (h : s.Attended v) (op : Operation) :
    (s.run op).1.Attended (s.serve v op) := (h.hands (s.accepted? op)).hurry op

theorem Attended.runs (h : s.Attended v) (ops : List Operation) :
    (Session.runs (s, v) ops).1.Attended (Session.runs (s, v) ops).2 := by
  induction ops generalizing s v with
  | nil => exact h
  | cons op ops ih => exact ih (h.run op)

theorem attended_create (id : OutputId) {o : Output} (h : o.live = []) :
    (create id o).Attended {} :=
  attended_of_carries (k := { id }) rfl rfl ⟨by rw [create, h]; rfl, rfl, rfl⟩

/-! ### Jobs -/

/-- The jobs that wait. -/
def waiting (s : Session) : List Job := (s.worker.map (·.queue)).getD []

/-- What the worker has composed, and then what waits, is what it was handed, in that order. What it
    has composed has ended. -/
structure Handed (s : Session) (v : Service) : Prop where
  jobs_eq : v.jobs ++ s.waiting = v.handed
  length_ended : v.ended.length = v.jobs.length

theorem waiting_of_worker {k : Worker} (hk : s.worker = some k) : s.waiting = k.queue := by
  rw [waiting, hk]
  rfl

theorem Handed.of_waiting (h : s.Handed v) {s' : Session} (hs : s'.waiting = s.waiting) :
    s'.Handed v := ⟨hs ▸ h.jobs_eq, h.length_ended⟩

/-- Nothing waits, or the first job that waits is handled. -/
theorem work_cases (s : Session) (v : Service) :
    s.waiting = [] ∧ s.work = s ∧ s.serveNext v = v ∨
      ∃ job rest submission, s.waiting = job :: rest ∧ s.work.waiting = rest ∧
        s.serveNext v = (v.takes job).ends submission := by
  cases hk : s.worker with
  | none => exact .inl ⟨by rw [waiting, hk]; rfl, by rw [Session.work, hk]; rfl,
      by rw [serveNext, hk]; rfl⟩
  | some k =>
    cases htake : k.take? with
    | none =>
      have hq : k.queue = [] := by
        rw [take?] at htake
        split at htake
        · assumption
        · cases htake
      exact .inl ⟨(waiting_of_worker hk).trans hq,
        by rw [Session.work, hk, Option.bind_some, htake],
        by rw [serveNext, hk, Option.bind_some, htake]⟩
    | some taken =>
      obtain ⟨job, k'⟩ := taken
      refine .inr ⟨job, k'.queue, (k'.compose s.output job).2.2, ?_, ?_, ?_⟩
      · exact (waiting_of_worker hk).trans (take?_eq_some htake).1
      · have hqueue : ((k'.compose s.output job).1.settle (k'.compose s.output job).2.1
            (k'.compose s.output job).2.2).1.queue = k'.queue := by
          rw [compose_fst]
          cases (k'.compose s.output job).2.2 <;> rfl
        rw [Session.work, hk, Option.bind_some, htake]
        exact hqueue
      · rw [serveNext, hk, Option.bind_some, htake]

/-- The next job waits no longer. -/
theorem waiting_work (s : Session) : s.work.waiting = s.waiting.tail := by
  rcases s.work_cases {} with ⟨hnil, hwork, -⟩ | ⟨job, rest, -, hwaiting, hwork, -⟩
  · rw [hwork, hnil]
    rfl
  · rw [hwork, hwaiting]
    rfl

theorem Handed.work (h : s.Handed v) : s.work.Handed (s.serveNext v) := by
  rcases s.work_cases v with ⟨-, hwork, hserve⟩ | ⟨job, rest, submission, hwaiting, hwork, hserve⟩
  · rw [hwork, hserve]
    exact h
  · have hjobs := h.jobs_eq
    rw [hwaiting, List.append_cons] at hjobs
    rw [hserve]
    refine ⟨?_, ?_⟩
    · rw [hwork]
      exact hjobs
    · rw [Service.ends, Service.takes, List.length_append, List.length_append, h.length_ended]
      rfl

/-- Nothing waits any more when the queue is finished. -/
theorem waiting_drain (s : Session) : s.drain.waiting = [] := by
  have hall : ∀ n, (Nat.repeat Session.work n s).waiting = s.waiting.drop n := by
    intro n
    induction n with
    | zero => rfl
    | succ n ih => rw [Nat.repeat, waiting_work, ih, List.tail_drop]
  have hlength : (s.worker.map (·.queue.length)).getD 0 = s.waiting.length := by
    cases hk : s.worker <;> simp [waiting, hk]
  rw [Session.drain, hall, hlength, List.drop_length]

theorem Handed.drain (h : s.Handed v) : s.drain.Handed (s.served v) :=
  drain_induction (fun _ _ h => h.work) h

/-- A worker takes a job unless it has exited. -/
theorem Handed.queue (h : s.Handed v) (job : Job) :
    (s.run (.queue job)).1.Handed ((s.accepted? (.queue job)).elim v v.hands) := by
  rw [accepted?]
  rcases s.queue_cases job with ⟨reply, hreply, hqueue, -, -⟩ | ⟨k, hk, -, hqueue, -⟩ <;>
    rw [hqueue]
  · rw [if_neg hreply]
    exact h
  · rw [if_pos rfl]
    have hjobs := h.jobs_eq
    rw [waiting_of_worker hk] at hjobs
    refine ⟨?_, h.length_ended⟩
    rw [Option.elim_some, Service.hands, ← hjobs, waiting_of_worker rfl, List.append_assoc]

/-- To a frame that is waited for the worker replies as to one that is only queued. -/
theorem accepted?_frame (s : Session) (job : Job) :
    s.accepted? (.frame job) = s.accepted? (.queue job) := by
  rw [accepted?, accepted?]
  rcases s.queue_cases job with ⟨reply, -, hqueue, hframe, -⟩ | ⟨k, -, -, hqueue, hframe⟩ <;>
    rw [hqueue, hframe]

theorem Handed.run (h : s.Handed v) (ha : s.Attended v) (op : Operation) :
    (s.run op).1.Handed (s.serve v op) := by
  cases op with
  | change c => exact h.of_waiting rfl
  | describe =>
    rw [fst_run_describe]
    exact h
  | queue job => exact h.queue job
  | frame job =>
    have hqueue := h.queue job
    rw [serve, Session.hurry, accepted?_frame]
    rcases s.queue_cases job with ⟨reply, -, hs, hframe, hx⟩ | ⟨k, -, -, hs, hframe⟩ <;>
      rw [hs] at hqueue ⊢ <;> rw [hframe]
    · rw [served_of_nil fun k hk => (ha.exited k hk (hx k hk)).1]
      exact hqueue
    · refine hqueue.drain.of_waiting ?_
      rw [Session.await, waiting, waiting, Option.map_map]
      rfl
  | exit =>
    have hserve : s.serve v .exit = s.served v := rfl
    rcases s.run_exit_cases with ⟨hk, hrun⟩ | ⟨-, hrun⟩ <;> rw [hrun, hserve]
    · rw [served_of_nil (by rw [hk]; rintro k ⟨⟩)]
      exact h
    · refine h.drain.of_waiting ?_
      rcases s.exit_cases with ⟨-, hs⟩ | ⟨k', -, hs⟩
      · rw [hs]
      · rw [hs, s.waiting_drain]
        rfl
  | drop => exact h.drain.of_waiting s.waiting_drain.symm

/-- Handling jobs hands no other to the worker. -/
theorem handed_served (s : Session) (v : Service) : (s.served v).handed = v.handed := by
  refine drain_induction (P := fun _ v' => v'.handed = v.handed) (fun s v' h => ?_) rfl
  rcases s.work_cases v' with ⟨-, -, hserve⟩ | ⟨job, rest, submission, -, -, hserve⟩
  · rw [hserve]
    exact h
  · rw [hserve]
    exact h

theorem handed_serve (s : Session) (v : Service) (op : Operation) :
    (s.serve v op).handed = v.handed ++ (s.accepted? op).toList := by
  have hhurry : ∀ v', (s.hurry v' op).handed = v'.handed := by
    intro v'
    cases op with
    | change | queue | describe => rfl
    | frame job => exact handed_served ..
    | exit => exact handed_served ..
    | drop => exact handed_served ..
  rw [serve, hhurry]
  cases s.accepted? op with
  | none => exact (List.append_nil _).symm
  | some job => rfl

/-- What the worker was handed is what it took. -/
theorem handed_runs (s : Session) (v : Service) (ops : List Operation) :
    (Session.runs (s, v) ops).2.handed = v.handed ++ s.accepted ops := by
  induction ops generalizing s v with
  | nil => exact (List.append_nil _).symm
  | cons op ops ih => calc
      (Session.runs ((s.run op).1, s.serve v op) ops).2.handed
      _ = (s.serve v op).handed ++ (s.run op).1.accepted ops := ih _ _
      _ = v.handed ++ s.accepted (op :: ops) := by
        rw [handed_serve, List.append_assoc]
        rfl

theorem Handed.runs (h : s.Handed v) (ha : s.Attended v) (ops : List Operation) :
    (Session.runs (s, v) ops).1.Handed (Session.runs (s, v) ops).2 := by
  induction ops generalizing s v with
  | nil => exact h
  | cons op ops ih => exact ih (h.run ha op) (ha.run op)

end Worker.Session

end VideoWall
