import VideoWall.Proofs.Service

/-! How a worker ends.

    A frame that is only queued is handled when the worker gets to it, at the latest when the worker
    is told to exit. What comes of it is what would come of it had it been waited for, since a frame
    is composed without a look at what still waits: `Session.core_handle`. So after every frame the
    worker keeps the same layers and the same fence, and its output has had the same calls, whenever
    the worker gets its turns: `Session.exit_drains`. All that matters is where the frames come
    among the changes of the output: `agenda`. A worker that has exited stays as it is; nothing that
    is done with it afterwards comes to its output. -/

namespace VideoWall

/-- What becomes of a frame with these layers. -/
def Output.submission (o : Output) (layers : List TileLayer) : Submission :=
  if layers.isEmpty then .blank else
    match o.failure with
    | some cause => .refused cause
    | none => .shown (if o.fences then some ⟨o.issued⟩ else none)

namespace Worker

theorem submission_compose (k : Worker) (o : Output) (job : Job) :
    (k.compose o job).2.2 = o.submission (job.window.assign job.layers) := by
  rw [compose, Output.present, Output.submission]
  cases (job.window.assign job.layers).isEmpty with
  | true => rfl
  | false => cases o.failure <;> cases o.fences <;> rfl

/-- A worker without what still waits: its queue, and whoever waits for its completion. -/
def core (k : Worker) : Worker := { k with queue := [], signal := {} }

/-- What happens to a worker: something is asked of it, or it gets to its next frame. -/
inductive Move where
  | ask (op : Operation)
  | work

namespace Move

/-- The frame that a move queues. -/
def frame? : Move → Option Job
  | .ask (.queue job) => some job
  | _ => none

/-- The change that a move makes to the output. -/
def change? : Move → Option OutputChange
  | .ask (.change c) => some c
  | _ => none

/-- Whether a move queues a frame, handles one, or changes the output. -/
def isQueueing : Move → Bool
  | .ask (.queue _) | .ask (.change _) | .work => true
  | _ => false

/-- Whether a move drops the worker. -/
def isDrop : Move → Bool
  | .ask .drop => true
  | _ => false

end Move

namespace Operation

/-- The frame that an operation has handled at once. -/
def frame? : Operation → Option Job
  | .frame job => some job
  | _ => none

/-- The change that an operation makes to the output. -/
def change? : Operation → Option OutputChange
  | .change c => some c
  | _ => none

end Operation

/-- The frames that a worker gets to over some moves, with `queue` in its queue before, and the
    changes of its output, in the order in which they come to the output. -/
def agenda : List Job → List Move → List Operation
  | _, [] => []
  | queue, .ask (.queue job) :: moves => agenda (queue ++ [job]) moves
  | queue, .ask (.change c) :: moves => .change c :: agenda queue moves
  | job :: queue, .work :: moves => .frame job :: agenda queue moves
  | queue, _ :: moves => agenda queue moves

/-- With as many turns as frames wait, the worker gets to all of them. -/
theorem agenda_replicate (queue : List Job) :
    agenda queue (List.replicate queue.length .work) = queue.map .frame := by
  induction queue with
  | nil => rfl
  | cons job queue ih => exact congrArg (.frame job :: ·) ih

/-- There is nothing else on the agenda. -/
theorem eq_of_mem_agenda {op : Operation} {queue : List Job} {moves : List Move}
    (h : op ∈ agenda queue moves) : (∃ job, op = .frame job) ∨ ∃ c, op = .change c := by
  induction moves generalizing queue with
  | nil => cases h
  | cons m moves ih =>
    cases m with
    | work =>
      cases queue with
      | nil => exact ih h
      | cons job queue =>
        rcases List.mem_cons.1 h with rfl | h
        · exact .inl ⟨job, rfl⟩
        · exact ih h
    | ask op' =>
      cases op' with
      | queue job => exact ih h
      | change c =>
        rcases List.mem_cons.1 h with rfl | h
        · exact .inr ⟨c, rfl⟩
        · exact ih h
      | frame | exit | drop | describe => cases queue <;> exact ih h

namespace Session

/-- A session without what still waits. -/
def core (s : Session) : Session := { s with worker := s.worker.map Worker.core }

/-- Makes a move. -/
def move (s : Session) : Move → Session
  | .ask op => (s.run op).1
  | .work => s.work

/-- The turns that the worker still needs for its queue. -/
def turnsLeft (s : Session) : List Move :=
  List.replicate ((s.worker.map (·.queue.length)).getD 0) .work

/-- The sessions right after each frame that is handled over some moves. -/
def handlings : Session → List Move → List Session
  | _, [] => []
  | s, .work :: moves =>
    ((s.worker.bind take?).map fun _ => s.work).toList ++ handlings s.work moves
  | s, m :: moves => handlings (s.move m) moves

/-- The sessions right after each frame among some operations, done one after another by `step`. -/
def afterFrames (step : Session → Operation → Session) : Session → List Operation → List Session
  | _, [] => []
  | s, op :: ops => (op.frame?.map fun _ => step s op).toList ++ afterFrames step (step s op) ops

/-- The sessions right after each of some frames, when each is waited for. -/
def waits (s : Session) (ops : List Operation) : List Session :=
  s.afterFrames (fun s op => (s.run op).1) ops

/-- From `s` to `s'`, the worker handles a frame: it keeps the layers that the frame's window
    accepts, and if there are any its output is called with them. If the output shows them, the
    fence that they come with takes the place of the one held, and otherwise that one stays. -/
structure Handles (job : Job) (s s' : Session) : Prop where
  keeps : ∃ k k', s.worker = some k ∧ s'.worker = some k' ∧ k'.id = k.id ∧
    k'.retained = job.window.assign job.layers ∧
    k'.fence =
      ((s.output.submission (job.window.assign job.layers)).shown?.getD k.fence)
  calls_eq : s'.calls = s.calls ++
    ((s.output.submission (job.window.assign job.layers)).call? (job.window.assign job.layers)
      job.upload).toList
  uploads_eq : s'.uploads = s.uploads +
    (s.output.submission (job.window.assign job.layers)).uploads job.upload

/-- To drain the queue is to take the turns that are left. -/
theorem drain_eq (s : Session) : s.drain = s.turnsLeft.foldl move s := by
  have hall : ∀ n, Nat.repeat work n s = (List.replicate n Move.work).foldl move s := by
    intro n
    induction n with
    | zero => rfl
    | succ n ih => rw [Nat.repeat, ih, List.replicate_succ', List.foldl_append]; rfl
  exact hall _

theorem handlings_append (s : Session) (xs ys : List Move) :
    s.handlings (xs ++ ys) = s.handlings xs ++ (xs.foldl move s).handlings ys := by
  induction xs generalizing s with
  | nil => rfl
  | cons x xs ih =>
    cases x with
    | ask op => exact ih _
    | work =>
      rw [List.cons_append, handlings, handlings, ih, ← List.append_assoc]
      rfl

theorem afterFrames_append (step : Session → Operation → Session) (s : Session)
    (xs ys : List Operation) :
    s.afterFrames step (xs ++ ys) =
      s.afterFrames step xs ++ (xs.foldl step s).afterFrames step ys := by
  induction xs generalizing s with
  | nil => rfl
  | cons x xs ih =>
    rw [List.cons_append, afterFrames, afterFrames, ih, ← List.append_assoc]
    rfl

/-! ### Frames -/

/-- What handling a frame, or a change of the output, makes of a session, whatever still waits. -/
def does (s : Session) : Operation → Session
  | .frame job =>
    match s.worker with
    | none => s
    | some k => (s.handle k job).core
  | .change c => { s with output := s.output.change c }
  | _ => s

/-- The sessions after each of some frames, whatever still waits. -/
def progress (s : Session) (ops : List Operation) : List Session := s.afterFrames does ops

theorem progress_frame (s : Session) (job : Job) (ops : List Operation) :
    s.progress (.frame job :: ops) =
      s.does (.frame job) :: (s.does (.frame job)).progress ops := rfl

theorem progress_change (s : Session) (c : OutputChange) (ops : List Operation) :
    s.progress (.change c :: ops) = (s.does (.change c)).progress ops := rfl

/-- A frame is composed without a look at what still waits. -/
theorem core_handle (s : Session) (k : Worker) (job : Job) :
    (s.handle k job).core = (s.core.handle k.core job).core := by
  rw [handle, handle, compose, compose]
  dsimp only [core, Worker.core]
  cases (job.window.assign job.layers).isEmpty with
  | true => rfl
  | false =>
    cases s.output.present with
    | mk o answer => cases answer <;> rfl

/-- The session has a worker in service, under a name and with some frames in its queue. -/
def Serving (s : Session) (id : OutputId) (queue : List Job) : Prop :=
  ∃ k, s.worker = some k ∧ k.exited = false ∧ k.id = id ∧ k.queue = queue

namespace Serving

variable {s : Session} {id : OutputId} {job : Job} {queue : List Job}

/-- Handling a frame. -/
theorem handle {k : Worker} (hk : s.worker = some k) (hx : k.exited = false) (queue : List Job)
    (job : Job) :
    (s.handle { k with queue } job).Serving k.id queue ∧
      (s.handle { k with queue } job).core = s.core.does (.frame job) := by
  constructor
  · rw [Session.handle, compose]
    dsimp only
    cases (job.window.assign job.layers).isEmpty with
    | true => exact ⟨_, rfl, hx, rfl, rfl⟩
    | false =>
      cases s.output.present with
      | mk o answer => cases answer <;> exact ⟨_, rfl, hx, rfl, rfl⟩
  · have hcore : s.core.worker = some k.core := congrArg (Option.map Worker.core) hk
    rw [does, hcore]
    exact core_handle s _ job

/-- A frame that is queued waits behind the others. -/
theorem enqueue (h : s.Serving id queue) (job : Job) :
    (s.run (.queue job)).1.Serving id (queue ++ [job]) ∧ (s.run (.queue job)).1.core = s.core ∧
      (s.run (.queue job)).2 = .ok := by
  obtain ⟨k, hk, hx, rfl, rfl⟩ := h
  rcases s.queue_cases job with ⟨reply, -, -, -, hexited⟩ | ⟨k', hk', -, hrun, -⟩
  · cases hx.symm.trans (hexited k hk)
  · obtain rfl := Option.some.inj (hk.symm.trans hk')
    rw [hrun]
    refine ⟨⟨_, rfl, hx, rfl, rfl⟩, ?_, rfl⟩
    rw [core, core, hk]
    rfl

/-- The output changes, whatever waits. -/
theorem change (h : s.Serving id queue) (c : OutputChange) :
    (s.run (.change c)).1.Serving id queue ∧
      (s.run (.change c)).1.core = s.core.does (.change c) := by
  obtain ⟨k, hk, hx, hid, hq⟩ := h
  exact ⟨⟨k, hk, hx, hid, hq⟩, rfl⟩

/-- The worker gets to the next frame. -/
theorem work (h : s.Serving id (job :: queue)) :
    s.work.Serving id queue ∧ s.work.core = s.core.does (.frame job) ∧
      s.handlings [.work] = [s.work] := by
  obtain ⟨k, hk, hx, rfl, hq⟩ := h
  have htake : s.worker.bind take? = some (job, { k with queue }) := by
    rw [hk, Option.bind_some, take?, hq]
  rw [handlings, Session.work, htake]
  exact ⟨(handle hk hx queue job).1, (handle hk hx queue job).2, rfl⟩

/-- The worker gets its turn, but nothing waits. -/
theorem work_of_nil (h : s.Serving id []) : s.work = s ∧ s.handlings [.work] = [] := by
  obtain ⟨k, hk, -, -, hq⟩ := h
  have htake : s.worker.bind take? = none := by
    rw [hk, Option.bind_some, take?, hq]
  rw [handlings, Session.work, htake]
  exact ⟨rfl, rfl⟩

/-- As many turns as frames wait: all of them are handled. -/
theorem turns (h : s.Serving id queue) :
    ((List.replicate queue.length Move.work).foldl move s).Serving id [] ∧
      ((List.replicate queue.length Move.work).foldl move s).core =
        (queue.map Operation.frame).foldl does s.core ∧
      (s.handlings (List.replicate queue.length Move.work)).map core =
        s.core.progress (queue.map .frame) := by
  induction queue generalizing s with
  | nil => exact ⟨h, rfl, rfl⟩
  | cons job queue ih =>
    obtain ⟨hs, hcore, hhandled⟩ := h.work
    obtain ⟨hs', hcore', hhandled'⟩ := ih hs
    rw [List.length_cons, List.replicate_succ, ← List.singleton_append, List.foldl_append,
      handlings_append, List.map_append, hhandled, List.map_cons, progress_frame, ← hcore]
    exact ⟨hs', hcore'.trans (by rw [hcore]; rfl), congrArg (s.work.core :: ·) hhandled'⟩

end Serving

/-- Over some moves with `queue` in the queue before, the operations `ops` come to the output and
    the frames of `rest` wait. -/
structure Advances (id : OutputId) (s : Session) (queue : List Job) (ms : List Move)
    (ops : List Operation) (rest : List Job) : Prop where
  agenda_eq : ∀ more, agenda queue (ms ++ more) = ops ++ agenda rest more
  frames_eq : ops.filterMap Operation.frame? ++ rest = queue ++ ms.filterMap Move.frame?
  changes_eq : ops.filterMap Operation.change? = ms.filterMap Move.change?
  serving : (ms.foldl move s).Serving id rest
  core_eq : (ms.foldl move s).core = ops.foldl does s.core
  handled_eq : (s.handlings ms).map core = s.core.progress ops

namespace Serving

variable {s : Session} {id : OutputId} {job : Job} {queue : List Job}

/-- Frames are queued and the output changes while the worker gets its turns: it has handled the
    first frames, the others wait. -/
theorem moves {ms : List Move} (h : s.Serving id queue) (hm : ∀ m ∈ ms, m.isQueueing = true) :
    ∃ ops rest, s.Advances id queue ms ops rest := by
  induction ms generalizing s queue with
  | nil => exact ⟨[], queue, fun _ => rfl, (List.append_nil _).symm, rfl, h, rfl, rfl⟩
  | cons m ms ih =>
    have hms : ∀ m ∈ ms, m.isQueueing = true := fun m' hm' => hm m' (List.mem_cons_of_mem m hm')
    cases m with
    | work =>
      have hsplit : s.handlings (.work :: ms) = s.handlings [.work] ++ s.work.handlings ms :=
        s.handlings_append [.work] ms
      cases queue with
      | nil =>
        obtain ⟨hwork, hhandled⟩ := h.work_of_nil
        obtain ⟨ops, rest, ha⟩ := ih h hms
        refine ⟨ops, rest, ha.agenda_eq, ha.frames_eq, ha.changes_eq, ?_, ?_, ?_⟩
        · rw [List.foldl_cons, move, hwork]
          exact ha.serving
        · rw [List.foldl_cons, move, hwork]
          exact ha.core_eq
        · rw [hsplit, hhandled, hwork]
          exact ha.handled_eq
      | cons job queue =>
        obtain ⟨hs, hcore, hhandled⟩ := h.work
        obtain ⟨ops, rest, ha⟩ := ih hs hms
        refine ⟨.frame job :: ops, rest, ?_, congrArg (job :: ·) ha.frames_eq, ha.changes_eq,
          ha.serving, ?_, ?_⟩
        · intro more
          rw [List.cons_append, List.cons_append, agenda, ha.agenda_eq]
        · rw [List.foldl_cons, move, ha.core_eq, hcore]
          rfl
        · rw [hsplit, hhandled, List.map_append, ha.handled_eq, progress_frame, ← hcore]
          rfl
    | ask op =>
      cases op with
      | queue job =>
        obtain ⟨hs, hcore, -⟩ := h.enqueue job
        obtain ⟨ops, rest, ha⟩ := ih hs hms
        refine ⟨ops, rest, ha.agenda_eq, ?_, ha.changes_eq, ha.serving, ?_, ?_⟩
        · rw [ha.frames_eq, List.append_assoc]
          rfl
        · rw [List.foldl_cons, move, ha.core_eq, hcore]
        · rw [← hcore]
          exact ha.handled_eq
      | change c =>
        obtain ⟨hs, hcore⟩ := h.change c
        obtain ⟨ops, rest, ha⟩ := ih hs hms
        refine ⟨.change c :: ops, rest, ?_, ha.frames_eq, congrArg (c :: ·) ha.changes_eq,
          ha.serving, ?_, ?_⟩
        · intro more
          rw [List.cons_append, List.cons_append, agenda, ha.agenda_eq]
        · rw [List.foldl_cons, move, ha.core_eq, hcore]
          rfl
        · rw [progress_change, ← hcore]
          exact ha.handled_eq
      | _ => exact absurd (hm _ List.mem_cons_self) Bool.false_ne_true

theorem turnsLeft_eq (h : s.Serving id queue) :
    s.turnsLeft = List.replicate queue.length Move.work := by
  obtain ⟨k, hk, -, -, rfl⟩ := h
  rw [turnsLeft, hk]
  rfl

/-- The whole queue is handled. -/
theorem drain (h : s.Serving id queue) :
    s.drain.Serving id [] ∧ s.drain.core = (queue.map Operation.frame).foldl does s.core := by
  rw [drain_eq, h.turnsLeft_eq]
  exact ⟨h.turns.1, h.turns.2.1⟩

/-- To wait is to have the queue handled. -/
theorem await (h : s.Serving id queue) :
    s.await.Serving id [] ∧ s.await.core = (queue.map Operation.frame).foldl does s.core := by
  obtain ⟨⟨k, hk, hx, hid, hq⟩, hcore⟩ := h.drain
  refine ⟨⟨k.wait, congrArg (Option.map Worker.wait) hk, hx, hid, hq⟩, ?_⟩
  rw [← hcore, core, core, Session.await, hk]
  rfl

/-- With no frame in the queue, one that is waited for is handled at once. -/
theorem frame (h : s.Serving id []) (job : Job) :
    (s.run (.frame job)).1.Serving id [] ∧
      (s.run (.frame job)).1.core = s.core.does (.frame job) := by
  obtain ⟨hs, hcore, hok⟩ := h.enqueue job
  obtain ⟨k, hk, hx, -⟩ := h
  rcases s.queue_cases job with ⟨reply, -, -, -, hexited⟩ | ⟨k', -, -, hqueue, hframe⟩
  · cases hx.symm.trans (hexited k hk)
  · rw [hqueue] at hs hcore
    rw [hframe, ← hcore]
    exact hs.await

/-- A frame that is waited for is handled, and nothing else. -/
theorem handles (h : s.Serving id []) (job : Job) : Handles job s (s.run (.frame job)).1 := by
  obtain ⟨⟨k', hk', -, hid', -⟩, hcore⟩ := h.frame job
  obtain ⟨k, hk, -, hid, -⟩ := h
  have hdoes : s.core.does (.frame job) = (s.core.handle k.core job).core := by
    rw [does, show s.core.worker = some k.core from congrArg (Option.map Worker.core) hk]
  rw [hdoes, Session.handle] at hcore
  dsimp only at hcore
  rw [submission_compose, compose_fst] at hcore
  have hworker := (congrArg (Option.map Worker.core) hk').symm.trans (congrArg Session.worker hcore)
  refine ⟨⟨k, k', hk, hk', hid'.trans hid.symm, ?_, ?_⟩, congrArg Session.calls hcore,
    congrArg Session.uploads hcore⟩
  · exact (congrArg Worker.retained (Option.some.inj hworker)).trans (retained_settle ..)
  · exact (congrArg Worker.fence (Option.some.inj hworker)).trans (fence_settle ..)

/-- Each frame is waited for, and the output changes in between. -/
theorem waits (h : s.Serving id []) {ops : List Operation}
    (hops : ∀ op ∈ ops, (∃ job, op = .frame job) ∨ ∃ c, op = .change c) :
    (s.waits ops).map core = s.core.progress ops ∧
      (ops.foldl (fun s op => (s.run op).1) s).Serving id [] ∧
      (ops.foldl (fun s op => (s.run op).1) s).core = ops.foldl does s.core := by
  induction ops generalizing s with
  | nil => exact ⟨rfl, h, rfl⟩
  | cons op ops ih =>
    have htail := fun op' hop' => hops op' (List.mem_cons_of_mem op hop')
    rcases hops op List.mem_cons_self with ⟨job, rfl⟩ | ⟨c, rfl⟩
    · obtain ⟨hs, hcore⟩ := h.frame job
      obtain ⟨hwaits, hs', hcore'⟩ := ih hs htail
      refine ⟨?_, hs', hcore'.trans (by rw [hcore]; rfl)⟩
      rw [progress_frame, ← hcore, ← hwaits]
      rfl
    · obtain ⟨hs, hcore⟩ := h.change c
      obtain ⟨hwaits, hs', hcore'⟩ := ih hs htail
      refine ⟨?_, hs', hcore'.trans (by rw [hcore]; rfl)⟩
      rw [progress_change, ← hcore, ← hwaits]
      rfl

end Serving

/-! ### The end -/

theorem core_core (s : Session) : s.core.core = s.core := by
  cases hk : s.worker <;> simp [core, hk, Worker.core]

theorem drain_core (s : Session) : s.core.drain = s.core := by
  have hleft : s.core.turnsLeft = [] := by
    rw [turnsLeft, core]
    cases s.worker <;> rfl
  rw [drain_eq, hleft]
  rfl

theorem Serving.of_core {s : Session} {id : OutputId} {queue : List Job} (h : s.Serving id queue) :
    s.core.Serving id [] := by
  obtain ⟨k, hk, hx, hid, -⟩ := h
  exact ⟨k.core, congrArg (Option.map Worker.core) hk, hx, hid, rfl⟩

/-- What an exit leaves depends on what the worker keeps when its queue is finished. -/
theorem core_exit (s : Session) : s.exit.core = s.drain.core.exit.core := by
  rw [exit, exit, drain_core]
  cases hk : s.drain.worker with
  | none => simp only [core, hk, Option.map_none]
  | some k => simp only [core, hk, Option.map_some]; rfl

/-- No worker is in service any more: it is gone, or it has exited and keeps nothing. -/
def Over (s : Session) : Prop :=
  ∀ k, s.worker = some k → k.exited = true ∧ k.queue = [] ∧ k.retained = [] ∧ k.fence = none

/-- A worker in service exits when its queue is finished, and keeps its name alone. -/
theorem Serving.exit {s : Session} {id : OutputId} {queue : List Job} (h : s.Serving id queue) :
    s.run .exit = (s.exit, .ok) ∧ s.exit.Over ∧ ∃ k, s.exit.worker = some k ∧ k.id = id := by
  obtain ⟨⟨k, hk, -, hid, -⟩, -⟩ := h.drain
  obtain ⟨k₀, hk₀, -⟩ := h
  have hexit : s.exit = { s.drain with
      worker := some (k.retire s.drain.output).1
      output := (k.retire s.drain.output).2 } := by
    simp only [Session.exit, hk]
  have hrun : s.run .exit = (s.exit, .ok) := by
    rcases s.run_exit_cases with ⟨hnone, -⟩ | ⟨-, hrun⟩
    · cases hnone.symm.trans hk₀
    · exact hrun
  refine ⟨hrun, ?_, ?_⟩
  · rw [hexit]
    rintro _ ⟨⟩
    exact ⟨rfl, rfl, rfl, rfl⟩
  · rw [hexit]
    exact ⟨_, rfl, hid⟩

namespace Over

variable {s : Session}

theorem work_eq (h : s.Over) : s.work = s := by
  have htake : s.worker.bind take? = none := by
    cases hk : s.worker with
    | none => rfl
    | some k => rw [Option.bind_some, take?, (h k hk).2.1]
  rw [Session.work, htake]

theorem drain_eq (h : s.Over) : s.drain = s := by
  have hleft : s.turnsLeft = [] := by
    rw [turnsLeft]
    cases hk : s.worker with
    | none => rfl
    | some k => rw [Option.map_some, (h k hk).2.1]; rfl
  rw [Session.drain_eq, hleft]
  rfl

theorem exit_eq (h : s.Over) : s.exit = s := by
  rw [Session.exit, h.drain_eq]
  cases s with
  | mk worker output =>
    cases worker with
    | none => rfl
    | some k =>
      obtain ⟨hx, hq, hr, hf⟩ := h k rfl
      cases k
      subst hx hq hr hf
      rfl

/-- What a worker that has exited answers. -/
theorem replies (h : s.Over) {k : Worker} (hk : s.worker = some k) :
    (∀ job, s.run (.frame job) = (s, .exited ⟨k.id⟩) ∧ s.run (.queue job) = (s, .exited ⟨k.id⟩)) ∧
      s.run .exit = (s, .ok) ∧ s.run .drop = ({ s with worker := none }, .ok) := by
  refine ⟨fun job => ?_, ?_, ?_⟩
  · have henqueue : s.enqueue k job = (s, .exited ⟨k.id⟩) := by
      rw [Session.enqueue, present, (h k hk).1]
      rfl
    refine ⟨?_, ?_⟩ <;> simp only [Session.run, hk, henqueue]
  · simp only [Session.run, hk, h.exit_eq]
  · simp only [Session.run, drop, h.exit_eq]

/-- It takes no frame. -/
theorem refuses (h : s.Over) (job : Job) :
    (s.run (.frame job)).1 = s ∧ (s.run (.queue job)).1 = s := by
  rcases s.queue_cases job with ⟨reply, -, hqueue, hframe, -⟩ | ⟨k, hk, hx, -⟩
  · exact ⟨congrArg Prod.fst hframe, congrArg Prod.fst hqueue⟩
  · cases hx.symm.trans (h k hk).1

/-- Afterwards only the output may change, and the worker may go. -/
theorem move (h : s.Over) (m : Move) :
    s.move m = { s with
      worker := if m.isDrop then none else s.worker
      output := m.change?.elim s.output s.output.change } := by
  cases m with
  | work => exact h.work_eq
  | ask op =>
    cases op with
    | change c => rfl
    | drop => exact congrArg (fun t : Session => { t with worker := none }) h.exit_eq
    | exit =>
      rcases s.run_exit_cases with ⟨-, hrun⟩ | ⟨-, hrun⟩
      · exact congrArg Prod.fst hrun
      · exact (congrArg Prod.fst hrun).trans h.exit_eq
    | frame job => exact (h.refuses job).1
    | queue job => exact (h.refuses job).2
    | describe => exact s.fst_run_describe

/-- So it is over any moves. -/
theorem moves (h : s.Over) (ms : List Move) :
    (ms.foldl Session.move s).Over ∧
      ms.foldl Session.move s = { s with
        worker := if ms.any Move.isDrop then none else s.worker
        output := (ms.filterMap Move.change?).foldl Output.change s.output } := by
  induction ms generalizing s with
  | nil => exact ⟨h, rfl⟩
  | cons m ms ih =>
    have hm := h.move m
    have hover : (s.move m).Over := by
      intro k hk
      rw [hm] at hk
      cases hd : m.isDrop with
      | true => rw [hd] at hk; cases hk
      | false => rw [hd] at hk; exact h k hk
    obtain ⟨hmoves, heq⟩ := ih hover
    refine ⟨hmoves, ?_⟩
    rw [List.foldl_cons, heq, hm, List.any_cons, List.filterMap_cons]
    cases m.isDrop <;> cases m.change? <;> simp

end Over

/-- Frames are queued without waiting, and the output may change, while the worker gets its turns
    whenever it may, and then it is told to exit or dropped. Every frame is taken. The worker
    handles each of them once and in order: what it keeps, what its output has been asked and what
    has come of it are, after every frame, what they would be had that frame been waited for when
    the worker got to it, and so is what the exit leaves. What handling a frame brings is said by
    `Handles`. After the exit the worker keeps no layers and no fence. Whatever happens later, only
    changes to the output itself reach it, and nothing reaches the worker but that it may be
    dropped: until then it refuses every frame under the name of its output, and a second exit
    changes nothing. -/
theorem exit_drains (s : Session) (k : Worker) (hk : s.worker = some k) (hx : k.exited = false)
    (moves : List Move) (hm : ∀ m ∈ moves, m.isQueueing = true) :
    let t := moves.foldl move s
    let plan := agenda k.queue (moves ++ t.turnsLeft)
    let waited := plan.foldl (fun s op => (s.run op).1) s.core
    let exited := (t.run .exit).1
    let dropped := (t.run .drop).1
    (∀ before job rest, moves = before ++ .ask (.queue job) :: rest →
      ((before.foldl move s).run (.queue job)).2 = .ok) ∧
    plan.filterMap Operation.frame? = k.queue ++ moves.filterMap Move.frame? ∧
    plan.filterMap Operation.change? = moves.filterMap Move.change? ∧
    (∀ op ∈ plan, (∃ job, op = .frame job) ∨ ∃ c, op = .change c) ∧
    (s.handlings (moves ++ t.turnsLeft)).map core = (s.core.waits plan).map core ∧
    (∀ before job rest, plan = before ++ .frame job :: rest →
      let u := before.foldl (fun s op => (s.run op).1) s.core
      Handles job u (u.run (.frame job)).1) ∧
    (t.run .exit).2 = .ok ∧ exited.core = (waited.run .exit).1.core ∧
    (∃ k', exited.worker = some k' ∧ k'.id = k.id ∧ k'.retained = [] ∧ k'.fence = none) ∧
    dropped = { exited with worker := none } ∧
    (∀ (ended : Session) (later : List Move), ended = exited ∨ ended = dropped →
      later.foldl move ended = { ended with
        worker := if later.any Move.isDrop then none else ended.worker
        output := (later.filterMap Move.change?).foldl Output.change ended.output }) ∧
    ∀ later : List Move, later.any Move.isDrop = false →
      let r := later.foldl move exited
      (∀ job, r.run (.frame job) = (r, .exited ⟨k.id⟩) ∧
        r.run (.queue job) = (r, .exited ⟨k.id⟩)) ∧
      r.run .exit = (r, .ok) ∧ r.run .drop = ({ r with worker := none }, .ok) := by
  intro t plan waited exited dropped
  have hs : s.Serving k.id k.queue := ⟨k, hk, hx, rfl, rfl⟩
  obtain ⟨ops, rest, ha⟩ := hs.moves hm
  have ht : t.Serving k.id rest := ha.serving
  have hplan : plan = ops ++ rest.map .frame := by
    rw [← agenda_replicate, ← ha.agenda_eq, ← ht.turnsLeft_eq]
  have hops : ∀ op ∈ plan, (∃ job, op = .frame job) ∨ ∃ c, op = .change c :=
    fun _ hop => eq_of_mem_agenda hop
  obtain ⟨hwaits, hwaited, hwcore⟩ := hs.of_core.waits hops
  rw [core_core] at hwaits hwcore
  obtain ⟨hexit, hover, k', hk', hid⟩ := ht.exit
  have hdrained : t.drain.core = waited.drain.core := by
    rw [ht.drain.2, ha.core_eq, ← List.foldl_append, ← hplan, hwaited.drain.2, hwcore]
    rfl
  have hexited : exited = t.exit := congrArg Prod.fst hexit
  have hdropped : dropped = { t.exit with worker := none } := rfl
  refine ⟨?_, ?_, ?_, hops, ?_, ?_, congrArg Prod.snd hexit, ?_, ?_, ?_, ?_, ?_⟩
  · rintro before job after rfl
    obtain ⟨_, queue, hbefore⟩ := hs.moves fun m hmem => hm m (List.mem_append_left _ hmem)
    exact (hbefore.serving.enqueue job).2.2
  · have hframes : (rest.map Operation.frame).filterMap Operation.frame? = rest := by
      rw [List.filterMap_map]
      exact List.filterMap_some
    rw [hplan, List.filterMap_append, hframes, ha.frames_eq]
  · have hnone : (rest.map Operation.frame).filterMap Operation.change? = [] := by
      rw [List.filterMap_map]
      exact List.filterMap_eq_nil_iff.2 fun _ _ => rfl
    rw [hplan, List.filterMap_append, hnone, List.append_nil, ha.changes_eq]
  · rw [handlings_append, List.map_append, ha.handled_eq, ht.turnsLeft_eq, ht.turns.2.2, ha.core_eq,
      hwaits, hplan]
    exact (afterFrames_append does s.core ops _).symm
  · intro before job after heq u
    have hbefore : ∀ op ∈ before, (∃ job, op = .frame job) ∨ ∃ c, op = .change c := by
      intro op hop
      refine hops op ?_
      rw [heq]
      exact List.mem_append_left _ hop
    exact (hs.of_core.waits hbefore).2.1.handles job
  · rw [hexited, hwaited.exit.1, core_exit, hdrained, ← core_exit]
  · rw [hexited]
    obtain ⟨-, -, hretained, hfence⟩ := hover k' hk'
    exact ⟨k', hk', hid, hretained, hfence⟩
  · rw [hdropped, hexited]
  · rintro ended later (rfl | rfl)
    · rw [hexited]
      exact (hover.moves later).2
    · rw [hdropped]
      have hgone : Over { t.exit with worker := none } := nofun
      exact (hgone.moves later).2
  · intro later hlater r
    rw [← hid]
    obtain ⟨hr, heq⟩ := hover.moves later
    rw [← hexited] at hr heq
    have hworker : r.worker = some k' := by
      refine (congrArg Session.worker heq).trans ?_
      rw [hlater, hexited]
      exact hk'
    exact hr.replies hworker

/-- A frame with as many layers, all of which cover the tile. -/
def sheet (layers : Nat) : Job where
  window := .place 0 100 0 0 1
  layers := (List.range layers).map fun i =>
    ⟨⟨i⟩, ⟨⟨0⟩, ⟨0⟩, ⟨0x7ff0000000000000⟩, ⟨0⟩⟩, none⟩
  upload := true

/-- The worker gets to the first frame, and then the output starts to hand out fences; the second
    frame and an empty one still wait. -/
def hurried : List Move :=
  [.ask (.queue (sheet 1)), .work, .ask (.queue (sheet 2)), .ask (.change { fences := some true }),
    .ask (.queue (sheet 0))]

/-- The second frame is shown during the exit, and its fence, which the empty frame leaves alone, is
    let go. -/
theorem exit_drains_hurried :
    let s := create ⟨3⟩ {}
    let t := hurried.foldl move s
    let plan := [.frame (sheet 1), .change { fences := some true }, .frame (sheet 2),
      .frame (sheet 0)]
    let waited := plan.foldl (fun s op => (s.run op).1) s.core
    let exited := (t.run .exit).1
    (∀ m ∈ hurried, m.isQueueing = true) ∧
    agenda [] (hurried ++ t.turnsLeft) = plan ∧
    (t.calls.length, exited.calls.length, exited.uploads) = (1, 2, 2) ∧
    (s.handlings (hurried ++ t.turnsLeft)).map core = (s.core.waits plan).map core ∧
    (s.core.waits plan).map (fun r => r.worker.map fun k => (k.retained.length, k.fence)) =
      [some (1, none), some (2, some ⟨0⟩), some (0, some ⟨0⟩)] ∧
    exited.core = (waited.run .exit).1.core ∧ exited.output.live = [] ∧
    (exited.run (.frame (sheet 1))).2 = .exited ⟨⟨3⟩⟩ := by
  have hm : ∀ m ∈ hurried, m.isQueueing = true := by simp [hurried, Move.isQueueing]
  obtain ⟨-, -, -, -, hhandled, -, -, hcore, -, -, -, hlater⟩ :=
    exit_drains (create ⟨3⟩ {}) { id := ⟨3⟩ } rfl rfl hurried hm
  exact ⟨hm, rfl, by decide +kernel, hhandled, by decide +kernel, hcore, by decide +kernel,
    congrArg Prod.snd ((hlater [] rfl).1 (sheet 1)).1⟩

end Session

end Worker

end VideoWall
