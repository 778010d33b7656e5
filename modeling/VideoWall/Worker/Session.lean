import VideoWall.Worker.Basic

/-! One worker and its output in use. -/

namespace VideoWall.Worker

/-- An operation on a worker: a frame may be waited for or only queued, and its output may
    change. -/
inductive Operation where
  | frame (job : Job)
  | queue (job : Job)
  | change (change : OutputChange)
  | exit
  | drop
  | describe

/-- How an operation went. -/
inductive Reply where
  | ok
  | exited (cause : Exited)
  | dropped
  | described (text : String) (id : OutputId)
  deriving DecidableEq, Repr

/-- A worker, until it is dropped, and its output; what the output was asked, what was logged, and
    how many uploads there were. -/
structure Session where
  worker : Option Worker
  output : Output
  calls : List OutputCall := []
  log : List Log.Line := []
  uploads : Nat := 0

namespace Session

/-- A new worker on an output. -/
def create (id : OutputId) (output : Output) : Session := { worker := some { id }, output }

/-- Handles one job from beginning to end. -/
def handle (s : Session) (w : Worker) (job : Job) : Session :=
  let (w, o, sub) := w.compose s.output job
  let log := match sub with
    | .refused cause => [cause.line w.id]
    | _ => []
  let (w', o) := w.settle o sub
  { worker := some w'
    output := o
    calls := s.calls ++ (sub.call? w.retained job.upload).toList
    log := s.log ++ log
    uploads := s.uploads + sub.uploads job.upload }

/-- Handles the next job, if there is one. -/
def work (s : Session) : Session :=
  match s.worker.bind Worker.take? with
  | some (job, w) => s.handle w job
  | none => s

/-- Handles every queued job. -/
def drain (s : Session) : Session :=
  Nat.repeat work ((s.worker.map (·.queue.length)).getD 0) s

/-- Queues a job if the worker takes it. -/
def enqueue (s : Session) (w : Worker) (job : Job) : Session × Reply :=
  match w.present job with
  | .ok w => ({ s with worker := some w }, .ok)
  | .error cause => (s, .exited cause)

/-- Waits for the job queued last. -/
def await (s : Session) : Session :=
  let s := s.drain
  { s with worker := s.worker.map Worker.wait }

/-- Finishes the queue and ends the worker. -/
def exit (s : Session) : Session :=
  let s := s.drain
  match s.worker with
  | none => s
  | some w =>
    let (w, o) := w.retire s.output
    { s with worker := some w, output := o }

/-- A worker that is dropped exits first. -/
def drop (s : Session) : Session := { s.exit with worker := none }

/-- Performs one operation; a worker that is gone answers `dropped`. -/
def run (s : Session) (op : Operation) : Session × Reply :=
  match op, s.worker with
  | .change c, _ => ({ s with output := s.output.change c }, .ok)
  | .drop, _ => (s.drop, .ok)
  | _, none => (s, .dropped)
  | .frame job, some w =>
    match s.enqueue w job with
    | (s, .ok) => (s.await, .ok)
    | r => r
  | .queue job, some w => s.enqueue w job
  | .exit, some _ => (s.exit, .ok)
  | .describe, some w => (s, .described w.describe w.id)

/-- A worker that is gone or has exited takes no frame and stays as it is. Otherwise the frame waits
    behind the others, and may be waited for. -/
theorem queue_cases (s : Session) (job : Job) :
    (∃ reply, reply ≠ .ok ∧ s.run (.queue job) = (s, reply) ∧ s.run (.frame job) = (s, reply) ∧
      ∀ k, s.worker = some k → k.exited = true) ∨
    ∃ k, s.worker = some k ∧ k.exited = false ∧
      s.run (.queue job) =
        ({ s with worker := some { k with queue := k.queue ++ [job] } }, .ok) ∧
      s.run (.frame job) =
        (Session.await { s with worker := some { k with queue := k.queue ++ [job] } }, .ok) := by
  cases hk : s.worker with
  | none =>
    refine .inl ⟨.dropped, nofun, ?_, ?_, nofun⟩
    · simp only [run, hk]
    · simp only [run, hk]
  | some k =>
    by_cases hx : k.exited = true
    · have henqueue : s.enqueue k job = (s, .exited ⟨k.id⟩) := by
        rw [enqueue, Worker.present, if_pos hx]
      refine .inl ⟨.exited ⟨k.id⟩, nofun, ?_, ?_, ?_⟩
      · simp only [run, hk, henqueue]
      · simp only [run, hk, henqueue]
      · rintro _ ⟨⟩
        exact hx
    · have henqueue : s.enqueue k job =
          ({ s with worker := some { k with queue := k.queue ++ [job] } }, .ok) := by
        rw [enqueue, Worker.present, if_neg hx]
      refine .inr ⟨k, rfl, Bool.eq_false_iff.2 hx, ?_, ?_⟩
      · simp only [run, hk, henqueue]
      · simp only [run, hk, henqueue]

/-- Asked to exit, a worker that is there does. -/
theorem run_exit_cases (s : Session) :
    s.worker = none ∧ s.run .exit = (s, .dropped) ∨
      (∃ k, s.worker = some k) ∧ s.run .exit = (s.exit, .ok) := by
  cases hk : s.worker with
  | none => exact .inl ⟨rfl, by simp only [run, hk]⟩
  | some k => exact .inr ⟨⟨k, rfl⟩, by simp only [run, hk]⟩

/-- To have a worker described changes nothing. -/
theorem fst_run_describe (s : Session) : (s.run .describe).1 = s := by
  cases hk : s.worker <;> simp only [run, hk]

end Session

end VideoWall.Worker
