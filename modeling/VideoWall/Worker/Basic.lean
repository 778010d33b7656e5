import VideoWall.Output
import VideoWall.Signal

/-! The worker that presents one output's tile.

    Jobs queue up and are handled one by one. A job picks the layers that belong to its window and
    keeps them; if there are any, they are offered to the output. A frame that the output shows
    brings the next release fence, or none, and either way the fence held until then is let go. A
    frame that the output refuses changes nothing but the kept layers. Every handled job raises the
    completion signal. A worker that exits finishes its queue first and then lets go of all it
    keeps. -/

namespace VideoWall

/-- A frame for one tile; `upload` says whether its buffers have to be uploaded. -/
structure Job where
  window : Window
  layers : List Layer
  upload : Bool
  deriving DecidableEq, Repr

/-- The worker of the output `id`. -/
structure Worker where
  id : OutputId
  queue : List Job := []
  retained : List TileLayer := []
  fence : Option Fence := none
  signal : Signal := {}
  exited : Bool := false
  deriving DecidableEq, Repr

/-- The refusal of a worker that has exited. -/
structure Exited where
  id : OutputId
  deriving DecidableEq, Repr

/-- The text of the refusal. -/
def Exited.message (e : Exited) : String := s!"tile worker for {e.id.describe} has exited"

/-- What became of a job: no layer was visible, the output refused the frame, or it showed it. -/
inductive Submission where
  | blank
  | refused (cause : PresentError)
  | shown (fence : Option Fence)
  deriving DecidableEq, Repr

/-- The log line of a frame that an output refused. -/
def PresentError.line (e : PresentError) (id : OutputId) : Log.Line :=
  ⟨.error, "tile present failed", [("output_id", .text id.describe), ("err", .text e.message)]⟩

namespace Worker

/-- Queues a job, unless the worker has exited. -/
def present (w : Worker) (job : Job) : Except Exited Worker :=
  if w.exited then .error ⟨w.id⟩ else .ok { w with queue := w.queue ++ [job] }

/-- The next job. -/
def take? (w : Worker) : Option (Job × Worker) :=
  match w.queue with
  | [] => none
  | job :: rest => some (job, { w with queue := rest })

/-- Keeps the layers of a job's window and offers them to the output, if there are any. -/
def compose (w : Worker) (o : Output) (job : Job) : Worker × Output × Submission :=
  let w := { w with retained := job.window.assign job.layers }
  if w.retained.isEmpty then (w, o, .blank) else
    match o.present with
    | (o, .ok fence) => (w, o, .shown fence)
    | (o, .error cause) => (w, o, .refused cause)

/-- Ends a job: a shown frame's fence takes the place of the one held, and the signal is raised. -/
def settle (w : Worker) (o : Output) : Submission → Worker × Output
  | .shown fence => ({ w with fence, signal := w.signal.raise }, o.release w.fence)
  | _ => ({ w with signal := w.signal.raise }, o)

/-- Waits for the completion signal, which every handled job has raised. -/
def wait (w : Worker) : Worker := { w with signal := w.signal.wait?.getD w.signal }

/-- Lets go of the kept layers and of the fence; the queue has been finished before. -/
def retire (w : Worker) (o : Output) : Worker × Output :=
  ({ w with queue := [], retained := [], fence := none, exited := true }, o.release w.fence)

def describe (w : Worker) : String :=
  s!"TileWorker \x7b output_id: {w.id.describe}, .. \x7d"

end Worker

/-- The call by which a composed job reaches its output; a blank job does not reach it. -/
def Submission.call? (s : Submission) (layers : List TileLayer) (upload : Bool) :
    Option OutputCall :=
  match s with
  | .blank => none
  | .refused _ => some (.present layers upload true)
  | .shown _ => some (.present layers upload false)

/-- Whether a job's buffers were uploaded: the frame was shown and had any to upload. -/
def Submission.uploads (s : Submission) (upload : Bool) : Nat :=
  match s with
  | .shown _ => if upload then 1 else 0
  | _ => 0

end VideoWall
