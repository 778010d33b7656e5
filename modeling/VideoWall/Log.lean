/-! Log lines: a level, a message, and named fields. -/

namespace VideoWall.Log

/-- Severity, mildest first. -/
inductive Level where | trace | warn | error
  deriving DecidableEq, Repr

def Level.describe : Level → String
  | .trace => "TRACE"
  | .warn => "WARN"
  | .error => "ERROR"

/-- Warnings and errors are for the operator; traces are for whoever debugs. -/
def Level.isAlert : Level → Bool
  | .trace => false
  | _ => true

/-- The value of a field. -/
inductive Value where | int (n : Int) | flag (b : Bool) | text (s : String)
  deriving DecidableEq, Repr

/-- One line. -/
structure Line where
  level : Level
  message : String
  fields : List (String × Value)
  deriving DecidableEq, Repr

namespace Line

/-- The output that a line is about, as text; empty when it names none. -/
def about (l : Line) : String :=
  match l.fields.lookup "output_id" with
  | some (.text s) => s
  | _ => ""

/-- The alerts among some lines, grouped by the output they are about; lines about one output keep
    their order. -/
def alerts (lines : List Line) : List Line :=
  (lines.filter (·.level.isAlert)).mergeSort fun a b => decide (a.about ≤ b.about)

end Line

end VideoWall.Log
