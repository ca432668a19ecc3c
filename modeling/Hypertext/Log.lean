import Hypertext.Bytes

/-! # Event logs with observers

A log stores the events that reach its minimum severity and shows each to its observers in order, at the
moment it is stored. Observers can themselves emit into the log and clear it. An echoing observer emits
the event again under a source of its own, and leaves the events of that source alone, so an event
is echoed at most once: `Log.emit_eq` says that two nested passes are all there is.
-/

namespace Hypertext

structure Severity where
  code : Int32
  deriving DecidableEq

namespace Severity

def info : Severity := ⟨0⟩
def warning : Severity := ⟨1⟩
def error : Severity := ⟨2⟩

def label (s : Severity) : String :=
  if s = info then "info" else if s = warning then "warning" else if s = error then "error"
  else "unknown"

instance : LT Severity := ⟨fun a b => a.code < b.code⟩

instance (a b : Severity) : Decidable (a < b) := inferInstanceAs (Decidable (a.code < b.code))

end Severity

structure Event where
  severity : Severity
  source : Bytes
  stage : Bytes
  message : Bytes
  deriving DecidableEq

/-- An empty source or stage leaves no trace. -/
def Event.line (e : Event) : Bytes :=
  91 :: Bytes.ascii e.severity.label ++ [93] ++
    (if e.source = [] then [] else 32 :: e.source) ++
    (if e.stage = [] then [] else 47 :: e.stage) ++ Bytes.ascii ": " ++ e.message

inductive Observer | recorder (label : Bytes) | console | echo | eraser deriving DecidableEq

/-- What a recorder or the console was shown. -/
inductive Delivery | recorded (label : Bytes) (event : Event) | printed (event : Event)
  deriving DecidableEq

def Delivery.line : Delivery → Bytes
  | recorded label event => label ++ 124 :: event.line
  | printed event => event.line ++ [10]

structure Log where
  minimum : Severity := .info
  observers : List Observer := []
  events : List Event := []
  deliveries : List Delivery := []
  deriving DecidableEq

namespace Log

def echoSource : Bytes := Bytes.ascii "echo"

def clear (log : Log) : Log := { log with events := [] }

def observe (log : Log) (o : Observer) : Log := { log with observers := log.observers ++ [o] }

def deliver (log : Log) (d : Delivery) : Log := { log with deliveries := log.deliveries ++ [d] }

/-- Shows an event to one observer, which emits in its turn through `emit`. -/
def notify (emit : Log → Event → Log) (e : Event) (log : Log) : Observer → Log
  | .recorder label => log.deliver (.recorded label e)
  | .console => log.deliver (.printed e)
  | .echo => if e.source = echoSource then log else emit log { e with source := echoSource }
  | .eraser => log.clear

/-- One pass of an event: it is stored and then shown to every observer. -/
def pass (emit : Log → Event → Log) (log : Log) (e : Event) : Log :=
  if e.severity < log.minimum then log
  else log.observers.foldl (notify emit e) { log with events := log.events ++ [e] }

def emit : Log → Event → Log := pass (pass fun log _ => log)

def ofSeverity (log : Log) (s : Severity) : List Event := log.events.filter (·.severity = s)

def ofSource (log : Log) (source : Bytes) : List Event := log.events.filter (·.source = source)

/-- The lines that recorders were shown. -/
def recordedLines (log : Log) : List Bytes :=
  log.deliveries.filterMap fun d => match d with
    | .recorded .. => some d.line
    | .printed _ => none

/-- The text that went to the console. -/
def consoleText (log : Log) : Bytes :=
  log.deliveries.flatMap fun d => match d with
    | .recorded .. => []
    | .printed _ => d.line

/-- An echo is not echoed. -/
theorem pass_of_source_eq {e : Event} (h : e.source = echoSource) (emit emit' : Log → Event → Log)
    (log : Log) : log.pass emit e = log.pass emit' e := by
  have same : notify emit e = notify emit' e := by
    funext log o
    cases o <;> simp [notify, h]
  simp [pass, same]

theorem emit_eq (log : Log) (e : Event) : log.emit e = log.pass emit e := by
  have same : notify (pass fun log _ => log) e = notify emit e := by
    funext log o
    cases o <;> simp only [notify]
    split
    · rfl
    · exact pass_of_source_eq rfl ..
  simp [emit, pass, same]

theorem emit_of_lt {log : Log} {e : Event} (h : e.severity < log.minimum) : log.emit e = log := by
  simp [emit, pass, h]

end Log

end Hypertext
