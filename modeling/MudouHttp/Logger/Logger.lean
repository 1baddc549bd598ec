import MudouHttp.Cxx.Machine
import MudouHttp.Lib.Reach

/-!
# The logger

`Logger` of `logger/logger.cpp` after `LogFac::Init` has set the format, the
output and the level. Any number of threads call `Write`, beside the worker
thread and the destructor; what a thread does under `mutex_` is one step for
each time it reads `th_stop_`. `Format` of the format chosen is a parameter: it
reads the clock.
-/

namespace MudouHttp

inductive Xlog
  | debug
  | info
  | warning
  | error
  | fatal
  deriving DecidableEq, Repr

/-- The value of the enumerator, which `<` compares. -/
def Xlog.toNat : Xlog → Nat
  | .debug => 0
  | .info => 1
  | .warning => 2
  | .error => 3
  | .fatal => 4

structure LogCall where
  level : Xlog
  log : Bytes
  file : Bytes
  line : Int
  deriving DecidableEq

/-- `Format` at a time of day: the level as a text, the log, the file, the line. -/
abbrev LogFormat := Nat → Bytes → Bytes → Bytes → Int → Bytes

/-- The statement of `Write` that a thread executes next; `call` is known to no
one but the model. -/
inductive Writer
  | outside
  | pushing (call : LogCall) (text : Bytes)
  | notifying
  deriving DecidableEq

inductive LogWorker
  | locking
  | testing
  | parking
  | sleeping
  | leaving
  | taking
  | writing (text : Bytes)
  | returned
  deriving DecidableEq

inductive Destroyer
  | idle
  | set
  | joining
  | done
  deriving DecidableEq

/-- The program does not keep the calls of `Write`, what was pushed and given to
`Output`, and `due`, what had been pushed when `th_stop_` was set. -/
structure Logger where
  writers : List Writer
  worker : LogWorker
  workqueue : List Bytes
  locked : Bool
  thStop : Bool
  isasync : Bool
  logLevel : Xlog
  destroyer : Destroyer
  calls : List LogCall
  pushed : List (LogCall × Bytes)
  outputs : List Bytes
  due : List Bytes

namespace Logger

/-- Why a thread does not go on. `disabled` is no failure: the statement cannot
be executed yet. -/
inductive Halt
  | emptyQueue
  | disabled
  deriving DecidableEq

/-- After `Init(true)`. -/
def init (level : Xlog) (threads : Nat) : Logger :=
  { writers := List.replicate threads .outside, worker := .locking, workqueue := [], locked := false
    thStop := false, isasync := true, logLevel := level, destroyer := .idle, calls := []
    pushed := [], outputs := [], due := [] }

def levelstr : Xlog → Bytes
  | .info => bytes "info"
  | .warning => bytes "warning"
  | .error => bytes "error"
  | .fatal => bytes "fatal"
  | .debug => bytes "debug"

def formatted (format : LogFormat) (now : Nat) (call : LogCall) : Bytes :=
  format now (levelstr call.level) call.log call.file call.line

/-- `Write` up to the push. -/
def write (format : LogFormat) (s : Logger) (i : Nat) (call : LogCall) (now : Nat) :
    Except Halt Logger :=
  if s.writers[i]? = some .outside then
    let s := { s with calls := s.calls ++ [call] }
    if call.level.toNat < s.logLevel.toNat then .ok s
    else if s.isasync then
      .ok { s with writers := s.writers.set i (.pushing call (formatted format now call)) }
    else .ok { s with outputs := s.outputs ++ [formatted format now call] }
  else .error .disabled

def wakeUp (w : LogWorker) : LogWorker := if w = .sleeping then .locking else w

/-- The push of `AddWorkLog`, and its `notify_one`; only the worker waits. -/
def addWorkLog (s : Logger) (i : Nat) : Except Halt Logger :=
  match s.writers[i]? with
  | some (.pushing call text) =>
    if s.locked then .error .disabled
    else .ok { s with
      workqueue := s.workqueue ++ [text], pushed := s.pushed ++ [(call, text)]
      writers := s.writers.set i .notifying }
  | some .notifying =>
    .ok { s with worker := wakeUp s.worker, writers := s.writers.set i .outside }
  | _ => .error .disabled

/-- The next statement of the worker; `wait` may also wake up for no reason. -/
def workerStep (s : Logger) : Except Halt Logger :=
  match s.worker with
  | .locking =>
    if s.locked then .error .disabled else .ok { s with locked := true, worker := .testing }
  | .testing =>
    .ok { s with worker := if s.thStop ∨ s.workqueue ≠ [] then .leaving else .parking }
  | .parking => .ok { s with locked := false, worker := .sleeping }
  | .sleeping => .ok { s with worker := .locking }
  | .leaving =>
    if s.thStop ∧ s.workqueue = [] then .ok { s with locked := false, worker := .returned }
    else .ok { s with worker := .taking }
  | .taking =>
    match s.workqueue with
    | [] => .error .emptyQueue
    | text :: rest => .ok { s with workqueue := rest, locked := false, worker := .writing text }
  | .writing text => .ok { s with outputs := s.outputs ++ [text], worker := .locking }
  | .returned => .error .disabled

def destroyStep (s : Logger) : Except Halt Logger :=
  match s.destroyer with
  | .idle => .ok { s with thStop := true, destroyer := .set, due := s.pushed.map Prod.snd }
  | .set => .ok { s with worker := wakeUp s.worker, destroyer := .joining }
  | .joining =>
    if s.worker = .returned then .ok { s with destroyer := .done } else .error .disabled
  | .done => .error .disabled

inductive Event
  | write (i : Nat) (call : LogCall) (now : Nat)
  | addWorkLog (i : Nat)
  | worker
  | destroy

def step (format : LogFormat) (s : Logger) : Event → Except Halt Logger
  | .write i call now => s.write format i call now
  | .addWorkLog i => s.addWorkLog i
  | .worker => s.workerStep
  | .destroy => s.destroyStep

end Logger

end MudouHttp
