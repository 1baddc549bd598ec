import MudouHttp.Lib.Reach

/-!
# The thread pool

`reactor/ThreadPool.cpp`. The workers, the callers of `addtask` and the caller
of `stop` execute their statements in any order. `mutex_` protects the queue
but not `stop_`, so what a worker does under the lock is one step for each
time it reads `stop_`. A task is known by the number of its `addtask` call.
-/

namespace MudouHttp

inductive Worker
  | looping
  | locking
  | testing
  | parking
  | sleeping
  | leaving
  | taking
  | starting (task : Nat)
  | running (task : Nat)
  | finishing
  | returned
  deriving DecidableEq, Repr

inductive Stopper
  | idle
  | entered
  | set
  | joining (joined : Nat)
  | done
  deriving DecidableEq, Repr

/-- `adding` are the calls of `addtask` between the push and the return; `due`
are the tasks whose `addtask` had returned when `stop` was called. The program
keeps neither, nor the counts and logs `added`, `taken` and `executed`. -/
structure ThreadPool where
  workers : List Worker
  taskqueue : List Nat
  locked : Bool
  stopFlag : Bool
  idle : Int
  stopper : Stopper
  added : Nat
  adding : List Nat
  taken : List Nat
  executed : List Nat
  due : List Nat

namespace ThreadPool

/-- Why a thread does not go on. `disabled` is no failure: the statement cannot
be executed yet. -/
inductive Halt
  | emptyQueue
  | disabled
  deriving DecidableEq

def new (threadnum : Nat) : ThreadPool :=
  { workers := List.replicate threadnum .looping, taskqueue := [], locked := false
    stopFlag := false, idle := threadnum, stopper := .idle, added := 0, adding := [], taken := []
    executed := [], due := [] }

def move (s : ThreadPool) (i : Nat) (w : Worker) : ThreadPool :=
  { s with workers := s.workers.set i w }

/-- The next statement of a worker; `wait` may also wake up for no reason. -/
def workerStep (s : ThreadPool) (i : Nat) : Worker → Except Halt ThreadPool
  | .looping => .ok (s.move i (if s.stopFlag then .returned else .locking))
  | .locking => if s.locked then .error .disabled else .ok ({ s with locked := true }.move i .testing)
  | .testing => .ok (s.move i (if s.taskqueue ≠ [] ∨ s.stopFlag then .leaving else .parking))
  | .parking => .ok ({ s with locked := false }.move i .sleeping)
  | .sleeping => .ok (s.move i .locking)
  | .leaving =>
    if s.stopFlag ∧ s.taskqueue = [] then .ok ({ s with locked := false }.move i .returned)
    else .ok (s.move i .taking)
  | .taking =>
    match s.taskqueue with
    | [] => .error .emptyQueue
    | task :: rest =>
      .ok ({ s with taskqueue := rest, locked := false, taken := s.taken ++ [task] }.move i
        (.starting task))
  | .starting task => .ok ({ s with idle := s.idle - 1 }.move i (.running task))
  | .running task => .ok ({ s with executed := s.executed ++ [task] }.move i .finishing)
  | .finishing => .ok ({ s with idle := s.idle + 1 }.move i .looping)
  | .returned => .error .disabled

/-- The push of `addtask`. -/
def addtask (s : ThreadPool) : Except Halt ThreadPool :=
  if s.locked then .error .disabled
  else .ok { s with
    taskqueue := s.taskqueue ++ [s.added], added := s.added + 1, adding := s.added :: s.adding }

/-- `notify_one` in `addtask`, and its return. -/
def notifyOne (s : ThreadPool) (task : Nat) (woken : Option Nat) : Except Halt ThreadPool :=
  if task ∈ s.adding then
    let s := { s with adding := s.adding.erase task }
    match woken with
    | none => if .sleeping ∈ s.workers then .error .disabled else .ok s
    | some i => if s.workers[i]? = some .sleeping then .ok (s.move i .locking) else .error .disabled
  else .error .disabled

def wakeUp (w : Worker) : Worker := if w = .sleeping then .locking else w

def stopStep (s : ThreadPool) : Except Halt ThreadPool :=
  match s.stopper with
  | .idle =>
    if s.stopFlag then .ok { s with stopper := .done }
    else .ok { s with
      stopper := .entered, due := (List.range s.added).filter fun task => task ∉ s.adding }
  | .entered => .ok { s with stopFlag := true, stopper := .set }
  | .set => .ok { s with workers := s.workers.map wakeUp, stopper := .joining 0 }
  | .joining joined =>
    match s.workers[joined]? with
    | none => .ok { s with stopper := .done }
    | some w =>
      if w = .returned then .ok { s with stopper := .joining (joined + 1) } else .error .disabled
  | .done => .error .disabled

inductive Event
  | worker (i : Nat)
  | addtask
  | notifyOne (task : Nat) (woken : Option Nat)
  | stop

def step (s : ThreadPool) : Event → Except Halt ThreadPool
  | .worker i =>
    match s.workers[i]? with
    | none => .error .disabled
    | some w => s.workerStep i w
  | .addtask => s.addtask
  | .notifyOne task woken => s.notifyOne task woken
  | .stop => s.stopStep

end ThreadPool

end MudouHttp
