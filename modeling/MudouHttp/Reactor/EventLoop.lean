import Mathlib.Algebra.Ring.Nat
import MudouHttp.Lib.Reach

/-!
# The task queue of an event loop

`queueinloop`, `wakeup` and `handlewakeup` of `reactor/Eventloop.cpp`. Any
number of threads, the loop's own among them outside `handlewakeup`, call
`queueinloop` while the loop waits for the eventfd and handles it. A task does
what it likes; what counts is whether it calls `queueinloop` on the same loop. A
task is known by the number of the push.
-/

namespace MudouHttp

/-- The statement of `handlewakeup`, or of the task it has called, that the loop
thread executes next. -/
inductive LoopThread
  | waiting
  | reading
  | locking
  | testing
  | running (task : Nat)
  | queueing (task : Nat)
  | waking (task : Nat)
  deriving DecidableEq, Repr

inductive Queuer
  | outside
  | pushing
  | waking
  deriving DecidableEq, Repr

inductive Holder
  | loop
  | queuer (i : Nat)
  deriving DecidableEq, Repr

/-- `wakeups` is the counter of the eventfd. The program keeps neither `queued`
nor `executed`. -/
structure EventLoop where
  thread : LoopThread
  queuers : List Queuer
  taskqueue : List Nat
  holder : Option Holder
  wakeups : Nat
  queued : Nat
  executed : List Nat

namespace EventLoop

/-- Why a thread does not go on. `disabled` is no failure: the statement cannot
be executed yet. A thread that locks `mutex_` again while it holds it is lost. -/
inductive Halt
  | relock
  | disabled
  deriving DecidableEq

def init (threads : Nat) : EventLoop :=
  { thread := .waiting, queuers := List.replicate threads .outside, taskqueue := [], holder := none
    wakeups := 0, queued := 0, executed := [] }

/-- A write that would fill the counter fails. -/
def wakeup (s : EventLoop) : EventLoop :=
  { s with wakeups := if s.wakeups < 2 ^ 64 - 2 then s.wakeups + 1 else s.wakeups }

def push (s : EventLoop) : EventLoop :=
  { s with taskqueue := s.taskqueue ++ [s.queued], queued := s.queued + 1 }

def lock (s : EventLoop) (self : Holder) : Except Halt EventLoop :=
  match s.holder with
  | none => .ok { s with holder := some self }
  | some holder => .error (if holder = self then .relock else .disabled)

def queueinloop (s : EventLoop) (i : Nat) : Except Halt EventLoop :=
  match s.queuers[i]? with
  | some .outside => do
    let s ← s.lock (.queuer i)
    pure { s with queuers := s.queuers.set i .pushing }
  | some .pushing => .ok { s.push with holder := none, queuers := s.queuers.set i .waking }
  | some .waking => .ok { s.wakeup with queuers := s.queuers.set i .outside }
  | none => .error .disabled

/-- The next statement of the loop thread. Inside a task the lock is that of
`queueinloop`. -/
def handlewakeup (s : EventLoop) : Except Halt EventLoop :=
  match s.thread with
  | .waiting => if s.wakeups = 0 then .error .disabled else .ok { s with thread := .reading }
  | .reading => .ok { s with wakeups := 0, thread := .locking }
  | .locking => do
    let s ← s.lock .loop
    pure { s with thread := .testing }
  | .testing =>
    match s.taskqueue with
    | [] => .ok { s with holder := none, thread := .waiting }
    | task :: rest => .ok { s with taskqueue := rest, thread := .running task }
  | .running task => .ok { s with executed := s.executed ++ [task], thread := .testing }
  | .queueing task => do
    let s ← s.lock .loop
    pure { s.push with holder := none, thread := .waking task }
  | .waking task => .ok { s.wakeup with thread := .running task }

inductive Event
  | queueinloop (i : Nat)
  | loop
  /-- The task that runs calls `queueinloop`. -/
  | nested
  deriving DecidableEq

def step (s : EventLoop) : Event → Except Halt EventLoop
  | .queueinloop i => s.queueinloop i
  | .loop => s.handlewakeup
  | .nested =>
    match s.thread with
    | .running task => .ok { s with thread := .queueing task }
    | _ => .error .disabled

end EventLoop

end MudouHttp
