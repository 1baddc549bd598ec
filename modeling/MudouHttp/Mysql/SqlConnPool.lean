import MudouHttp.Lib.Reach

/-!
# The pool of database connections

`SqlConnPool` of `mysql/sqlconnpool.cpp`, the scopes of `SqlConnRAII` in the
event loop threads, and `HttpServer::Stop`. `connque_` is tested without
`mutex_`. The pop of `GetConn` is one step; `FreeConn` and `ClosePool` hold the
lock over several. A handle is known by the number of its `mysql_init`, `none`
is the null pointer.
-/

namespace MudouHttp

/-- The statement of an `SqlConnRAII` scope that a thread executes next. -/
inductive Scope
  | outside
  | waiting
  | entering
  | holding (handle : Option Nat)
  | posting
  deriving DecidableEq, Repr

inductive ServerStop
  | running
  | closing
  | poolClosed
  | workersStopped
  | done
  deriving DecidableEq, Repr

/-- `clients` are the threads that serve logins; `closed` are the handles given
to `mysql_close`, which the program does not keep. -/
structure SqlConnPool where
  maxConn : Nat
  connque : List (Option Nat)
  sem : Nat
  locked : Bool
  clients : List Scope
  stop : ServerStop
  closed : List Nat

namespace SqlConnPool

/-- Why a thread does not go on. `disabled` is no failure: the statement cannot
be executed yet. -/
inductive Halt
  | emptyQueue
  | disabled
  deriving DecidableEq

/-- The loop of `Init`; a null pointer is pushed as well. -/
def connectLoop : Nat → List Bool → List (Option Nat)
  | _, [] => []
  | i, connected :: rest => (if connected then some i else none) :: connectLoop (i + 1) rest

/-- `Init`, where `connects` says which calls of `mysql_real_connect` succeed. -/
def init (connects : List Bool) (threads : Nat) : SqlConnPool :=
  { maxConn := connects.length, connque := connectLoop 0 connects, sem := connects.length
    locked := false, clients := List.replicate threads .outside, stop := .running, closed := [] }

def getFreeConnCount (s : SqlConnPool) : Nat := s.connque.length

def move (s : SqlConnPool) (i : Nat) (c : Scope) : SqlConnPool :=
  { s with clients := s.clients.set i c }

/-- The next statement of `GetConn`, or of `FreeConn` at the end of a scope
whose handle is not null. -/
def clientStep (s : SqlConnPool) (i : Nat) : Scope → Except Halt SqlConnPool
  | .outside => .ok (s.move i (if s.connque = [] then .holding none else .waiting))
  | .waiting =>
    match s.sem with
    | 0 => .error .disabled
    | sem + 1 => .ok ({ s with sem := sem }.move i .entering)
  | .entering =>
    if s.locked then .error .disabled
    else match s.connque with
      | [] => .error .emptyQueue
      | handle :: rest => .ok ({ s with connque := rest }.move i (.holding handle))
  | .holding none => .ok (s.move i .outside)
  | .holding (some handle) =>
    if s.locked then .error .disabled
    else .ok ({ s with connque := s.connque ++ [some handle], locked := true }.move i .posting)
  | .posting => .ok ({ s with sem := s.sem + 1, locked := false }.move i .outside)

/-- The next statement of `Stop`: `ClosePool`, the worker threads, which use no
connection, and the event loop threads. `mysql_close` ignores a null pointer. -/
def stopStep (s : SqlConnPool) : Except Halt SqlConnPool :=
  match s.stop with
  | .running =>
    if s.locked then .error .disabled else .ok { s with locked := true, stop := .closing }
  | .closing =>
    match s.connque with
    | [] => .ok { s with locked := false, stop := .poolClosed }
    | handle :: rest => .ok { s with connque := rest, closed := s.closed ++ handle.toList }
  | .poolClosed => .ok { s with stop := .workersStopped }
  | .workersStopped =>
    if ∀ c ∈ s.clients, c = .outside then .ok { s with stop := .done } else .error .disabled
  | .done => .error .disabled

inductive Event
  | client (i : Nat)
  | stop
  deriving DecidableEq

/-- A thread that has been joined does not go on. -/
def step (s : SqlConnPool) : Event → Except Halt SqlConnPool
  | .client i =>
    if s.stop = .done then .error .disabled
    else match s.clients[i]? with
      | none => .error .disabled
      | some c => s.clientStep i c
  | .stop => s.stopStep

end SqlConnPool

end MudouHttp
