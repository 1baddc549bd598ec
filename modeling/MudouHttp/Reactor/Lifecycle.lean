import Mathlib.Logic.Function.Basic
import MudouHttp.Lib.Reach

/-!
# The life of a connection across three threads

The main thread runs `TcpServer::newconnection`, an event loop handles the
events of the connection's channel, and the timer thread runs
`TimeWheel::tick`. A thread is the list of the statements it has still to
execute; every interleaving of the three lists is a run. What a lock protects
is one statement. The timing wheel and `conns_` are seen at this connection's
descriptor only, which no other connection has while it lives.
-/

namespace MudouHttp

open Function (update)

inductive Callback
  | close
  | error
  | message
  | sendComplete
  | updateTimer
  deriving DecidableEq

inductive Thread
  | main
  | loop
  | timer
  deriving DecidableEq

inductive Action
  | enablereading
  | own
  | setCallback (c : Callback)
  | addTimer
  | insertConns
  | updatechannel
  | setDisconnect
  | disableall
  | removechannel
  | callback (c : Callback)
  | updateTimer
  | removeTimer
  | eraseConns
  | collect
  | lock
  | drop
  deriving DecidableEq

/-- What `handleevent` finds, with the outcome of the system calls that
follow. -/
inductive ChannelEvent
  | hangup
  | readable (parsed : Bool)
  | readEnd
  | writeNothing
  | writePartly
  | writeAll (keepAlive : Bool)
  | writeFailed
  | error

/-- Why a thread does not go on. `disabled` is no failure: the event cannot
happen in the state. -/
inductive Stop
  | exit
  | badFunctionCall
  | badWeakPtr
  | destroyed
  | disabled
  deriving DecidableEq

/-- `set` are the callbacks with a target; `inEpoll` is `Channel::inepoll_`
and `member` whether the kernel's epoll set has the descriptor; `ready` says
that `epoll_wait` has returned the channel; `wheel` and `conns` whether the
timing wheel and `conns_` have an entry; `collected` is the `weak_conns` of a
tick. `closes` counts the runs of `closeconnection` and `errorconnection` and
`removals` those of `EPOLL_CTL_DEL`; the program keeps neither. -/
structure Server where
  owned : Bool
  set : List Callback
  disconnect : Bool
  inEpoll : Bool
  member : Bool
  ready : Bool
  wheel : Bool
  conns : Bool
  collected : Bool
  closes : Nat
  removals : Nat
  program : Thread → List Action

-- ---------------------------------------------------------------------------
-- The statements of each function
-- ---------------------------------------------------------------------------

/-- `Connection::closecallback` and `Connection::errorcallback`. -/
def teardown (c : Callback) : List Action :=
  [.setDisconnect, .disableall, .removechannel, .callback c]

/-- What a callback runs, and the end of its `spConnection` argument. The
callbacks of the application are left out. -/
def handler : Callback → List Action
  | .close => [.removeTimer, .eraseConns, .drop]
  | .error => [.removeTimer, .eraseConns, .drop]
  | .message => [.drop]
  | .sendComplete => [.drop]
  | .updateTimer => [.updateTimer, .drop]

def handleevent : ChannelEvent → List Action
  | .hangup => teardown .close
  | .readable parsed =>
    .callback .updateTimer :: if parsed then [.updatechannel, .callback .message] else []
  | .readEnd => teardown .close
  | .writeNothing => [.updatechannel]
  | .writePartly => []
  | .writeAll keepAlive =>
    [.updatechannel, .callback .sendComplete] ++ if keepAlive then [] else teardown .close
  | .writeFailed => teardown .error
  | .error => teardown .error

/-- `TcpServer::newconnection`, from the last statement of the constructor of
Connection on. -/
def newconnection : List Action :=
  [.enablereading, .own, .setCallback .close, .setCallback .error, .setCallback .message,
    .setCallback .sendComplete, .setCallback .updateTimer, .addTimer, .insertConns, .drop]

/-- `TimeWheel::tick`, when it finds this connection's timer run down. -/
def tickActions : List Action := [.collect, .lock]

-- ---------------------------------------------------------------------------
-- One step
-- ---------------------------------------------------------------------------

namespace Server

def leave (s : Server) (t : Thread) (p : List Action) : Server :=
  { s with program := update s.program t p }

theorem leave_same (s : Server) (t : Thread) (p : List Action) : (s.leave t p).program t = p :=
  Function.update_self ..

theorem leave_other (s : Server) (p : List Action) (h : u ≠ t) :
    (s.leave t p).program u = s.program u := Function.update_of_ne h ..

/-- Someone holds a `shared_ptr`: the map, or a thread before its `drop`. -/
def strong (s : Server) : Bool :=
  s.conns || [Thread.main, .loop, .timer].any fun t => .drop ∈ s.program t

def destroyed (s : Server) : Bool := s.owned && !s.strong

def updatechannel (s : Server) : Except Stop Server :=
  if s.inEpoll then if s.member then .ok s else .error .exit
  else if s.member then .error .exit else .ok { s with member := true, inEpoll := true }

def removechannel (s : Server) : Except Stop Server :=
  if s.inEpoll then
    if s.member then .ok { s with member := false, removals := s.removals + 1 } else .error .exit
  else .ok s

/-- `closecallback_(shared_from_this())` and its like. -/
def call (s : Server) (c : Callback) : Except Stop (Server × List Action) :=
  if !s.owned then .error .badWeakPtr
  else if c ∈ s.set then
    .ok ({ s with closes := if c = .close ∨ c = .error then s.closes + 1 else s.closes }, handler c)
  else .error .badFunctionCall

def act (s : Server) : Action → Except Stop (Server × List Action)
  | .enablereading => do pure (← s.updatechannel, [])
  | .own => .ok ({ s with owned := true }, [])
  | .setCallback c => .ok ({ s with set := c :: s.set }, [])
  | .addTimer => .ok ({ s with wheel := true }, [])
  | .insertConns => .ok ({ s with conns := true }, [])
  | .updatechannel => do pure (← s.updatechannel, [])
  | .setDisconnect => .ok ({ s with disconnect := true }, [])
  | .disableall => do pure (← s.updatechannel, [])
  | .removechannel => do pure (← s.removechannel, [])
  | .callback c => s.call c
  -- `update_connection` replaces an entry by another one
  | .updateTimer => .ok (s, [])
  | .removeTimer => .ok ({ s with wheel := false }, [])
  | .eraseConns => .ok ({ s with conns := false }, [])
  | .collect => .ok ({ s with collected := s.wheel && s.strong, wheel := false }, [])
  | .lock =>
    .ok ({ s with collected := false },
      if s.collected && s.strong then teardown .close ++ [.drop] else [])
  | .drop => .ok (s, [])

/-- The last `shared_ptr` closes the descriptor, and that takes it out of the
epoll set. -/
def settle (s : Server) : Server := if s.destroyed then { s with member := false } else s

inductive Event
  | run (t : Thread)
  | wait
  | handle (ev : ChannelEvent)
  | tick

def step (s : Server) : Event → Except Stop Server
  | .run t =>
    match s.program t with
    | [] => .error .disabled
    | a :: rest =>
      if t = .loop ∧ s.destroyed then .error .destroyed
      else do
        let (s', called) ← (s.leave t rest).act a
        pure (s'.leave t (called ++ rest)).settle
  | .wait =>
    if s.program .loop = [] ∧ s.member ∧ ¬s.ready then .ok { s with ready := true }
    else .error .disabled
  | .handle ev =>
    if s.program .loop = [] ∧ s.ready then
      if s.destroyed then .error .destroyed
      else .ok ({ s with ready := false }.leave .loop (handleevent ev))
    else .error .disabled
  | .tick =>
    if s.program .timer = [] then .ok (s.leave .timer tickActions)
    else .error .disabled

/-- The Connection object exists and its channel is not registered yet. -/
def accepted : Server :=
  { owned := false, set := [], disconnect := false, inEpoll := false, member := false
    ready := false, wheel := false, conns := false, collected := false, closes := 0, removals := 0
    program := fun t => if t = .main then newconnection else [] }

def established : Server :=
  { owned := true, set := [.updateTimer, .sendComplete, .message, .error, .close]
    disconnect := false, inEpoll := true, member := true, ready := false, wheel := true
    conns := true, collected := false, closes := 0, removals := 0, program := fun _ => [] }

end Server

end MudouHttp
