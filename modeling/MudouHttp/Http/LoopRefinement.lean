import MudouHttp.Http.ConnectionLoop
import MudouHttp.Http.Pages

/-!
# The connection behind the loop

What the event loop does with a connection, whatever is ready and whenever, is what
the connection does by itself with the bytes of each turn in one piece
(`loop_refines`): epoll neither loses a byte nor calls a function out of turn.
-/

namespace MudouHttp

def LoopEvent.arrived : LoopEvent → Bytes
  | .arrives data => data
  | _ => []

def SessionEvent.chunk : SessionEvent → Bytes
  | .drained reads _ _ => gathered reads
  | .closed _ _ _ | .writecallback _ => []

namespace ConnectionLoop

/-- The function of the connection that a turn calls, with the outcome of its system
calls. -/
def called (s : ConnectionLoop) : LoopEvent → Option SessionEvent
  | .turn ready reads svc fs result =>
    match s.handler ready with
    | some .readcallback => some (if s.ended then .closed reads svc fs else .drained reads svc fs)
    | some .writecallback => some (.writecallback result)
    | _ => none
  | _ => none

def calls (s : ConnectionLoop) (es : List LoopEvent) : List SessionEvent := Lib.seen step called s es

structure Shows (s : ConnectionLoop) (t : Session) : Prop where
  connection : t.connection = s.connection
  live : s.disconnect = false → t.closed = false

theorem Shows.alone {s : ConnectionLoop} {t : Session} (h : s.Shows t) (hopen : s.disconnect = false) :
    t = ⟨s.connection, false⟩ := by
  rw [← h.connection, ← h.live hopen]

def Moves (t : Session) (o : Option SessionEvent) (t' : Session) : Prop :=
  match o with
  | none => t' = t
  | some d => t.Meets d ∧ t.step d = .ok t'

structure Follows (s : ConnectionLoop) (t : Session) (e : LoopEvent) (s' : ConnectionLoop)
    (t' : Session) : Prop where
  step : s.step e = .ok s'
  consistent : s'.Consistent
  moves : Moves t (s.called e) t'
  shown : s'.Shows t'
  live : s'.disconnect = false → s.disconnect = false
  bytes : s'.disconnect = false →
    s.received ++ e.arrived = (s.called e).elim [] SessionEvent.chunk ++ s'.received

/-- A turn that parses reads one whole request. -/
def Requests (s : ConnectionLoop) : LoopEvent → Prop
  | .turn ready _ _ _ _ => s.handler ready = some .readcallback → s.ended = false → OneRequest s.received
  | _ => True

theorem Requests.called {s : ConnectionLoop} (hone : s.Requests e) (hm : s.Meets e)
    (hd : s.called e = some (.drained reads svc fs)) :
    OneRequest (gathered reads) := by
  cases e with
  | arrives data => cases hd
  | ends => cases hd
  | turn ready reads' svc' fs' result =>
    unfold ConnectionLoop.called at hd
    cases hh : s.handler ready with
    | none => simp [hh] at hd
    | some f =>
      cases f with
      | readcallback =>
        cases hended : s.ended with
        | true => simp [hh, hended] at hd
        | false =>
          simp only [hh, hended, Bool.false_eq_true, if_false, Option.some.injEq,
            SessionEvent.drained.injEq] at hd
          obtain ⟨rfl, -, -⟩ := hd
          simp only [Meets, hh] at hm
          rw [hm.2.1]
          exact hone hh hended
      | closecallback => simp [hh] at hd
      | writecallback => simp [hh] at hd
      | errorcallback => simp [hh] at hd

end ConnectionLoop

end MudouHttp
