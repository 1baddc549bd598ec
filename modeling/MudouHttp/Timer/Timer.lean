import Mathlib.Data.Finset.Basic
import MudouHttp.Cxx.Machine

/-!
# Timer

`timer/timer.h`: timers in a priority queue, which `run_local` takes out when
they are due, and the ids that are not cancelled in a map of their own. A time
point is a number of nanoseconds. A callback is known by the number of the call
that has passed it.
-/

namespace MudouHttp

/-- What `chrono` counts nanoseconds in. -/
def nanoOf (i : Int) : Except Fault Int :=
  if -2 ^ 63 ≤ i ∧ i < 2 ^ 63 then .ok i else .error .intOverflow

namespace Timer

/-- `tn_period` and `tn_repeated_num` are not set where nothing reads them. -/
structure TimerNode where
  tnTmPoint : Int
  tnCallback : Nat
  tnId : Int32
  tnRepeatedNum : Int := 0
  tnIsPeriod : Bool := false
  tnIsRepeated : Bool := false
  tnPeriod : Int := 0
  deriving DecidableEq, Repr

end Timer

/-- The order of `tm_queue` says nothing: `top` gives one of the earliest. The
keys of `tm_id_state_map` all have the one value. -/
structure Timer where
  tmQueue : List Timer.TimerNode
  tmId : Int32
  tmIdStateMap : Finset Int32

namespace Timer

def new : Timer := { tmQueue := [], tmId := 0, tmIdStateMap := ∅ }

/-- `milliseconds` after a reading of the clock. -/
def pointAfter (now ms : Int) : Except Fault Int := nanoOf (now + 1000000 * ms)

def enter (t : Timer) (s : TimerNode) : Timer × Int32 :=
  ({ tmQueue := s :: t.tmQueue, tmId := t.tmId + 1, tmIdStateMap := insert s.tnId t.tmIdStateMap }, s.tnId)

def runAfter (t : Timer) (msTime : Int) (isPeriod : Bool) (callback : Nat) (now : Int) :
    Except Fault (Timer × Int32) := do
  let tmPoint ← pointAfter now msTime
  pure (t.enter { tnTmPoint := tmPoint, tnCallback := callback, tnId := t.tmId, tnIsPeriod := isPeriod,
                  tnPeriod := msTime })

def runAt (t : Timer) (timePoint : Int) (callback : Nat) : Except Fault (Timer × Int32) :=
  pure (t.enter { tnTmPoint := timePoint, tnCallback := callback, tnId := t.tmId })

def runRepeated (t : Timer) (msTime repeatedNum : Int) (callback : Nat) (now : Int) :
    Except Fault (Timer × Int32) := do
  let tmPoint ← pointAfter now msTime
  pure (t.enter { tnTmPoint := tmPoint, tnCallback := callback, tnId := t.tmId, tnIsRepeated := true,
                  tnRepeatedNum := repeatedNum, tnPeriod := msTime })

def cancel (t : Timer) (id : Int32) : Timer :=
  if id ∈ t.tmIdStateMap then { t with tmIdStateMap := t.tmIdStateMap.erase id } else t

/-- `operator <`: what is due earlier is the greater. -/
instance : LT TimerNode := ⟨fun a b => a.tnTmPoint > b.tnTmPoint⟩

instance (a b : TimerNode) : Decidable (a < b) := inferInstanceAs (Decidable (a.tnTmPoint > b.tnTmPoint))

def IsTop (queue : List TimerNode) (s : TimerNode) : Prop := s ∈ queue ∧ ∀ x ∈ queue, ¬s < x

instance (queue : List TimerNode) (s : TimerNode) : Decidable (IsTop queue s) :=
  inferInstanceAs (Decidable (s ∈ queue ∧ ∀ x ∈ queue, ¬s < x))

/-- One iteration of `run_local`, where `top` gives `s` and the clock reads
`now`, then `later`; with the timer whose callback goes to the thread pool. -/
def runLocal (t : Timer) (s : TimerNode) (now later : Int) : Except Fault (Timer × Option TimerNode) :=
  if t.tmQueue = [] then .ok (t, none)
  else do
    let diff ← nanoOf (s.tnTmPoint - now)
    if diff.tdiv 1000000 > 0 then pure (t, none)
    else
      let t := { t with tmQueue := t.tmQueue.erase s }
      if s.tnId ∉ t.tmIdStateMap then pure (t, none)
      else if s.tnIsPeriod then do
        let again := { s with tnTmPoint := ← pointAfter later s.tnPeriod }
        pure ({ t with tmQueue := again :: t.tmQueue }, some s)
      else if s.tnIsRepeated ∧ s.tnRepeatedNum > 0 then do
        let again := { s with
          tnTmPoint := ← pointAfter later s.tnPeriod, tnRepeatedNum := s.tnRepeatedNum - 1 }
        pure ({ t with tmQueue := again :: t.tmQueue }, some s)
      else pure (t, some s)

-- ---------------------------------------------------------------------------
-- Runs
-- ---------------------------------------------------------------------------

inductive Call
  | runAfter (msTime : Int) (isPeriod : Bool)
  | runAt (timePoint : Int)
  | runRepeated (msTime repeatedNum : Int)
  deriving DecidableEq, Repr

def perform (t : Timer) (callback : Nat) (now : Int) : Call → Except Fault (Timer × Int32)
  | .runAfter msTime isPeriod => t.runAfter msTime isPeriod callback now
  | .runAt timePoint => t.runAt timePoint callback
  | .runRepeated msTime repeatedNum => t.runRepeated msTime repeatedNum callback now

inductive Event
  | call (c : Call) (now : Int)
  | cancel (id : Int32)
  | iterate (top : TimerNode) (now later : Int)
  deriving DecidableEq, Repr

/-- A timer with what has happened to it: the last reading of the clock, the
calls with the ids they have returned, and the timers whose callbacks have
gone to the thread pool, in their order. -/
structure Run where
  timer : Timer
  clock : Int
  calls : List (Call × Int32)
  dispatched : List TimerNode

namespace Run

def start (clock : Int) : Run := { timer := .new, clock := clock, calls := [], dispatched := [] }

def step (r : Run) : Event → Except Fault Run
  | .call c now => do
    let (timer, id) ← r.timer.perform r.calls.length now c
    pure { r with timer := timer, clock := now, calls := r.calls ++ [(c, id)] }
  | .cancel id => .ok { r with timer := r.timer.cancel id }
  | .iterate top now later => do
    let (timer, ran) ← r.timer.runLocal top now later
    pure { r with timer := timer, clock := later, dispatched := r.dispatched ++ ran.toList }

/-- The clock does not go back, and `top` is one of the earliest. -/
def Admits (r : Run) : Event → Prop
  | .call _ now => r.clock ≤ now
  | .cancel _ => True
  | .iterate top now later =>
    r.clock ≤ now ∧ now ≤ later ∧ (r.timer.tmQueue ≠ [] → IsTop r.timer.tmQueue top)

instance (r : Run) : (e : Event) → Decidable (r.Admits e)
  | .call _ now => inferInstanceAs (Decidable (r.clock ≤ now))
  | .cancel _ => inferInstanceAs (Decidable True)
  | .iterate top now later => inferInstanceAs
    (Decidable (r.clock ≤ now ∧ now ≤ later ∧ (r.timer.tmQueue ≠ [] → IsTop r.timer.tmQueue top)))

end Run

end Timer

end MudouHttp
