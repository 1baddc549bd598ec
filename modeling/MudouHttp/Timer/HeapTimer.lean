import Mathlib.Logic.Function.Basic
import MudouHttp.Cxx.Machine

/-!
# HeapTimer

The binary heap of timers of `timer/heaptimer.cpp`. A time point is a number of
nanoseconds; what `Clock::now()` gives is an argument. A callback is known by a
number, and `tick` says which it calls.
-/

namespace MudouHttp

open Function (update)

namespace HeapTimer

structure TimerNode where
  id : Int
  expires : Int
  cb : Nat
  deriving DecidableEq, Repr

/-- Why an operation does not return: an `assert` fails, or an element of
`heap_` is used that is not there. -/
inductive Halt
  | assertion
  | outOfBounds
  | diverges
  deriving DecidableEq, Repr

end HeapTimer

structure HeapTimer where
  heap : List HeapTimer.TimerNode
  ref : Int → Option Nat

namespace HeapTimer

def new : HeapTimer := { heap := [], ref := fun _ => none }

/-- `Clock::now() + MS(timeout)` -/
def deadline (now timeout : Int) : Int := now + 1000000 * timeout

/-- `heap_[i]` -/
def node (h : HeapTimer) (i : Nat) : Except Halt TimerNode :=
  match h.heap[i]? with
  | some x => .ok x
  | none => .error .outOfBounds

def swapNode (h : HeapTimer) (i j : Nat) : Except Halt HeapTimer :=
  match h.heap[i]?, h.heap[j]? with
  | some x, some y =>
    .ok { heap := (h.heap.set i y).set j x
          ref := update (update h.ref y.id (some i)) x.id (some j) }
  | _, _ => .error .assertion

/-- The loop of `siftup_`: `j >= 0` holds of every `size_t`. A turn moves `i` on
to its parent, so that `i + 1` turns reach the root and what comes after it. -/
def siftupLoop : Nat → HeapTimer → Nat → Except Halt HeapTimer
  | 0, _, _ => .error .diverges
  | fuel + 1, h, i => do
    let j := sizeSub i 1 / 2
    let above ← h.node j
    let x ← h.node i
    if above.expires < x.expires then pure h
    else siftupLoop fuel (← h.swapNode i j) j

def siftup (h : HeapTimer) (i : Nat) : Except Halt HeapTimer :=
  if i < h.heap.length then siftupLoop (i + 1) h i else .error .assertion

def smallerChild (h : HeapTimer) (j n : Nat) : Except Halt Nat :=
  if j + 1 < n then do
    let right ← h.node (j + 1)
    let left ← h.node j
    pure (if right.expires < left.expires then j + 1 else j)
  else pure j

/-- Where a turn of the loop of `siftdown_` moves `i`, if it does not leave it. -/
def sinksTo (h : HeapTimer) (i n : Nat) : Except Halt (Option Nat) :=
  if i * 2 + 1 < n then do
    let j ← h.smallerChild (i * 2 + 1) n
    let x ← h.node i
    let below ← h.node j
    pure (if x.expires < below.expires then none else some j)
  else pure none

/-- The loop of `siftdown_`. Every turn but the last moves `i` to a child below `n`. -/
def siftdownLoop : Nat → HeapTimer → Nat → Nat → Except Halt (HeapTimer × Nat)
  | 0, _, _, _ => .error .diverges
  | fuel + 1, h, i, n => do
    match ← h.sinksTo i n with
    | none => pure (h, i)
    | some j => siftdownLoop fuel (← h.swapNode i j) j n

def siftdown (h : HeapTimer) (index n : Nat) : Except Halt (HeapTimer × Bool) :=
  if index < h.heap.length ∧ n ≤ h.heap.length then do
    let (h, i) ← siftdownLoop (n + 1) h index n
    pure (h, decide (i > index))
  else .error .assertion

/-- `siftdown_` on the first `n`, and `siftup_` if nothing has moved. -/
def sift (h : HeapTimer) (i n : Nat) : Except Halt HeapTimer := do
  let (h, moved) ← h.siftdown i n
  if moved then pure h else h.siftup i

def add (h : HeapTimer) (id timeout : Int) (cb : Nat) (now : Int) : Except Halt HeapTimer :=
  if id < 0 then .error .assertion
  else
    match h.ref id with
    | none =>
      let i := h.heap.length
      let node := { id := id, expires := deadline now timeout, cb := cb }
      siftup { heap := h.heap ++ [node], ref := update h.ref id (some i) } i
    | some i => do
      let x ← h.node i
      let node := { x with expires := deadline now timeout, cb := cb }
      sift { h with heap := h.heap.set i node } i h.heap.length

/-- `ref_.erase(heap_.back().id)` and `heap_.pop_back()` -/
def popBack (h : HeapTimer) : Except Halt HeapTimer :=
  match h.heap.getLast? with
  | some back => .ok { heap := h.heap.dropLast, ref := update h.ref back.id none }
  | none => .error .outOfBounds

def del (h : HeapTimer) (index : Nat) : Except Halt HeapTimer :=
  if index < h.heap.length then do
    let n := h.heap.length - 1
    if index < n then do
      let h ← h.swapNode index n
      let h ← h.sift index n
      h.popBack
    else h.popBack
  else .error .assertion

def adjust (h : HeapTimer) (id timeout now : Int) : Except Halt HeapTimer :=
  match h.ref id with
  | none => .error .assertion
  | some i =>
    if h.heap = [] then .error .assertion
    else do
      let x ← h.node i
      let node := { x with expires := deadline now timeout }
      let (h, _) ← siftdown { h with heap := h.heap.set i node } i h.heap.length
      pure h

def pop (h : HeapTimer) : Except Halt HeapTimer :=
  if h.heap = [] then .error .assertion else h.del 0

/-- The loop of `tick`; `now` are the readings of the clock, one a turn. Every
turn but the last takes a node away. -/
def tickLoop (now : Nat → Int) : Nat → HeapTimer → Except Halt (HeapTimer × List Nat)
  | 0, _ => .error .diverges
  | fuel + 1, h =>
    match h.heap with
    | [] => .ok (h, [])
    | front :: _ =>
      if (front.expires - now fuel).tdiv 1000000 > 0 then .ok (h, [])
      else do
        let (h, called) ← tickLoop now fuel (← h.pop)
        pure (h, front.cb :: called)

def tick (h : HeapTimer) (now : Nat → Int) : Except Halt (HeapTimer × List Nat) :=
  tickLoop now (h.heap.length + 1) h

def clear (_ : HeapTimer) : HeapTimer := new

end HeapTimer

end MudouHttp
