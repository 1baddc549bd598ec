import Mathlib.Logic.Function.Basic
import MudouHttp.Cxx.Machine

/-!
# TimeWheel

The timing wheel of `timer/TimeWheel.cpp`. A `std::list` node lives at an
address in `nodes`; a list of the wheel is the addresses of its nodes and an
iterator is one address. Use of an iterator whose node is gone, or in a list
that does not hold it, is a fault.
-/

namespace MudouHttp

/-- A connection; `fd` is what `fd()` returns. -/
structure Conn where
  id : Nat
  fd : Int
  deriving DecidableEq, Repr

structure TimerNode where
  fd : Int
  rotation : Int
  slot : Int
  conn : Conn

structure TimeWheel where
  slotInterval : Int
  slots : Int
  currentSlot : Int
  wheel : Int → List Nat
  timerMap : Int → Option Nat
  nodes : Nat → Option TimerNode
  nextNode : Nat

open Function (update)

namespace TimeWheel

def new (slotInterval slots : Int32) : TimeWheel :=
  { slotInterval := slotInterval.toInt, slots := slots.toInt, currentSlot := 0
    wheel := fun _ => [], timerMap := fun _ => none, nodes := fun _ => none, nextNode := 0 }

/-- `wheel_[slot].push_front(node)` and the map entry for its `begin()`. -/
def insert (w : TimeWheel) (slot : Int) (node : TimerNode) : Except Fault TimeWheel :=
  if 0 ≤ slot ∧ slot < w.slots then
    .ok { w with
      wheel := update w.wheel slot (w.nextNode :: w.wheel slot)
      nodes := update w.nodes w.nextNode (some node)
      timerMap := update w.timerMap node.fd (some w.nextNode)
      nextNode := w.nextNode + 1 }
  else .error .outOfBounds

def addConnectionUnsafe (w : TimeWheel) (conn : Conn) (timeout : Int) : Except Fault TimeWheel := do
  let ticks ← intDiv timeout w.slotInterval
  let rotation ← intDiv ticks w.slots
  let slot ← intRem (← intAdd w.currentSlot (← intRem ticks w.slots)) w.slots
  w.insert slot { fd := conn.fd, rotation := rotation, slot := slot, conn := conn }

/-- `wheel_[it->second->slot].erase(it->second)` and `timer_map_.erase(it)`
for the entry of `fd`. -/
def erase (w : TimeWheel) (fd : Int) (it : Nat) : Except Fault TimeWheel :=
  match w.nodes it with
  | none => .error .danglingIterator
  | some node =>
    if 0 ≤ node.slot ∧ node.slot < w.slots then
      if it ∈ w.wheel node.slot then
        .ok { w with
          wheel := update w.wheel node.slot ((w.wheel node.slot).erase it)
          nodes := update w.nodes it none
          timerMap := update w.timerMap fd none }
      else .error .danglingIterator
    else .error .outOfBounds

def removeConnectionUnsafe (w : TimeWheel) (conn : Conn) : Except Fault TimeWheel :=
  match w.timerMap conn.fd with
  | none => .ok w
  | some it => w.erase conn.fd it

def addConnection (w : TimeWheel) (conn : Conn) (timeout : Int32) : Except Fault TimeWheel :=
  w.addConnectionUnsafe conn timeout.toInt

def updateConnection (w : TimeWheel) (conn : Conn) : Except Fault TimeWheel :=
  match w.timerMap conn.fd with
  | none => .ok w
  | some it => do (← w.erase conn.fd it).addConnectionUnsafe conn 360

def removeConnection (w : TimeWheel) (conn : Conn) : Except Fault TimeWheel :=
  w.removeConnectionUnsafe conn

/-- The loop of `tick` over the nodes of the current list: the nodes that stay
in the list and `weak_conns`. -/
def tickLoop (expired : Conn → Bool) :
    TimeWheel → List Nat → Except Fault (TimeWheel × List Nat × List Conn)
  | w, [] => .ok (w, [], [])
  | w, it :: rest =>
    match w.nodes it with
    | none => .error .danglingIterator
    | some node =>
      if node.rotation > 0 then do
        let older := { node with rotation := node.rotation - 1 }
        let (w, kept, weakConns) ← tickLoop expired { w with
          nodes := update w.nodes it (some older) } rest
        pure (w, it :: kept, weakConns)
      else do
        let (w, kept, weakConns) ← tickLoop expired { w with
          nodes := update w.nodes it none, timerMap := update w.timerMap node.fd none } rest
        pure (w, kept, if expired node.conn then weakConns else node.conn :: weakConns)

/-- `tick` under the lock; the connections it returns are closed after it.
`expired` says which weak pointers have no connection any more. -/
def tick (w : TimeWheel) (expired : Conn → Bool) : Except Fault (TimeWheel × List Conn) :=
  if 0 ≤ w.currentSlot ∧ w.currentSlot < w.slots then do
    let (w', kept, weakConns) ← tickLoop expired w (w.wheel w.currentSlot)
    let next ← intRem (← intAdd w.currentSlot 1) w.slots
    pure ({ w' with wheel := update w'.wheel w.currentSlot kept, currentSlot := next }, weakConns)
  else .error .outOfBounds

end TimeWheel

end MudouHttp
