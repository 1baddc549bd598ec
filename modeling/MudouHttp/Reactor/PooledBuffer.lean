import MudouHttp.Lib.Reach
import MudouHttp.Pool.MemoryPool
import MudouHttp.Reactor.Buffer

/-!
# The memory of the blocks of a BufferBlock

`Block` of `reactor/Buffer.h` with the pointer it has from the memory pool, its
constructor, destructor and moves, and the operations of `BufferBlock` with the
calls to the pool they make. A pointer is the number of the `allocate` call
that returned it; `grants` says which of these calls return memory.
-/

namespace MudouHttp

open Function (update)

/-- A block whose `data` is not null has memory. -/
structure PoolBlock where
  memory : Option Nat
  block : Block

/-- The sizes passed to `allocate`, and what was passed to `deallocate`. -/
structure PoolLog where
  requests : List Nat
  released : List (Nat × Nat)

namespace PoolBlock

variable (grants : Nat → Bool)

def new (cap : Nat) (log : PoolLog) : PoolBlock × PoolLog :=
  let ptr := log.requests.length
  ({ memory := if grants ptr then some ptr else none, block := Block.new cap },
    { log with requests := log.requests ++ [cap] })

/-- `~Block`; `operator=` does the same before it takes over another block. -/
def destroy (b : PoolBlock) (log : PoolLog) : PoolLog :=
  match b.memory with
  | some ptr => { log with released := log.released ++ [(ptr, b.block.size)] }
  | none => log

def moved : PoolBlock := { memory := none, block := Block.new 0 }

-- ---------------------------------------------------------------------------
-- std::vector<Block>
-- ---------------------------------------------------------------------------

def destroyAll (blocks : List PoolBlock) (log : PoolLog) : PoolLog :=
  blocks.foldl (fun log b => b.destroy log) log

/-- The old blocks are moved to a larger array and destroyed where they were; if
there is room for one more they stay, with no other effect. -/
def emplaceBack (blocks : List PoolBlock) (cap : Nat) (log : PoolLog) : List PoolBlock × PoolLog :=
  let (b, log) := new grants cap log
  (blocks ++ [b], destroyAll (blocks.map fun _ => moved) log)

/-- From `b` on every block is assigned the next one; the last is destroyed. -/
def shift (b : PoolBlock) : List PoolBlock → PoolLog → List PoolBlock × PoolLog
  | [], log => ([], b.destroy log)
  | next :: rest, log =>
    let (blocks, log) := shift moved rest (b.destroy log)
    (next :: blocks, log)

/-- `blocks_.erase(blocks_.begin())`. -/
def eraseBegin : List PoolBlock → PoolLog → List PoolBlock × PoolLog
  | [], log => ([], log)
  | b :: rest, log => b.shift rest log

end PoolBlock

structure PooledBuffer where
  blocks : List PoolBlock
  totalSize : Nat
  readPos : Nat
  writePos : Nat
  checkPos : Nat

namespace PooledBuffer

open BufferBlock (initialBlockSize maxBlockSize)
open PoolBlock (emplaceBack eraseBegin destroyAll)

def buffer (b : PooledBuffer) : BufferBlock :=
  { blocks := b.blocks.map PoolBlock.block
    totalSize := b.totalSize, readPos := b.readPos, writePos := b.writePos, checkPos := b.checkPos }

section

variable (grants : Nat → Bool)

def construct (log : PoolLog) : PooledBuffer × PoolLog :=
  let (blocks, log) := emplaceBack grants [] initialBlockSize log
  ({ blocks := blocks, totalSize := 0, readPos := 0, writePos := 0, checkPos := 0 }, log)

def grow (b : PooledBuffer) (size : Nat) (current : Block) (log : PoolLog) :
    PooledBuffer × PoolLog :=
  let newSize := max (min (current.capacity * 2) maxBlockSize) size
  let (blocks, log) := emplaceBack grants b.blocks newSize log
  ({ b with blocks := blocks, writePos := 0 }, log)

def fill (b : PooledBuffer) (src : Bytes) : Except Fault PooledBuffer :=
  match b.blocks.getLast? with
  | none => .error .emptyContainer
  | some back =>
    if back.memory = none then .error .nullPointer
    else do
      let back' ← back.block.write b.writePos src
      let writePos := b.writePos + src.length
      pure { b with
        blocks := b.blocks.dropLast ++ [{ back with block := { back' with size := writePos } }]
        writePos := writePos
        totalSize := b.totalSize + src.length }

def appendLoop (size : Nat) :
    Nat → PooledBuffer → Bytes → PoolLog → Except Fault (PooledBuffer × PoolLog)
  | _, b, [], log => .ok (b, log)
  | 0, _, _ :: _, _ => .error .diverges
  | fuel + 1, b, src, log =>
    match b.blocks.getLast? with
    | none => .error .emptyContainer
    | some current => do
      let available := sizeSub current.block.capacity b.writePos
      let (grown, log) := if available = 0 then b.grow grants size current.block log else (b, log)
      let available := if available = 0 then
        max (min (current.block.capacity * 2) maxBlockSize) size else available
      let copySize := min src.length available
      let b' ← grown.fill (src.take copySize)
      appendLoop size fuel b' (src.drop copySize) log

def append (b : PooledBuffer) (data : Bytes) (log : PoolLog) :
    Except Fault (PooledBuffer × PoolLog) :=
  if data.length = 0 then .ok (b, log)
  else
    let (b, log) := if b.blocks.isEmpty then
      let (blocks, log) := emplaceBack grants b.blocks initialBlockSize log
      ({ b with blocks := blocks, writePos := 0 }, log) else (b, log)
    appendLoop grants data.length data.length b data log

def clear (b : PooledBuffer) (log : PoolLog) : PooledBuffer × PoolLog :=
  construct grants (destroyAll b.blocks log)

end

def consumeLoop (size : Nat) : (rounds : Nat) → List PoolBlock → (readPos consumed : Nat) →
    PoolLog → Except Fault (List PoolBlock × Nat × Nat × PoolLog)
  | 0, _, _, _, _ => .error .diverges
  | _ + 1, [], readPos, consumed, log => .ok ([], readPos, consumed, log)
  | rounds + 1, current :: rest, readPos, consumed, log =>
    if consumed < size then
      let available := sizeSub current.block.size readPos
      let toConsume := min (size - consumed) available
      if readPos + toConsume = current.block.size then
        let (blocks, log) := eraseBegin (current :: rest) log
        consumeLoop size rounds blocks 0 (consumed + toConsume) log
      else consumeLoop size rounds (current :: rest) (readPos + toConsume) (consumed + toConsume) log
    else .ok (current :: rest, readPos, consumed, log)

/-- Every round erases a block but the last two. -/
def consumeBytes (b : PooledBuffer) (size : Nat) (log : PoolLog) :
    Except Fault (PooledBuffer × PoolLog) :=
  if size = 0 then .ok (b, log)
  else do
    let (blocks, readPos, consumed, log) ←
      consumeLoop size (b.blocks.length + 2) b.blocks b.readPos 0 log
    pure ({ b with
      blocks := blocks, readPos := readPos
      totalSize := sizeSub b.totalSize consumed, checkPos := readPos }, log)

def eraseLoop : (rounds : Nat) → List PoolBlock → (readPos length : Nat) → PoolLog →
    Except Fault (List PoolBlock × Nat × PoolLog)
  | 0, _, _, _, _ => .error .diverges
  | _ + 1, [], readPos, _, log => .ok ([], readPos, log)
  | rounds + 1, current :: rest, readPos, length, log =>
    if length > 0 then
      let available := sizeSub current.block.size readPos
      if available ≤ length then
        let (blocks, log) := eraseBegin (current :: rest) log
        eraseLoop rounds blocks 0 (length - available) log
      else .ok (current :: rest, readPos + length, log)
    else .ok (current :: rest, readPos, log)

def erase (grants : Nat → Bool) (b : PooledBuffer) (len : Int32) (log : PoolLog) :
    Except Fault (PooledBuffer × PoolLog) :=
  let length := toSize len.toInt
  if len ≤ 0 ∨ length > b.totalSize then .ok (b, log)
  else if length = b.totalSize then .ok (b.clear grants log)
  else do
    let (blocks, readPos, log) ← eraseLoop (b.blocks.length + 1) b.blocks b.readPos length log
    pure ({ b with
      blocks := blocks, readPos := readPos
      totalSize := sizeSub b.totalSize length, checkPos := readPos }, log)

end PooledBuffer

-- ---------------------------------------------------------------------------
-- Any number of buffers
-- ---------------------------------------------------------------------------

structure BufferHeap where
  buffers : Nat → Option PooledBuffer
  log : PoolLog

inductive BufferEvent
  | construct (i : Nat)
  | append (i : Nat) (data : Bytes)
  | consumeBytes (i n : Nat)
  | erase (i : Nat) (len : Int32)
  | clear (i : Nat)
  | destruct (i : Nat)

namespace BufferHeap

def new : BufferHeap := { buffers := fun _ => none, log := { requests := [], released := [] } }

def update (s : BufferHeap) (i : Nat)
    (op : PooledBuffer → PoolLog → Except Fault (PooledBuffer × PoolLog)) :
    Except Fault BufferHeap :=
  match s.buffers i with
  | none => .ok s
  | some b => do
    let (b, log) ← op b s.log
    pure { buffers := Function.update s.buffers i (some b), log := log }

def step (grants : Nat → Bool) (s : BufferHeap) : BufferEvent → Except Fault BufferHeap
  | .construct i =>
    let (b, log) := PooledBuffer.construct grants s.log
    .ok { buffers := Function.update s.buffers i (some b), log := log }
  | .append i data => s.update i fun b => b.append grants data
  | .consumeBytes i n => s.update i fun b => b.consumeBytes n
  | .erase i len => s.update i fun b => b.erase grants len
  | .clear i => s.update i fun b log => .ok (b.clear grants log)
  | .destruct i =>
    match s.buffers i with
    | none => .ok s
    | some b => .ok { buffers := Function.update s.buffers i none
                      log := PoolBlock.destroyAll b.blocks s.log }

/-- No buffer is constructed where there is one. -/
def Admits (s : BufferHeap) : BufferEvent → Prop
  | .construct i => s.buffers i = none
  | _ => True

end BufferHeap

end MudouHttp
