import MudouHttp.Cxx.Machine

/-!
# BufferBlock

The byte buffer of `reactor/Buffer.h` and `reactor/Buffer.cpp`. A block is
memory of exactly its capacity; `memcpy` past that is a fault, and so is
`front()` of an empty vector. Loops that erase the front block recurse on the
blocks.
-/

namespace MudouHttp

/-- The memory of a block, its fill level and its capacity. -/
structure Block where
  data : Bytes
  size : Nat
  capacity : Nat
  room : data.length = capacity

/-- `Block(size_t cap)`. Nothing reads the memory above `size`. -/
def Block.new (cap : Nat) : Block :=
  { data := List.replicate cap 0, size := 0, capacity := cap, room := List.length_replicate }

/-- `memcpy(data + pos, src, n)` into a block. -/
def Block.write (b : Block) (pos : Nat) (src : Bytes) : Except Fault Block :=
  if h : pos + src.length ≤ b.capacity then
    .ok { b with
      data := b.data.take pos ++ src ++ b.data.drop (pos + src.length)
      room := by
        have := b.room
        simp only [List.length_append, List.length_take, List.length_drop]
        omega }
  else .error .outOfBounds

/-- The bytes `memcpy(dest, data + pos, n)` reads from a block. -/
def Block.read (b : Block) (pos n : Nat) : Except Fault Bytes :=
  if pos + n ≤ b.capacity then .ok ((b.data.drop pos).take n) else .error .outOfBounds

def Block.bytes (b : Block) : Bytes := b.data.take b.size

structure BufferBlock where
  blocks : List Block
  totalSize : Nat
  readPos : Nat
  writePos : Nat
  checkPos : Nat

/-- `struct iovec`: a block of the buffer, the offset in it, and a length. -/
structure IoVec where
  block : Nat
  offset : Nat
  iovLen : Nat
  deriving DecidableEq, Repr

namespace BufferBlock

def initialBlockSize : Nat := 2048
def maxBlockSize : Nat := 64 * 1024

def fresh : BufferBlock :=
  { blocks := [Block.new initialBlockSize]
    totalSize := 0, readPos := 0, writePos := 0, checkPos := 0 }

def readableBytes (b : BufferBlock) : Nat := b.totalSize

/-- The new last block `append` opens when the last one is full. `size` is
the size of the whole append, not of what remains of it. -/
def grow (b : BufferBlock) (size : Nat) (current : Block) : BufferBlock :=
  let newSize := max (min (current.capacity * 2) maxBlockSize) size
  { b with blocks := b.blocks ++ [Block.new newSize], writePos := 0 }

def fill (b : BufferBlock) (src : Bytes) : Except Fault BufferBlock :=
  match b.blocks.getLast? with
  | none => .error .emptyContainer
  | some back => do
    let back' ← back.write b.writePos src
    let writePos := b.writePos + src.length
    pure { b with
      blocks := b.blocks.dropLast ++ [{ back' with size := writePos }]
      writePos := writePos
      totalSize := b.totalSize + src.length }

/-- The `while (remaining > 0)` loop of `append`; `src` is what remains. -/
def appendLoop (size : Nat) : Nat → BufferBlock → Bytes → Except Fault BufferBlock
  | _, b, [] => .ok b
  | 0, _, _ :: _ => .error .diverges
  | fuel + 1, b, src =>
    match b.blocks.getLast? with
    | none => .error .emptyContainer
    | some current => do
      let available := sizeSub current.capacity b.writePos
      let grown := if available = 0 then b.grow size current else b
      let available := if available = 0 then
        max (min (current.capacity * 2) maxBlockSize) size else available
      let copySize := min src.length available
      let b' ← grown.fill (src.take copySize)
      appendLoop size fuel b' (src.drop copySize)

/-- Each iteration copies at least one byte, so `size` of them are enough. -/
def append (b : BufferBlock) (data : Bytes) : Except Fault BufferBlock :=
  if data.length = 0 then .ok b
  else
    let b := if b.blocks.isEmpty then
      { b with blocks := [Block.new initialBlockSize], writePos := 0 } else b
    appendLoop data.length data.length b data

def clear (_ : BufferBlock) : BufferBlock := fresh

/-- The loop of `peekFromBlock`; `pos` is `readPos` for the first block and
zero for the others, `copied` what `dest` holds. -/
def peekLoop (n : Nat) : List Block → Nat → Bytes → Except Fault Bytes
  | [], _, copied => .ok copied
  | block :: rest, pos, copied =>
    if copied.length ≥ n then .ok copied
    else do
      let available := sizeSub block.size pos
      let chunk ← block.read pos (min (n - copied.length) available)
      peekLoop n rest 0 (copied ++ chunk)

def peekFromBlock (b : BufferBlock) (n : Nat) : Except Fault Bytes :=
  if n = 0 then .ok []
  else if b.readableBytes < n then .ok []
  else peekLoop n b.blocks b.readPos []

/-- The loop of `consumeBytes`: blocks left, `readPos` and `consumed`. A
block that is not read to its end has given all that was asked for, which
ends the loop. -/
def consumeLoop (size : Nat) : List Block → Nat → Nat → List Block × Nat × Nat
  | [], readPos, consumed => ([], readPos, consumed)
  | current :: rest, readPos, consumed =>
    if consumed < size then
      let available := sizeSub current.size readPos
      let toConsume := min (size - consumed) available
      if readPos + toConsume = current.size then
        consumeLoop size rest 0 (consumed + toConsume)
      else (current :: rest, readPos + toConsume, consumed + toConsume)
    else (current :: rest, readPos, consumed)

def consumeBytes (b : BufferBlock) (size : Nat) : BufferBlock :=
  if size = 0 then b
  else
    let (blocks, readPos, consumed) := consumeLoop size b.blocks b.readPos 0
    { b with
      blocks := blocks, readPos := readPos
      totalSize := sizeSub b.totalSize consumed, checkPos := readPos }

/-- The loop of `readBytes`: blocks left, `readPos` and what `dest` holds. -/
def readLoop (n : Nat) : List Block → Nat → Bytes → Except Fault (List Block × Nat × Bytes)
  | [], readPos, copied =>
    if copied.length < n then .error .emptyContainer else .ok ([], readPos, copied)
  | current :: rest, readPos, copied =>
    if copied.length < n then do
      let available := sizeSub current.size readPos
      let toCopy := min (n - copied.length) available
      let chunk ← current.read readPos toCopy
      if readPos + toCopy = current.size then
        readLoop n rest 0 (copied ++ chunk)
      else .ok (current :: rest, readPos + toCopy, copied ++ chunk)
    else .ok (current :: rest, readPos, copied)

def readBytes (b : BufferBlock) (n : Nat) : Except Fault (BufferBlock × Bytes) :=
  if n = 0 then .ok (b, [])
  else do
    let (blocks, readPos, dest) ← readLoop n b.blocks b.readPos []
    pure ({ b with
      blocks := blocks, readPos := readPos
      totalSize := sizeSub b.totalSize n, checkPos := readPos }, dest)

/-- The loop of `erase`: blocks left and `readPos`. -/
def eraseLoop : List Block → Nat → Nat → List Block × Nat
  | [], readPos, _ => ([], readPos)
  | current :: rest, readPos, length =>
    if length > 0 then
      let available := sizeSub current.size readPos
      if available ≤ length then eraseLoop rest 0 (length - available)
      else (current :: rest, readPos + length)
    else (current :: rest, readPos)

/-- `len` is an `int`; past the first test it is positive, and the
comparisons with `size_t` and the loop see its value. -/
def erase (b : BufferBlock) (len : Int32) : BufferBlock :=
  let length := toSize len.toInt
  if len ≤ 0 ∨ length > b.totalSize then b
  else if length = b.totalSize then b.clear
  else
    let (blocks, readPos) := eraseLoop b.blocks b.readPos length
    { b with
      blocks := blocks, readPos := readPos
      totalSize := sizeSub b.totalSize length, checkPos := readPos }

/-- The loop of `getIOVecs` from the block at `index` on, read from `pos`. -/
def iovLoop (maxCount : Nat) : List Block → Nat → Nat → List IoVec → List IoVec
  | [], _, _, iovs => iovs
  | block :: rest, index, pos, iovs =>
    if iovs.length ≥ maxCount then iovs
    else
      let available := sizeSub block.size pos
      let iovs := if available > 0 then iovs ++ [⟨index, pos, available⟩] else iovs
      iovLoop maxCount rest (index + 1) 0 iovs

def getIOVecs (b : BufferBlock) (maxCount startPos : Nat) : List IoVec :=
  if b.blocks.isEmpty ∨ maxCount = 0 then []
  else iovLoop maxCount b.blocks 0 startPos []

/-- `str.resize` fills with zeros, and `peekFromBlock` copies over them. -/
def bufferToString (b : BufferBlock) : Except Fault Bytes := do
  let dest ← b.peekFromBlock b.readableBytes
  pure (dest ++ List.replicate (b.readableBytes - dest.length) 0)

end BufferBlock

end MudouHttp
