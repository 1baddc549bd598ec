import MudouHttp.Pool.PageCache

/-!
# The memory pool

`threadcache` and `centralCache` of `memory_pool2`, and any number of threads
that call `MemoryPool::allocate` and `MemoryPool::deallocate`. A thread's own
code runs up to the next `fetchRange` or `returnRange`, which is one step, as
it holds a lock.
-/

namespace MudouHttp

open Function (update)

def alignment : Nat := 8
def maxByte : Nat := 256 * 1024
def freeListSizeMax : Nat := maxByte / alignment

def roundUp (size : Nat) : Nat := (size + alignment - 1) / alignment * alignment

def getIndex (size : Nat) : Nat := (max size alignment + alignment - 1) / alignment - 1

-- ---------------------------------------------------------------------------
-- centralCache
-- ---------------------------------------------------------------------------

def spanPages : Nat := 8

structure Central where
  mem : Memory
  freeList : Nat → Addr
  pageCache : PageCache

namespace Central

/-- The pages `fetchFromPageCache` asks for. -/
def numPages (size : Nat) : Nat :=
  if size ≤ spanPages * PageCache.pageSize then spanPages
  else (size + PageCache.pageSize - 1) / PageCache.pageSize

def fetchFromPageCache (c : Central) (size : Nat) (memory : Option Addr) :
    Except Fault (Central × Option Addr) := do
  let (mem, pageCache, span) ← c.pageCache.allocateSpan c.mem (numPages size) memory
  pure ({ c with mem := mem, pageCache := pageCache }, span)

/-- `for (i = from; …; i++)`, that many rounds: each block is linked to the
one behind it. -/
def link (start size : Nat) : (rounds i : Nat) → Memory → Memory
  | 0, _, mem => mem
  | rounds + 1, i, mem =>
    link start size rounds (i + 1) (update mem (start + (i - 1) * size) (start + i * size))

def totalBlocks (size : Nat) : Nat := spanPages * PageCache.pageSize / size

/-- A fresh span is carved into two chains, one to hand out and one to keep.
What is handed out, and `RealIncrease`. -/
def carve (c : Central) (index batchNum : Nat) (start : Addr) : Central × Nat :=
  let size := (index + 1) * alignment
  let total := totalBlocks size
  let alloc := min batchNum total
  let mem := if alloc > 1 then
      update (link start size (alloc - 1) 1 c.mem) (start + (alloc - 1) * size) 0
    else c.mem
  if total > alloc then
    ({ c with
      mem := update (link start size (total - (alloc + 1)) (alloc + 1) mem)
        (start + (total - 1) * size) 0
      freeList := update c.freeList index (start + alloc * size) }, alloc)
  else ({ c with mem := mem }, alloc)

/-- `while (current && count < batchNum)`: `prev`, `current` and `count`. -/
def take (mem : Memory) : (rounds : Nat) → (prev current : Addr) → (count : Nat) →
    Addr × Addr × Nat
  | 0, prev, current, count => (prev, current, count)
  | rounds + 1, prev, current, count =>
    if current ≠ 0 then take mem rounds current (mem current) (count + 1)
    else (prev, current, count)

/-- The result, null if there is none, and `RealIncrease`. -/
def fetchRange (c : Central) (index batchNum : Nat) (memory : Option Addr) :
    Except Fault (Central × Addr × Nat) :=
  if index ≥ freeListSizeMax ∨ batchNum = 0 then .ok (c, 0, 0)
  else if c.freeList index = 0 then do
    let (c, span) ← c.fetchFromPageCache ((index + 1) * alignment) memory
    match span with
    | none => pure (c, 0, 0)
    | some start =>
      let (c, realIncrease) := c.carve index batchNum start
      pure (c, start, realIncrease)
  else
    let result := c.freeList index
    let (prev, current, count) := take c.mem batchNum 0 result 0
    let mem := if prev ≠ 0 then update c.mem prev 0 else c.mem
    .ok ({ c with mem := mem, freeList := update c.freeList index current }, result, count)

/-- `while (*end != nullptr && count < size)`, `count` starting at one. -/
def last (mem : Memory) : (rounds : Nat) → (node : Addr) → Addr
  | 0, node => node
  | rounds + 1, node => if mem node ≠ 0 then last mem rounds (mem node) else node

/-- `size` bounds a number of blocks. -/
def returnRange (c : Central) (start : Addr) (size index : Nat) : Central :=
  if start = 0 ∨ index ≥ freeListSizeMax then c
  else
    { c with
      mem := update c.mem (last c.mem (size - 1) start) (c.freeList index)
      freeList := update c.freeList index start }

end Central

-- ---------------------------------------------------------------------------
-- threadcache
-- ---------------------------------------------------------------------------

/-- Where a thread is: in no call, in `fetchFromCentralCache` with what
`fetchRange` returned, or in `returnToCentralCache` before `returnRange`. -/
inductive Phase
  | idle
  | fetched (index batchNum realIncrease : Nat) (start : Addr) (size : Nat)
  | returning (start : Addr) (size index : Nat)
  deriving DecidableEq

structure ThreadCache where
  freeList : Nat → Addr
  freeListSize : Nat → Nat

namespace ThreadCache

def sizeAdd (a b : Nat) : Nat := (a + b) % 2 ^ 64

def new : ThreadCache := { freeList := fun _ => 0, freeListSize := fun _ => 0 }

def getBatchNum (size : Nat) : Nat :=
  let baseNum :=
    if size ≤ 32 then 64 else if size ≤ 64 then 32 else if size ≤ 128 then 16
    else if size ≤ 256 then 8 else if size ≤ 512 then 4 else if size ≤ 1024 then 2 else 1
  let maxNum := max 1 (4 * 1024 / size)
  max 1 (min maxNum baseNum)

/-- The branch of `allocate` where the list has a block. -/
def pop (tc : ThreadCache) (mem : Memory) (index : Nat) : ThreadCache :=
  { freeList := update tc.freeList index (mem (tc.freeList index))
    freeListSize := update tc.freeListSize index (sizeSub (tc.freeListSize index) 1) }

/-- `fetchFromCentralCache` once `fetchRange` has returned a chain. -/
def store (tc : ThreadCache) (mem : Memory) (index batchNum realIncrease : Nat) (start : Addr) :
    ThreadCache :=
  { freeList := if batchNum > 1 then update tc.freeList index (mem start) else tc.freeList
    freeListSize := update tc.freeListSize index
      (sizeAdd (tc.freeListSize index) (sizeSub realIncrease 1)) }

def push (tc : ThreadCache) (index : Nat) (ptr : Addr) : ThreadCache :=
  { freeList := update tc.freeList index ptr
    freeListSize := update tc.freeListSize index (sizeAdd (tc.freeListSize index) 1) }

def shouldReturnToCentralCache (tc : ThreadCache) (index : Nat) : Bool :=
  tc.freeListSize index > 64

/-- `for (i = 0; i < keepNum - 1; i++)`: the node to split behind, null if the
list ends before it. -/
def splitNode (mem : Memory) : (rounds : Nat) → (node : Addr) → Addr
  | 0, node => node
  | rounds + 1, node => if mem node = 0 then 0 else splitNode mem rounds (mem node)

/-- `returnToCentralCache` up to its call of `returnRange`. Where the list ends
early nothing more happens, so that the `returnNum` set there is not used. -/
def split (tc : ThreadCache) (mem : Memory) (start : Addr) (size : Nat) :
    Memory × ThreadCache × Phase :=
  let index := getIndex size
  let alignedSize := roundUp size
  let batchNum := tc.freeListSize index
  if batchNum ≤ 1 then (mem, tc, .idle)
  else
    let keepNum := max (batchNum / 4) 1
    let returnNum := batchNum - keepNum
    let node := splitNode mem (keepNum - 1) start
    if node = 0 then (mem, tc, .idle)
    else
      let nextNode := mem node
      (update mem node 0,
        { freeList := update tc.freeList index start
          freeListSize := update tc.freeListSize index keepNum },
        if returnNum > 0 ∧ nextNode ≠ 0 then
          .returning nextNode (returnNum * alignedSize % 2 ^ 64) index
        else .idle)

end ThreadCache

-- ---------------------------------------------------------------------------
-- The threads
-- ---------------------------------------------------------------------------

/-- The program keeps neither `live`, the blocks its callers hold with the
sizes they asked for, nor `carved`, the blocks ever carved out of spans, nor
`mallocs`, the regions `malloc` returned and `free` did not take back. -/
structure MemoryPool (T : Type) where
  central : Central
  cache : T → ThreadCache
  phase : T → Phase
  live : List Extent
  carved : List Extent
  mallocs : List Extent

/-- One step of a thread, or of a caller that writes into a block it holds.
`memory` is what `malloc` or `mmap` returns if it is called. -/
inductive PoolEvent (T : Type)
  | allocate (t : T) (size : Nat) (memory : Option Addr)
  | store (t : T)
  | deallocate (t : T) (ptr : Addr) (size : Nat)
  | returnRange (t : T)
  | write (block : Extent) (mem : Memory)

/-- Why a step cannot be taken: it is not the thread's next one, or it faults. -/
inductive PoolStop
  | elsewhere
  | fault (f : Fault)
  deriving DecidableEq

namespace MemoryPool

variable {T : Type} [DecidableEq T]

def new : MemoryPool T :=
  { central := { mem := fun _ => 0, freeList := fun _ => 0, pageCache := .new }
    cache := fun _ => .new, phase := fun _ => .idle, live := [], carved := [], mallocs := [] }

/-- The blocks a fresh span is carved into. Above the size of a span the whole
of it is one block. -/
def blocks (start : Addr) (size : Nat) : List Extent :=
  if Central.totalBlocks size = 0 then [⟨start, size⟩]
  else (List.range (Central.totalBlocks size)).map fun k => ⟨start + k * size, size⟩

/-- `allocate` asked for no bytes gets one alignment. -/
def atLeastOne (size : Nat) : Nat := if size = 0 then alignment else size

def mallocStep (s : MemoryPool T) (size : Nat) (memory : Option Addr) : MemoryPool T :=
  match memory with
  | none => s
  | some start =>
    { s with live := ⟨start, size⟩ :: s.live, mallocs := ⟨start, size⟩ :: s.mallocs }

/-- The call of `fetchRange` in `fetchFromCentralCache`. -/
def fetchStep (s : MemoryPool T) (t : T) (size index : Nat) (memory : Option Addr) :
    Except Fault (MemoryPool T) := do
  let blockSize := (index + 1) * alignment
  let batchNum := ThreadCache.getBatchNum blockSize
  let (central, start, realIncrease) ← s.central.fetchRange index batchNum memory
  if start = 0 then pure { s with central := central }
  else
    pure { s with
      central := central
      phase := update s.phase t (.fetched index batchNum realIncrease start size)
      carved := if s.central.freeList index = 0 then blocks start blockSize ++ s.carved
        else s.carved }

/-- `allocate` up to its return, or to the return of `fetchRange`. -/
def allocateStep (s : MemoryPool T) (t : T) (size : Nat) (memory : Option Addr) :
    Except Fault (MemoryPool T) :=
  if atLeastOne size > maxByte then .ok (s.mallocStep size memory)
  else
    let index := getIndex (atLeastOne size)
    let ptr := (s.cache t).freeList index
    if ptr ≠ 0 then
      .ok { s with
        cache := update s.cache t ((s.cache t).pop s.central.mem index)
        live := ⟨ptr, size⟩ :: s.live }
    else s.fetchStep t size index memory

/-- The rest of `fetchFromCentralCache`. -/
def storeStep (s : MemoryPool T) (t : T) (index batchNum realIncrease : Nat) (start : Addr)
    (size : Nat) : MemoryPool T :=
  { s with
    cache := update s.cache t ((s.cache t).store s.central.mem index batchNum realIncrease start)
    phase := update s.phase t .idle
    live := ⟨start, size⟩ :: s.live }

def released (s : MemoryPool T) (ptr : Addr) : List Extent :=
  s.live.filter fun b => b.start ≠ ptr

/-- `deallocate` up to its return, or to its call of `returnRange`. -/
def deallocateStep (s : MemoryPool T) (t : T) (ptr : Addr) (size : Nat) : MemoryPool T :=
  if size > maxByte then
    { s with live := s.released ptr, mallocs := s.mallocs.filter fun b => b.start ≠ ptr }
  else
    let index := getIndex size
    let mem := update s.central.mem ptr ((s.cache t).freeList index)
    let tc := (s.cache t).push index ptr
    let (mem, tc, phase) := if tc.shouldReturnToCentralCache index then tc.split mem ptr size
      else (mem, tc, .idle)
    { s with
      central := { s.central with mem := mem }
      cache := update s.cache t tc
      phase := update s.phase t phase
      live := s.released ptr }

def step (s : MemoryPool T) : PoolEvent T → Except PoolStop (MemoryPool T)
  | .allocate t size memory =>
    match s.phase t, s.allocateStep t size memory with
    | .idle, .ok s' => .ok s'
    | .idle, .error f => .error (.fault f)
    | _, _ => .error .elsewhere
  | .store t =>
    match s.phase t with
    | .fetched index batchNum realIncrease start size =>
      .ok (s.storeStep t index batchNum realIncrease start size)
    | _ => .error .elsewhere
  | .deallocate t ptr size =>
    match s.phase t with
    | .idle => .ok (s.deallocateStep t ptr size)
    | _ => .error .elsewhere
  | .returnRange t =>
    match s.phase t with
    | .returning start size index =>
      .ok { s with
        central := s.central.returnRange start size index
        phase := update s.phase t .idle }
    | _ => .error .elsewhere
  | .write _ mem => .ok { s with central := { s.central with mem := mem } }

end MemoryPool

end MudouHttp
