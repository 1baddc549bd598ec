import MudouHttp.Lib.Reach
import MudouHttp.Pool.PageCache

/-!
# The page cache and its callers

Any sequence of `allocateSpan` and `deallocateSpan`, with the spans the
callers hold. `Partitioned` is what such a heap is for: what callers hold and
what is free are the pages the system gave, each page once.
-/

namespace MudouHttp

def Extent.Has (e : Extent) (a : Nat) : Prop := e.start ≤ a ∧ a < e.stop

def pages (start : Addr) (numPages : Nat) : Extent := ⟨start, numPages * PageCache.pageSize⟩

/-- `live` are the outstanding spans, with their page counts. -/
structure SpanHeap where
  mem : Memory
  pageCache : PageCache
  live : List (Addr × Nat)

/-- `memory` is what `mmap` returns if it is called. -/
inductive SpanEvent
  | allocate (numPages : Nat) (memory : Option Addr)
  | deallocate (ptr : Addr) (numPages : Nat)
  deriving DecidableEq

namespace PageCache

def walk (pc : PageCache) : (rounds : Nat) → Option Nat → List Span
  | 0, _ => []
  | rounds + 1, ptr =>
    match pc.deref ptr with
    | .ok span => span :: walk pc rounds span.next
    | .error _ => []

def free (pc : PageCache) : List Span :=
  pc.freeSpans.flatMap fun entry => pc.walk pc.objects.length entry.2

end PageCache

namespace SpanHeap

def new : SpanHeap := { mem := fun _ => 0, pageCache := .new, live := [] }

def step (s : SpanHeap) : SpanEvent → Except Fault SpanHeap
  | .allocate numPages memory => do
    let (mem, pageCache, ptr) ← s.pageCache.allocateSpan s.mem numPages memory
    let live := match ptr with
      | none => s.live
      | some start => (start, numPages) :: s.live
    pure { mem := mem, pageCache := pageCache, live := live }
  | .deallocate ptr numPages => do
    let pageCache ← s.pageCache.deallocateSpan ptr numPages
    pure { s with pageCache := pageCache, live := s.live.erase (ptr, numPages) }

/-- `mmap` returns whole pages of the address space that it has not returned
before. -/
structure Maps (mapped : List Extent) (region : Extent) : Prop where
  pos : 0 < region.size
  start : 0 < region.start
  aligned : PageCache.pageSize ∣ region.start
  stop : region.stop < 2 ^ 64
  fresh : ∀ r ∈ mapped, region.Apart r

/-- Callers ask for at least one page and give back what they hold. -/
def Admits (s : SpanHeap) : SpanEvent → Prop
  | .allocate numPages memory => 1 ≤ numPages ∧ ∀ start, memory = some start →
    Maps s.pageCache.mapped ⟨start, PageCache.spanSize numPages⟩
  | .deallocate ptr numPages => (ptr, numPages) ∈ s.live

def parts (s : SpanHeap) : List Extent :=
  s.live.map (fun held => pages held.1 held.2) ++
    s.pageCache.free.map fun span => pages span.pageAddr span.numPages

structure Partitioned (s : SpanHeap) : Prop where
  apart : s.parts.Pairwise Extent.Apart
  union : ∀ a, (∃ e ∈ s.parts, e.Has a) ↔ ∃ r ∈ s.pageCache.mapped, r.Has a
  aligned : ∀ e ∈ s.parts, PageCache.pageSize ∣ e.start
  entries : ∀ a object, s.pageCache.spanMap a = some object →
    ∃ span, s.pageCache.deref (some object) = .ok span ∧ span.pageAddr = a
  held : ∀ a n, (a, n) ∈ s.live → ∃ span,
    s.pageCache.deref (s.pageCache.spanMap a) = .ok span ∧ span.numPages = n

end SpanHeap

end MudouHttp
