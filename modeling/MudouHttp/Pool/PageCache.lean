import Mathlib.Logic.Function.Basic
import MudouHttp.Cxx.Machine

/-!
# The page cache

`memory_pool2/pageCache.cpp`. Memory is read and written as pointers at the
addresses where blocks start; zero is the null pointer. What `mmap` returns is
a parameter.
-/

namespace MudouHttp

open Function (update)

abbrev Addr := Nat

abbrev Memory := Addr → Addr

structure Extent where
  start : Nat
  size : Nat
  deriving DecidableEq, Repr

namespace Extent

def stop (e : Extent) : Nat := e.start + e.size

def Apart (e f : Extent) : Prop := e.stop ≤ f.start ∨ f.stop ≤ e.start

def Within (e f : Extent) : Prop := f.start ≤ e.start ∧ e.stop ≤ f.stop

instance (e f : Extent) : Decidable (e.Apart f) := inferInstanceAs (Decidable (_ ∨ _))

end Extent

def SameOutside (e : Extent) (mem mem' : Memory) : Prop :=
  ∀ a, Extent.Apart ⟨a, 8⟩ e → mem' a = mem a

/-- `struct Span`; `next` is another span object. -/
structure Span where
  pageAddr : Addr
  numPages : Nat
  next : Option Nat

/-- `freeSpans_` in the order of its keys, with null pointers as they are;
`objects` are the `Span`s made by `new`, `none` once deleted. The program does
not keep `mapped`, what `systemAlloc` got. -/
structure PageCache where
  freeSpans : List (Nat × Option Nat)
  spanMap : Addr → Option Nat
  objects : List (Option Span)
  mapped : List Extent

namespace PageCache

def pageSize : Nat := 4096

def spanSize (numPages : Nat) : Nat := numPages * pageSize % 2 ^ 64

def new : PageCache := { freeSpans := [], spanMap := fun _ => none, objects := [], mapped := [] }

def setList (key : Nat) (head : Option Nat) :
    List (Nat × Option Nat) → List (Nat × Option Nat)
  | [] => [(key, head)]
  | (k, h) :: lists =>
    if k < key then (k, h) :: setList key head lists
    else if k = key then (key, head) :: lists
    else (key, head) :: (k, h) :: lists

def eraseList (key : Nat) (lists : List (Nat × Option Nat)) : List (Nat × Option Nat) :=
  lists.filter fun entry => entry.1 ≠ key

/-- `mmap` and the `memset` after it. -/
def systemAlloc (mem : Memory) (pc : PageCache) (numPages : Nat) (memory : Option Addr) :
    Memory × PageCache :=
  match memory with
  | none => (mem, pc)
  | some start =>
    let region : Extent := { start := start, size := spanSize numPages }
    (fun a => if Extent.Apart ⟨a, 8⟩ region then mem a else 0,
      { pc with mapped := region :: pc.mapped })

/-- The value of `freeSpans_[key]`. -/
def head (pc : PageCache) (key : Nat) : Option Nat :=
  ((pc.freeSpans.find? fun entry => entry.1 = key).map Prod.snd).getD none

/-- The pages of a span past the first `numPages` go to the head of the list
of spans of their size. -/
def cut (pc : PageCache) (object : Nat) (span : Span) (numPages : Nat) : PageCache :=
  let rest := span.numPages - numPages
  let newSpan : Span :=
    { pageAddr := (span.pageAddr + spanSize numPages) % 2 ^ 64, numPages := rest
      next := pc.head rest }
  { pc with
    objects := (pc.objects.set object (some { span with numPages := numPages })) ++ [some newSpan]
    freeSpans := setList rest (some pc.objects.length) pc.freeSpans }

/-- `lower_bound` finds the first list whose key is not below `numPages`. -/
def allocateSpan (mem : Memory) (pc : PageCache) (numPages : Nat) (memory : Option Addr) :
    Except Fault (Memory × PageCache × Option Addr) :=
  match pc.freeSpans.find? fun entry => numPages ≤ entry.1 with
  | some (_, none) => .error .nullPointer
  | some (key, some object) =>
    match pc.objects[object]? with
    | some (some span) =>
      let pc := { pc with
        freeSpans := match span.next with
          | some next => setList key (some next) pc.freeSpans
          | none => eraseList key pc.freeSpans }
      let pc := if span.numPages > numPages then pc.cut object span numPages else pc
      .ok (mem, { pc with spanMap := update pc.spanMap span.pageAddr (some object) },
        some span.pageAddr)
    | _ => .error .danglingIterator
  | none =>
    let (mem, pc) := systemAlloc mem pc numPages memory
    match memory with
    | none => .ok (mem, pc, none)
    | some start =>
      .ok (mem, { pc with
        objects := pc.objects ++ [some { pageAddr := start, numPages := numPages, next := none }]
        spanMap := update pc.spanMap start (some pc.objects.length) }, some start)

-- ---------------------------------------------------------------------------
-- deallocateSpan
-- ---------------------------------------------------------------------------

def setHead (pc : PageCache) (key : Nat) (head : Option Nat) : PageCache :=
  { pc with freeSpans := setList key head pc.freeSpans }

def deref (pc : PageCache) : Option Nat → Except Fault Span
  | none => .error .nullPointer
  | some object =>
    match pc.objects[object]? with
    | some (some span) => .ok span
    | _ => .error .danglingIterator

def setSpan (pc : PageCache) (object : Nat) (span : Option Span) : PageCache :=
  { pc with objects := pc.objects.set object span }

/-- `while (prev->next)`: the span in front of `object`, if the list has it. -/
def findPrev (pc : PageCache) (object : Nat) : (rounds : Nat) → (prev : Nat) →
    Except Fault (Option Nat)
  | 0, _ => .error .diverges
  | rounds + 1, prev => do
    let span ← pc.deref (some prev)
    match span.next with
    | none => pure none
    | some next => if next = object then pure (some prev) else findPrev pc object rounds next

/-- Takes a span out of the list of its size; `found` says whether it was on
it. The access makes an entry for the size where there is none. -/
def unlink (pc : PageCache) (object : Nat) : Except Fault (PageCache × Bool) := do
  let span ← pc.deref (some object)
  match pc.head span.numPages with
  | none => pure (pc.setHead span.numPages none, false)
  | some head =>
    if head = object then pure (pc.setHead span.numPages span.next, true)
    else
      match ← pc.findPrev object pc.objects.length head with
      | none => pure (pc, false)
      | some prev =>
        let prevSpan ← pc.deref (some prev)
        pure (pc.setSpan prev (some { prevSpan with next := span.next }), true)

/-- The span behind `object` becomes part of it. -/
def absorb (pc : PageCache) (object next : Nat) (nextAddr : Addr) : Except Fault PageCache := do
  let span ← pc.deref (some object)
  let nextSpan ← pc.deref (some next)
  let pc := pc.setSpan object
    (some { span with numPages := (span.numPages + nextSpan.numPages) % 2 ^ 64 })
  pure { pc.setSpan next none with spanMap := update pc.spanMap nextAddr none }

/-- A free span that follows, by its address, is merged. -/
def coalesce (pc : PageCache) (object : Nat) (nextAddr : Addr) : Except Fault PageCache :=
  match pc.spanMap nextAddr with
  | none => .ok pc
  | some next => do
    let (pc, found) ← pc.unlink next
    if found then pc.absorb object next nextAddr else pure pc

def insert (pc : PageCache) (object : Nat) : Except Fault PageCache := do
  let span ← pc.deref (some object)
  pure ((pc.setSpan object (some { span with next := pc.head span.numPages })).setHead
    span.numPages (some object))

def deallocateSpan (pc : PageCache) (ptr : Addr) (numPages : Nat) : Except Fault PageCache :=
  match pc.spanMap ptr with
  | none => .ok pc
  | some object => do
    let pc ← pc.coalesce object ((ptr + spanSize numPages) % 2 ^ 64)
    pc.insert object

end PageCache

end MudouHttp
