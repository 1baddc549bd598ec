import MudouHttp.Pool.Frames
import MudouHttp.Reactor.BlockOwners

/-!
# The buffers and the pool their memory is from

The threads that work on buffers call `MemoryPool::allocate` and `deallocate` for
their blocks. What the pool asks of its callers, the buffers do in every run: they give
back what they were given, once, with no larger size, and so each block has its bytes to
itself (`memory_served`).
-/

namespace MudouHttp

open Function (update update_self update_of_ne)
open PoolBlock (pointers)

variable {T : Type} [DecidableEq T]

-- ---------------------------------------------------------------------------
-- What a step of the pool does to what its callers hold
-- ---------------------------------------------------------------------------

def Phase.wants : Phase → Option Nat
  | .fetched _ _ _ _ size => some size
  | .idle | .returning .. => none

theorem ThreadCache.split_wants (tc : ThreadCache) (mem : Memory) (start : Addr) (size : Nat) :
    (tc.split mem start size).2.2.wants = none := by
  unfold ThreadCache.split
  dsimp only
  split
  · rfl
  · split
    · rfl
    · dsimp only
      split <;> rfl

namespace MemoryPool

variable {s s' : MemoryPool T} {t : T} {live : List Extent}

/-- What `allocate` returns, in its one step or after `store`. -/
def given (s s' : MemoryPool T) : List Extent := s'.live.take (s'.live.length - s.live.length)

omit [DecidableEq T] in
theorem given_of_live (h : s'.live = live ++ s.live) : s.given s' = live := by
  simp [given, h]

theorem allocate_cases (hs : s.step (.allocate t size memory) = .ok s') :
    s.phase t = .idle ∧
      ((s'.phase = s.phase ∧ ∃ live, s'.live = live ++ s.live ∧ live.length ≤ 1 ∧ ∀ e ∈ live, e.size = size) ∨
        s'.live = s.live ∧ ∃ phase, s'.phase = update s.phase t phase ∧ phase.wants = some size) := by
  cases hphase : s.phase t with
  | fetched | returning => simp only [step, hphase, reduceCtorEq] at hs
  | idle =>
    refine ⟨rfl, ?_⟩
    obtain ⟨s₁, hstep⟩ : ∃ s₁, s.allocateStep t size memory = .ok s₁ := by
      cases h : s.allocateStep t size memory with
      | ok s₁ => exact ⟨s₁, rfl⟩
      | error f => simp only [step, hphase, h, reduceCtorEq] at hs
    simp only [step, hphase, hstep, Except.ok.injEq] at hs
    subst hs
    unfold allocateStep at hstep
    split at hstep
    · cases hstep
      left
      cases memory with
      | none => exact ⟨rfl, [], rfl, by simp, by simp⟩
      | some start => exact ⟨rfl, [⟨start, size⟩], rfl, by simp, by simp⟩
    · dsimp only at hstep
      split at hstep
      · cases hstep
        exact .inl ⟨rfl, [⟨_, size⟩], rfl, by simp, by simp⟩
      · obtain ⟨⟨central, start, realIncrease⟩, -, hstep⟩ := bind_ok hstep
        dsimp only at hstep
        by_cases hstart : start = 0
        · rw [if_pos hstart] at hstep
          cases hstep
          exact .inl ⟨rfl, [], rfl, by simp, by simp⟩
        · rw [if_neg hstart] at hstep
          cases hstep
          exact .inr ⟨rfl, _, rfl, rfl⟩

theorem store_cases (hs : s.step (.store t) = .ok s') :
    ∃ size start, (s.phase t).wants = some size ∧ s'.live = ⟨start, size⟩ :: s.live ∧
      s'.phase = update s.phase t .idle := by
  cases hphase : s.phase t with
  | idle | returning => simp only [step, hphase, reduceCtorEq] at hs
  | fetched index batchNum realIncrease start size =>
    simp only [step, hphase, Except.ok.injEq] at hs
    subst hs
    exact ⟨size, start, rfl, rfl, rfl⟩

theorem deallocate_cases (hs : s.step (.deallocate t ptr size) = .ok s') :
    s.phase t = .idle ∧ s'.live = s.released ptr ∧
      ∃ phase, s'.phase = update s.phase t phase ∧ phase.wants = none := by
  cases hphase : s.phase t with
  | fetched | returning => simp only [step, hphase, reduceCtorEq] at hs
  | idle =>
    simp only [step, hphase, Except.ok.injEq] at hs
    subst hs
    refine ⟨rfl, deallocate_live s t ptr size, ?_⟩
    unfold deallocateStep
    split
    · exact ⟨.idle, by rw [← hphase, Function.update_eq_self], rfl⟩
    · dsimp only
      split
      · exact ⟨_, rfl, ThreadCache.split_wants ..⟩
      · exact ⟨.idle, rfl, rfl⟩

theorem returnRange_cases (hs : s.step (.returnRange t) = .ok s') :
    (s.phase t).wants = none ∧ s'.live = s.live ∧ s'.phase = update s.phase t .idle := by
  cases hphase : s.phase t with
  | idle | fetched => simp only [step, hphase, reduceCtorEq] at hs
  | returning =>
    simp only [step, hphase, Except.ok.injEq] at hs
    subst hs
    exact ⟨rfl, rfl, rfl⟩

end MemoryPool

-- ---------------------------------------------------------------------------
-- The buffers as callers of the pool
-- ---------------------------------------------------------------------------

/-- The buffers and the pool. A thread can be stopped anywhere in an operation on its
buffer while others go on, so that the calls an operation makes are steps of their own. -/
structure PoolCallers (T : Type) where
  heap : BufferHeap
  pool : MemoryPool T
  /-- The requests `allocate` has been called for. -/
  begun : List Nat
  /-- The one that a thread has called it for and that has not returned yet. -/
  calling : T → Option Nat
  /-- What it has returned. -/
  answers : List (Nat × Extent)
  /-- Which of the blocks destroyed have called `deallocate`. -/
  returned : List Nat

inductive CallerEvent (T : Type)
  | buffer (e : BufferEvent)
  | allocate (t : T) (request : Nat) (memory : Option Addr)
  | store (t : T)
  | deallocate (t : T) (k : Nat)
  | returnRange (t : T)
  | write (request : Nat) (mem : Memory)

namespace PoolCallers

def new : PoolCallers T :=
  { heap := .new, pool := .new, begun := [], calling := fun _ => none, answers := [], returned := [] }

def answered (s : PoolCallers T) (request : Nat) (pool : MemoryPool T) : List (Nat × Extent) :=
  (s.pool.given pool).map (request, ·) ++ s.answers

/-- Who is in a call after it: this thread, while what it has is not stored. -/
def callingAfter (s : PoolCallers T) (t : T) (request : Nat) (pool : MemoryPool T) : T → Option Nat :=
  update s.calling t ((pool.phase t).wants.map fun _ => request)

def step (grants : Nat → Bool) (s : PoolCallers T) :
    CallerEvent T → Except PoolStop (PoolCallers T)
  | .buffer e =>
    match s.heap.step grants e with
    | .ok heap => .ok { s with heap := heap }
    | .error f => .error (.fault f)
  | .allocate t request memory =>
    match s.heap.log.requests[request]? with
    | none => .error .elsewhere
    | some size => do
      let pool ← s.pool.step (.allocate t size memory)
      pure { s with
        pool := pool
        begun := request :: s.begun
        calling := s.callingAfter t request pool
        answers := s.answered request pool }
  | .store t =>
    match s.calling t with
    | none => .error .elsewhere
    | some request => do
      let pool ← s.pool.step (.store t)
      pure { s with
        pool := pool
        calling := update s.calling t none
        answers := s.answered request pool }
  | .deallocate t k =>
    match s.heap.log.released[k]? with
    | none => .error .elsewhere
    | some (request, size) =>
      match s.answers.lookup request with
      | none => .error .elsewhere
      | some e => do
        let pool ← s.pool.step (.deallocate t e.start size)
        pure { s with pool := pool, returned := k :: s.returned }
  | .returnRange t => do
    let pool ← s.pool.step (.returnRange t)
    pure { s with pool := pool }
  | .write request mem =>
    match s.answers.lookup request with
    | none => .error .elsewhere
    | some e => do
      let pool ← s.pool.step (.write e mem)
      pure { s with pool := pool }

def InBuffer (s : PoolCallers T) (request : Nat) : Prop :=
  ∃ i b, s.heap.buffers i = some b ∧ request ∈ pointers b.blocks

def Returns (s : PoolCallers T) (t : T) (pool : MemoryPool T) : Prop :=
  (pool.phase t).wants ≠ none ∨ s.pool.given pool ≠ []

/-- What is known of the code around the buffers, of `mmap` and of `malloc`: a block calls
`allocate` once as it is made and `deallocate` once as it is destroyed, new regions are
apart from the others, and a block is written to while a buffer has it and, as
`Block.write` checks, inside of it. -/
def Admits (grants : Nat → Bool) (s : PoolCallers T) : CallerEvent T → Prop
  | .buffer e => s.heap.Admits e
  | .allocate t request memory => request ∉ s.begun ∧
      ∀ size, s.heap.log.requests[request]? = some size →
        s.pool.Admits (.allocate t size memory) ∧
        ∀ pool, s.pool.step (.allocate t size memory) = .ok pool →
          (s.Returns t pool ↔ grants request = true)
  | .deallocate _ k => k ∉ s.returned
  | .write request mem => s.InBuffer request ∧ ∀ e, s.answers.lookup request = some e →
      SameOutside e.region s.pool.central.mem mem
  | .store _ | .returnRange _ => True

-- ---------------------------------------------------------------------------
-- What the callers hold is what the pool has given
-- ---------------------------------------------------------------------------

def gone (s : PoolCallers T) : List Nat :=
  s.returned.filterMap fun k => (s.heap.log.released[k]?).map Prod.fst

def served (s : PoolCallers T) : List (Nat × Extent) :=
  s.answers.filter fun p => p.1 ∉ s.gone

structure Serves (grants : Nat → Bool) (s : PoolCallers T) : Prop where
  heap : s.heap.Accounts grants
  pool : Lib.Reach MemoryPool.step MemoryPool.Admits MemoryPool.new s.pool
  live : s.served.map Prod.snd = s.pool.live
  keys : (s.answers.map Prod.fst).Nodup
  sizes : ∀ request e, (request, e) ∈ s.answers → s.heap.log.requests[request]? = some e.size
  begun : ∀ request ∈ s.begun, request < s.heap.log.requests.length
  answered : ∀ request ∈ s.answers.map Prod.fst, request ∈ s.begun
  wants : ∀ t, (s.pool.phase t).wants = (s.calling t).bind fun request => s.heap.log.requests[request]?
  called : ∀ t request, s.calling t = some request →
    request ∈ s.begun ∧ request ∉ s.answers.map Prod.fst ∧ ∀ t', s.calling t' = some request → t' = t
  held : ∀ request ∈ s.begun, grants request = true →
    (∃ t, s.calling t = some request) ∨ request ∈ s.answers.map Prod.fst
  returned : ∀ k ∈ s.returned, k < s.heap.log.released.length
  gone : ∀ request ∈ s.gone, request ∈ s.answers.map Prod.fst

variable {grants : Nat → Bool} {s s' : PoolCallers T} {t : T} {pool : MemoryPool T}

theorem new_serves : (new : PoolCallers T).Serves grants where
  heap := BufferHeap.new_accounts
  pool := .start
  live := rfl
  keys := List.nodup_nil
  sizes := fun _ _ h => by cases h
  begun := fun _ h => by cases h
  answered := fun _ h => by cases h
  wants := fun _ => rfl
  called := fun _ _ h => by cases h
  held := fun _ h => by cases h
  returned := fun _ h => by cases h
  gone := fun _ h => by cases h

omit [DecidableEq T] in
theorem mem_gone : request ∈ s.gone ↔
    ∃ k ∈ s.returned, ∃ size, s.heap.log.released[k]? = some (request, size) := by
  simp [gone, Option.map_eq_some_iff]

theorem Serves.not_gone (h : s.Serves grants) (hin : s.InBuffer request) : request ∉ s.gone := by
  intro hgone
  obtain ⟨k, -, size, hk⟩ := mem_gone.mp hgone
  obtain ⟨i, b, hb, hptr⟩ := hin
  have hback : request ∈ s.heap.holders none :=
    List.mem_map_of_mem (List.mem_of_getElem? hk)
  have hheld : request ∈ s.heap.holders (some i) := by
    rw [BufferHeap.holders, hb]
    exact hptr
  cases h.heap.apart.once none (some i) request hback hheld

theorem Serves.live_of (h : s.Serves grants) (he : (request, e) ∈ s.answers)
    (hgone : request ∉ s.gone) : e ∈ s.pool.live := by
  rw [← h.live]
  exact List.mem_map_of_mem (List.mem_filter.mpr ⟨he, decide_eq_true hgone⟩)

theorem Serves.not_calling (h : s.Serves grants) (hw : (s.pool.phase t).wants = none) :
    s.calling t = none := by
  cases hc : s.calling t with
  | none => rfl
  | some request =>
    have hwants := h.wants t
    rw [hw, hc, Option.bind_some] at hwants
    have hlt := h.begun request (h.called t request hc).1
    rw [List.getElem?_eq_getElem hlt] at hwants
    cases hwants

theorem mem_of_lookup {l : List (Nat × Extent)} (h : l.lookup request = some e) : (request, e) ∈ l := by
  obtain ⟨l₁, l₂, rfl, -⟩ := List.lookup_eq_some_iff.mp h
  simp

-- ---------------------------------------------------------------------------
-- The steps
-- ---------------------------------------------------------------------------

theorem Serves.buffer {heap : BufferHeap} (h : s.Serves grants) (ha : s.heap.Admits e)
    (hs : s.heap.step grants e = .ok heap) : Serves grants { s with heap := heap } := by
  obtain ⟨hreq, hrel⟩ := BufferHeap.step_log h.heap ha hs
  have hgone : ({ s with heap := heap } : PoolCallers T).gone = s.gone := by
    refine List.filterMap_congr fun k hk => ?_
    obtain ⟨more, hmore⟩ := hrel
    dsimp only
    rw [← hmore, List.getElem?_append_left (h.returned k hk)]
  have hlive : ({ s with heap := heap } : PoolCallers T).served = s.served := by
    rw [served, hgone]
    rfl
  refine ⟨h.heap.step ha hs, h.pool, ?_, h.keys, fun request e he => ?_, fun request hr => ?_, h.answered,
    fun t => ?_, h.called, h.held, fun k hk => ?_, ?_⟩
  · rw [hlive]
    exact h.live
  · exact PooledBuffer.getElem_grown hreq (h.sizes request e he)
  · exact Nat.lt_of_lt_of_le (h.begun request hr) hreq.length_le
  · rw [h.wants t]
    cases hc : s.calling t with
    | none => rfl
    | some request =>
      have hlt := h.begun request (h.called t request hc).1
      obtain ⟨more, hmore⟩ := hreq
      dsimp only [Option.bind_some]
      rw [← hmore, List.getElem?_append_left hlt]
  · exact Nat.lt_of_lt_of_le (h.returned k hk) hrel.length_le
  · rw [hgone]
    exact h.gone

structure Call (s : PoolCallers T) (t : T) (request : Nat) (pool : MemoryPool T) (more : List Extent) :
    Prop where
  reach : Lib.Reach MemoryPool.step MemoryPool.Admits MemoryPool.new pool
  asked : request < s.heap.log.requests.length
  unanswered : request ∉ s.answers.map Prod.fst
  live : pool.live = more ++ s.pool.live
  one : more.length ≤ 1
  sizes : ∀ e ∈ more, s.heap.log.requests[request]? = some e.size
  wants : (pool.phase t).wants = none ∨
    (pool.phase t).wants = s.heap.log.requests[request]? ∧ more = []
  others : ∀ t', t' ≠ t → pool.phase t' = s.pool.phase t'
  calls : ∀ t', s.calling t' = some request → t' = t
  called : ∀ r, s.calling t = some r → r = request

section Call

variable {more : List Extent} (c : s.Call t request pool more)

include c

theorem Call.answered_eq : s.answered request pool = more.map (request, ·) ++ s.answers := by
  rw [answered, MemoryPool.given_of_live c.live]

theorem Call.mem_answered : r ∈ (s.answered request pool).map Prod.fst ↔
    (r = request ∧ more ≠ []) ∨ r ∈ s.answers.map Prod.fst := by
  rw [c.answered_eq, List.map_append, List.mem_append, List.map_map]
  refine or_congr_left ?_
  cases more <;> simp [eq_comm]

theorem Call.served (h : s.Serves grants) :
    ((s.answered request pool).filter fun p => p.1 ∉ s.gone).map Prod.snd = pool.live := by
  have hkeep : (more.map (request, ·)).filter (fun p => p.1 ∉ s.gone) = more.map (request, ·) := by
    refine List.filter_eq_self.mpr fun p hp => ?_
    obtain ⟨e, -, rfl⟩ := List.mem_map.mp hp
    exact decide_eq_true fun hgone => c.unanswered (h.gone request hgone)
  rw [c.answered_eq, List.filter_append, hkeep, List.map_append, List.map_map, c.live, ← h.live]
  exact congrArg (· ++ _) (List.map_id more)

theorem Call.keys (h : s.Serves grants) : ((s.answered request pool).map Prod.fst).Nodup := by
  rw [c.answered_eq]
  match more, c.one with
  | [], _ => exact h.keys
  | [e], _ => exact List.nodup_cons.mpr ⟨c.unanswered, h.keys⟩

theorem Call.answer_size (h : s.Serves grants) (he : (r, e) ∈ s.answered request pool) :
    s.heap.log.requests[r]? = some e.size := by
  rw [c.answered_eq] at he
  rcases List.mem_append.mp he with he | he
  · obtain ⟨e', he', heq⟩ := List.mem_map.mp he
    cases heq
    exact c.sizes e he'
  · exact h.sizes r e he

theorem Call.wants_eq (h : s.Serves grants) (t' : T) : (pool.phase t').wants =
    (s.callingAfter t request pool t').bind fun r => s.heap.log.requests[r]? := by
  rw [callingAfter]
  by_cases ht : t' = t
  · subst ht
    rw [update_self]
    rcases c.wants with hwants | ⟨hwants, -⟩
    · rw [hwants]
      rfl
    · rw [hwants, List.getElem?_eq_getElem c.asked]
      exact (List.getElem?_eq_getElem c.asked).symm
  · rw [update_of_ne ht, c.others t' ht]
    exact h.wants t'

/-- A request is called for by one thread, and has no answer yet. -/
theorem Call.only (h : s.Serves grants) (hr : s.callingAfter t request pool t' = some r) :
    (r = request ∨ r ∈ s.begun) ∧ r ∉ (s.answered request pool).map Prod.fst ∧
      ∀ t₂, s.callingAfter t request pool t₂ = some r → t₂ = t' := by
  rw [callingAfter] at hr ⊢
  by_cases ht : t' = t
  · subst ht
    rw [update_self] at hr
    obtain ⟨size, hsize, rfl⟩ := Option.map_eq_some_iff.mp hr
    have hnone : more = [] := by
      rcases c.wants with hwants | ⟨-, hnone⟩
      · rw [hwants] at hsize
        cases hsize
      · exact hnone
    refine ⟨.inl rfl, ?_, fun t₂ ht₂ => ?_⟩
    · rw [c.mem_answered]
      rintro (⟨-, hne⟩ | hmem)
      · exact hne hnone
      · exact c.unanswered hmem
    · by_contra hne
      rw [update_of_ne hne] at ht₂
      exact hne (c.calls t₂ ht₂)
  · rw [update_of_ne ht] at hr
    obtain ⟨hbegun, hno, honly⟩ := h.called t' r hr
    have hne : r ≠ request := by
      rintro rfl
      exact ht (c.calls t' hr)
    refine ⟨.inr hbegun, ?_, fun t₂ ht₂ => ?_⟩
    · rw [c.mem_answered]
      rintro (⟨heq, -⟩ | hmem)
      · exact hne heq
      · exact hno hmem
    · by_cases heq : t₂ = t
      · subst heq
        rw [update_self] at ht₂
        obtain ⟨-, -, heq⟩ := Option.map_eq_some_iff.mp ht₂
        exact absurd heq.symm hne
      · rw [update_of_ne heq] at ht₂
        exact honly t₂ ht₂

theorem Call.held (h : s.Serves grants)
    (hreturns : grants request = true → (pool.phase t).wants ≠ none ∨ more ≠ [])
    (hr : r = request ∨ r ∈ s.begun) (hgrants : grants r = true) :
    (∃ t', s.callingAfter t request pool t' = some r) ∨ r ∈ (s.answered request pool).map Prod.fst := by
  rw [c.mem_answered]
  by_cases heq : r = request
  · subst heq
    rcases hreturns hgrants with hwaits | hgiven
    · left
      refine ⟨t, ?_⟩
      obtain ⟨size, hsize⟩ := Option.ne_none_iff_exists'.mp hwaits
      rw [callingAfter, update_self, hsize]
      rfl
    · exact .inr (.inl ⟨rfl, hgiven⟩)
  · rcases h.held r (hr.resolve_left heq) hgrants with ⟨t', ht'⟩ | hmem
    · left
      refine ⟨t', ?_⟩
      rw [callingAfter, update_of_ne]
      · exact ht'
      · rintro rfl
        exact heq (c.called r ht')
    · exact .inr (.inr hmem)

theorem Call.serves (h : s.Serves grants) (begun : List Nat)
    (hbegun : ∀ r, r ∈ begun ↔ r = request ∨ r ∈ s.begun)
    (hreturns : grants request = true → (pool.phase t).wants ≠ none ∨ more ≠ []) :
    Serves grants { s with
      pool := pool
      begun := begun
      calling := s.callingAfter t request pool
      answers := s.answered request pool } where
  heap := h.heap
  pool := c.reach
  live := c.served h
  keys := c.keys h
  sizes := fun _ _ he => c.answer_size h he
  begun := fun r hr => by
    rcases (hbegun r).mp hr with rfl | hr
    · exact c.asked
    · exact h.begun r hr
  answered := fun r hr => by
    rcases c.mem_answered.mp hr with ⟨rfl, -⟩ | hr
    · exact (hbegun r).mpr (.inl rfl)
    · exact (hbegun r).mpr (.inr (h.answered r hr))
  wants := c.wants_eq h
  called := fun t' r hr => by
    obtain ⟨hbegun', hrest⟩ := c.only h hr
    exact ⟨(hbegun r).mpr hbegun', hrest⟩
  held := fun r hr hgrants => c.held h hreturns ((hbegun r).mp hr) hgrants
  returned := h.returned
  gone := fun r hr => c.mem_answered.mpr (.inr (h.gone r hr))

end Call

theorem Serves.allocate (h : s.Serves grants) (ha : s.Admits grants (.allocate t request memory))
    (hs : s.step grants (.allocate t request memory) = .ok s') : s'.Serves grants := by
  obtain ⟨hfresh, ha⟩ := ha
  cases hsize : s.heap.log.requests[request]? with
  | none => simp only [step, hsize, reduceCtorEq] at hs
  | some size =>
    simp only [step, hsize] at hs
    obtain ⟨pool, hpool, hs⟩ := bind_ok hs
    cases hs
    obtain ⟨hadmits, hreturns⟩ := ha size hsize
    replace hreturns := (hreturns pool hpool).mpr
    obtain ⟨hidle, hcases⟩ := MemoryPool.allocate_cases hpool
    have hnone := h.not_calling (t := t) (by rw [hidle]; rfl)
    have hcall : ∃ more, s.Call t request pool more := by
      have hcall : ∀ more, pool.live = more ++ s.pool.live → more.length ≤ 1 → (∀ e ∈ more, e.size = size) →
          ((pool.phase t).wants = none ∨ (pool.phase t).wants = some size ∧ more = []) →
          (∀ t', t' ≠ t → pool.phase t' = s.pool.phase t') → s.Call t request pool more := by
        intro more hlive hone hsizes hwants hothers
        exact
          { reach := h.pool.next hadmits hpool
            asked := (List.getElem?_eq_some_iff.mp hsize).1
            unanswered := fun hmem => hfresh (h.answered request hmem)
            live := hlive
            one := hone
            sizes := fun e he => by rw [hsizes e he, hsize]
            wants := by rwa [hsize]
            others := hothers
            calls := fun t' ht' => absurd (h.called t' request ht').1 hfresh
            called := fun r hr => by
              rw [hnone] at hr
              cases hr }
      rcases hcases with ⟨hphase, more, hlive, hone, hsizes⟩ | ⟨hlive, phase, hphase, hwants⟩
      · refine ⟨more, hcall more hlive hone hsizes (.inl ?_) fun t' _ => by rw [hphase]⟩
        rw [hphase, hidle]
        rfl
      · refine ⟨[], hcall [] hlive (by simp) (by simp) (.inr ⟨?_, rfl⟩) fun t' ht => ?_⟩
        · rw [hphase, update_self]
          exact hwants
        · rw [hphase, update_of_ne ht]
    obtain ⟨more, hcall⟩ := hcall
    rw [Returns, MemoryPool.given_of_live hcall.live] at hreturns
    exact hcall.serves h (request :: s.begun) (fun r => List.mem_cons) hreturns

theorem Serves.store (h : s.Serves grants) (hs : s.step grants (.store t) = .ok s') :
    s'.Serves grants := by
  cases hcalling : s.calling t with
  | none => simp only [step, hcalling, reduceCtorEq] at hs
  | some request =>
    simp only [step, hcalling] at hs
    obtain ⟨pool, hpool, hs⟩ := bind_ok hs
    cases hs
    obtain ⟨size, start, hwants, hlive, hphase⟩ := MemoryPool.store_cases hpool
    obtain ⟨hbegun, hno, honly⟩ := h.called t request hcalling
    have hsize : s.heap.log.requests[request]? = some size := by
      rw [← hwants, h.wants t, hcalling, Option.bind_some]
    have hadmits : s.pool.Admits (.store t) := trivial
    have hdone : (pool.phase t).wants = none := by
      rw [hphase, update_self]
      rfl
    have hcall : s.Call t request pool [⟨start, size⟩] :=
      { reach := h.pool.next hadmits hpool
        asked := (List.getElem?_eq_some_iff.mp hsize).1
        unanswered := hno
        live := hlive
        one := Nat.le_refl 1
        sizes := by simp [hsize]
        wants := .inl hdone
        others := fun t' ht => by rw [hphase, update_of_ne ht]
        calls := honly
        called := fun r hr => Option.some.inj (hr.symm.trans hcalling) }
    have hkeep := hcall.serves h s.begun
      (fun r => ⟨.inr, fun hr => hr.elim (fun heq => heq ▸ hbegun) id⟩)
      fun _ => .inr (List.cons_ne_nil _ _)
    rwa [callingAfter, hdone] at hkeep

theorem Serves.steps_aside (h : s.Serves grants)
    (hreach : Lib.Reach MemoryPool.step MemoryPool.Admits MemoryPool.new pool)
    (hlive : pool.live = s.pool.live) (hwants : ∀ t, (pool.phase t).wants = (s.pool.phase t).wants) :
    Serves grants { s with pool := pool } :=
  { h with
    pool := hreach
    live := h.live.trans hlive.symm
    wants := fun t => (hwants t).trans (h.wants t) }

theorem Serves.returnRange (h : s.Serves grants) (hs : s.step grants (.returnRange t) = .ok s') :
    s'.Serves grants := by
  obtain ⟨pool, hpool, hs⟩ := bind_ok hs
  cases hs
  obtain ⟨hwants, hlive, hphase⟩ := MemoryPool.returnRange_cases hpool
  have hadmits : s.pool.Admits (.returnRange t) := trivial
  refine h.steps_aside (h.pool.next hadmits hpool) hlive fun t' => ?_
  by_cases ht : t' = t
  · subst ht
    rw [hphase, update_self, hwants]
    rfl
  · rw [hphase, update_of_ne ht]

theorem Serves.write (h : s.Serves grants) (ha : s.Admits grants (.write request mem))
    (hs : s.step grants (.write request mem) = .ok s') : s'.Serves grants := by
  obtain ⟨hin, hinside⟩ := ha
  cases he : s.answers.lookup request with
  | none => simp only [step, he, reduceCtorEq] at hs
  | some e =>
    simp only [step, he] at hs
    obtain ⟨pool, hpool, hs⟩ := bind_ok hs
    cases hs
    have hadmits : s.pool.Admits (.write e mem) :=
      ⟨h.live_of (mem_of_lookup he) (h.not_gone hin), hinside e he⟩
    refine h.steps_aside (h.pool.next hadmits hpool) ?_ fun t => ?_
    · cases hpool
      rfl
    · cases hpool
      rfl

/-- Two blocks that are served do not start at one address. -/
theorem Serves.apart (h : s.Serves grants) (hp : p ∈ s.served) (hq : q ∈ s.served) (hne : p ≠ q) :
    p.2.region.Apart q.2.region := by
  obtain ⟨lists, hinv⟩ := MemoryPool.inv_of_reach h.pool
  have hapart := hinv.safe.apart
  rw [← h.live, List.pairwise_map] at hapart
  have : Std.Symm fun p q : Nat × Extent => p.2.region.Apart q.2.region := ⟨fun _ _ hab => hab.symm⟩
  exact hapart.forall hp hq hne

theorem Serves.start_ne (h : s.Serves grants) (hp : p ∈ s.served) (hq : q ∈ s.served) (hne : p ≠ q) :
    p.2.start ≠ q.2.start := by
  intro heq
  have hapart := h.apart hp hq hne
  simp only [Extent.Apart, Extent.region, Extent.stop, heq, alignment] at hapart
  omega

/-- Memory is destroyed once, and each of these calls `deallocate` once. -/
theorem Serves.gives_back (h : s.Serves grants) (hk : s.heap.log.released[k]? = some (request, size))
    (hnew : k ∉ s.returned) (he : (request, e) ∈ s.answers) :
    request ∉ s.gone ∧ s.pool.Admits (.deallocate t e.start size) := by
  have hgone : request ∉ s.gone := by
    intro hg
    obtain ⟨k', hk', size', hback⟩ := mem_gone.mp hg
    have hsame : (s.heap.log.released.map Prod.fst)[k]? = (s.heap.log.released.map Prod.fst)[k']? := by
      rw [List.getElem?_map, List.getElem?_map, hk, hback]
      rfl
    have hlt : k < (s.heap.log.released.map Prod.fst).length := by
      rw [List.length_map]
      exact (List.getElem?_eq_some_iff.mp hk).1
    exact hnew ((List.getElem?_inj hlt (h.heap.apart.nodup none)).mp hsame ▸ hk')
  obtain ⟨cap, hcap, hle⟩ := h.heap.sizes request size (List.mem_of_getElem? hk)
  obtain rfl : e.size = cap := Option.some.inj ((h.sizes request e he).symm.trans hcap)
  exact ⟨hgone, e, h.live_of he hgone, rfl, hle⟩

theorem Serves.deallocate (h : s.Serves grants) (ha : s.Admits grants (.deallocate t k))
    (hs : s.step grants (.deallocate t k) = .ok s') : s'.Serves grants := by
  cases hk : s.heap.log.released[k]? with
  | none => simp only [step, hk, reduceCtorEq] at hs
  | some back =>
    obtain ⟨request, size⟩ := back
    cases he : s.answers.lookup request with
    | none => simp only [step, hk, he, reduceCtorEq] at hs
    | some e =>
      simp only [step, hk, he] at hs
      obtain ⟨pool, hpool, hs⟩ := bind_ok hs
      cases hs
      have hmem := mem_of_lookup he
      obtain ⟨hgone, hadmits⟩ := h.gives_back (t := t) hk ha hmem
      obtain ⟨hidle, hleft, phase, hphase, hwants⟩ := MemoryPool.deallocate_cases hpool
      have hgone' : ∀ r, r ∈ ({ s with pool := pool, returned := k :: s.returned } : PoolCallers T).gone ↔
          r = request ∨ r ∈ s.gone := by
        intro r
        rw [PoolCallers.gone, List.filterMap_cons, hk]
        exact List.mem_cons
      refine ⟨h.heap, h.pool.next hadmits hpool, ?_, h.keys, h.sizes, h.begun, h.answered, fun t' => ?_,
        h.called, h.held, fun k' hk' => ?_, fun r hr => ?_⟩
      · -- the block that starts there is the request's
        have hsame : ∀ p ∈ s.answers,
          (p.1 ∉ s.gone ∧ p.1 ≠ request ↔ p.1 ∉ s.gone ∧ p.2.start ≠ e.start) := by
          intro p hp
          refine and_congr_right fun hpgone => not_congr ⟨fun heq => ?_, fun heq => ?_⟩
          · exact congrArg (fun p => p.2.start) (List.inj_on_of_nodup_map h.keys hp hmem heq)
          · by_contra hne
            refine h.start_ne (List.mem_filter.mpr ⟨hp, decide_eq_true hpgone⟩)
              (List.mem_filter.mpr ⟨hmem, decide_eq_true hgone⟩) ?_ heq
            rintro rfl
            exact hne rfl
        have hfilter : ({ s with pool := pool, returned := k :: s.returned } : PoolCallers T).served =
            s.served.filter fun p => p.2.start ≠ e.start := by
          rw [served, served, List.filter_filter]
          refine List.filter_congr fun p hp => ?_
          rw [← Bool.decide_and, decide_eq_decide, hgone', not_or, and_comm, hsame p hp, and_comm]
        rw [hfilter, hleft, MemoryPool.released, ← h.live, List.filter_map]
        rfl
      · dsimp only
        by_cases ht : t' = t
        · subst ht
          rw [hphase, update_self, hwants, ← h.wants t', hidle]
          rfl
        · rw [hphase, update_of_ne ht]
          exact h.wants t'
      · rcases List.mem_cons.mp hk' with rfl | hk'
        · exact (List.getElem?_eq_some_iff.mp hk).1
        · exact h.returned k' hk'
      · rcases (hgone' r).mp hr with rfl | hr
        · exact List.mem_map_of_mem hmem
        · exact h.gone r hr

theorem Serves.step (h : s.Serves grants) (ha : s.Admits grants e) (hs : s.step grants e = .ok s') :
    s'.Serves grants := by
  cases e with
  | buffer e =>
    cases hheap : s.heap.step grants e with
    | error f => simp only [PoolCallers.step, hheap, reduceCtorEq] at hs
    | ok heap =>
      simp only [PoolCallers.step, hheap, Except.ok.injEq] at hs
      exact hs ▸ h.buffer ha hheap
  | allocate t request memory => exact h.allocate ha hs
  | store t => exact h.store hs
  | deallocate t k => exact h.deallocate ha hs
  | returnRange t => exact h.returnRange hs
  | write request mem => exact h.write ha hs

theorem serves_of_reach (h : Lib.Reach (step grants) (Admits grants) new s) : s.Serves grants :=
  h.invariant (fun _ _ _ h ha hs => h.step ha hs) new_serves

-- ---------------------------------------------------------------------------
-- The bytes of a block
-- ---------------------------------------------------------------------------

theorem Serves.pool_step (h : s.Serves grants) (ha : s.Admits grants e) (hs : s.step grants e = .ok s') :
    s.answers ⊆ s'.answers ∧ (s'.pool = s.pool ∨ ∃ poolEvent, s.pool.Admits poolEvent ∧
      s.pool.step poolEvent = .ok s'.pool ∧ ∀ block mem, poolEvent = .write block mem →
        ∃ request, e = .write request mem ∧ (request, block) ∈ s.answers) := by
  cases e with
  | buffer e =>
    cases hheap : s.heap.step grants e with
    | error f => simp only [PoolCallers.step, hheap, reduceCtorEq] at hs
    | ok heap =>
      simp only [PoolCallers.step, hheap, Except.ok.injEq] at hs
      subst hs
      exact ⟨List.Subset.refl _, .inl rfl⟩
  | allocate t request memory =>
    cases hsize : s.heap.log.requests[request]? with
    | none => simp only [PoolCallers.step, hsize, reduceCtorEq] at hs
    | some size =>
      simp only [PoolCallers.step, hsize] at hs
      obtain ⟨pool, hpool, hs⟩ := bind_ok hs
      cases hs
      exact ⟨List.subset_append_right _ _, .inr ⟨_, (ha.2 size hsize).1, hpool, by simp⟩⟩
  | store t =>
    cases hcall : s.calling t with
    | none => simp only [PoolCallers.step, hcall, reduceCtorEq] at hs
    | some request =>
      simp only [PoolCallers.step, hcall] at hs
      obtain ⟨pool, hpool, hs⟩ := bind_ok hs
      cases hs
      exact ⟨List.subset_append_right _ _, .inr ⟨.store t, trivial, hpool, by simp⟩⟩
  | deallocate t k =>
    cases hk : s.heap.log.released[k]? with
    | none => simp only [PoolCallers.step, hk, reduceCtorEq] at hs
    | some back =>
      cases he : s.answers.lookup back.1 with
      | none => simp only [PoolCallers.step, hk, he, reduceCtorEq] at hs
      | some e =>
        simp only [PoolCallers.step, hk, he] at hs
        obtain ⟨pool, hpool, hs⟩ := bind_ok hs
        cases hs
        have hadmits := (h.gives_back (t := t) hk ha (mem_of_lookup he)).2
        exact ⟨List.Subset.refl _, .inr ⟨_, hadmits, hpool, by simp⟩⟩
  | returnRange t =>
    obtain ⟨pool, hpool, hs⟩ := bind_ok hs
    cases hs
    exact ⟨List.Subset.refl _, .inr ⟨.returnRange t, trivial, hpool, by simp⟩⟩
  | write request mem =>
    cases he : s.answers.lookup request with
    | none => simp only [PoolCallers.step, he, reduceCtorEq] at hs
    | some e =>
      simp only [PoolCallers.step, he] at hs
      obtain ⟨pool, hpool, hs⟩ := bind_ok hs
      cases hs
      have hmem := mem_of_lookup he
      refine ⟨List.Subset.refl _, .inr ⟨.write e mem, ⟨h.live_of hmem (h.not_gone ha.1), ha.2 e he⟩,
        hpool, ?_⟩⟩
      rintro _ _ ⟨⟩
      exact ⟨request, rfl, hmem⟩

theorem Serves.untouched (h : s.Serves grants) (ha : s.Admits grants e) (hs : s.step grants e = .ok s')
    (hin : s.InBuffer request) (hin' : s'.InBuffer request) (hx : (request, x) ∈ s.answers)
    (hwrite : ∀ mem, e ≠ .write request mem) :
    SameInside x.region s.pool.central.mem s'.pool.central.mem := by
  obtain ⟨hanswers, hsame | ⟨poolEvent, hadmits, hstep, hwrites⟩⟩ := h.pool_step ha hs
  · rw [hsame]
    exact .refl _ _
  · have hlive := h.live_of hx (h.not_gone hin)
    have hserves := h.step ha hs
    have hlive' := hserves.live_of (hanswers hx) (hserves.not_gone hin')
    obtain ⟨lists, hinv⟩ := MemoryPool.inv_of_reach h.pool
    refine MemoryPool.step_inside hinv hadmits hstep hlive hlive' fun mem hw => ?_
    obtain ⟨request', rfl, hx'⟩ := hwrites x mem hw
    have hne : request' ≠ request := by
      rintro rfl
      exact hwrite mem rfl
    refine h.start_ne (List.mem_filter.mpr ⟨hx', decide_eq_true (h.not_gone ha.1)⟩)
      (List.mem_filter.mpr ⟨hx, decide_eq_true (h.not_gone hin)⟩) ?_ rfl
    exact fun heq => hne (congrArg Prod.fst heq)

def Leaves (grants : Nat → Bool) (request : Nat) (s : PoolCallers T) (e : CallerEvent T) : Prop :=
  s.Admits grants e ∧ s.InBuffer request ∧ ∀ mem, e ≠ .write request mem

/-- What is written to a block stays in it. -/
theorem Serves.stays (h : s.Serves grants) (hx : (request, x) ∈ s.answers)
    (hreach : Lib.Reach (PoolCallers.step grants) (Leaves grants request) s s') (hin : s'.InBuffer request) :
    SameInside x.region s.pool.central.mem s'.pool.central.mem := by
  have hall : s'.Serves grants ∧ (request, x) ∈ s'.answers ∧ (s'.InBuffer request →
      SameInside x.region s.pool.central.mem s'.pool.central.mem) := by
    refine hreach.invariant (P := fun s' => s'.Serves grants ∧ (request, x) ∈ s'.answers ∧
      (s'.InBuffer request → SameInside x.region s.pool.central.mem s'.pool.central.mem))
      (fun s₁ e s₂ hs₁ hleaves hstep => ?_) ⟨h, hx, fun _ => .refl _ _⟩
    obtain ⟨hserves, hx₁, hsame⟩ := hs₁
    obtain ⟨ha, hin₁, hwrite⟩ := hleaves
    exact ⟨hserves.step ha hstep, (hserves.pool_step ha hstep).1 hx₁, fun hin₂ =>
      (hsame hin₁).trans (hserves.untouched ha hstep hin₁ hin₂ hx₁ hwrite)⟩
  exact hall.2.2 hin

/-- Whatever the threads do with their buffers, they do with the pool what it asks of its
callers. A block of a buffer whose call of `allocate` has returned has its bytes to itself,
as many as it counts on, and what is written to them stays while the buffer has it. -/
theorem memory_served (h : Lib.Reach (step grants) (Admits grants) new s) :
    Lib.Reach MemoryPool.step MemoryPool.Admits MemoryPool.new s.pool ∧
    (∀ i b blk request, s.heap.buffers i = some b → blk ∈ b.blocks → blk.memory = some request →
      request ∈ s.begun → (∃ t, s.calling t = some request) ∨
        ∃ e ∈ s.pool.live, (request, e) ∈ s.answers ∧ e.size = blk.block.capacity ∧ e.start ≠ 0 ∧
          ∃ r ∈ s.pool.regions, e.region.Within r) ∧
    (∀ request e request' e', s.InBuffer request → s.InBuffer request' → request ≠ request' →
      (request, e) ∈ s.answers → (request', e') ∈ s.answers → e.region.Apart e'.region) ∧
    ∀ request e s', (request, e) ∈ s.answers → s'.InBuffer request →
      Lib.Reach (step grants) (Leaves grants request) s s' →
      SameInside e.region s.pool.central.mem s'.pool.central.mem := by
  have hserves := serves_of_reach h
  obtain ⟨lists, hinv⟩ := MemoryPool.inv_of_reach hserves.pool
  refine ⟨hserves.pool, fun i b blk request hb hblk hmemory hbegun => ?_,
    fun request e request' e' hin hin' hne he he' => ?_,
    fun request e s' he hin hreach => hserves.stays he hreach hin⟩
  · have hptr : request ∈ pointers b.blocks := List.mem_filterMap.mpr ⟨blk, hblk, hmemory⟩
    have hheld : request ∈ s.heap.holders (some i) := by
      rw [BufferHeap.holders, hb]
      exact hptr
    have hgrants := ((hserves.heap.all request).mp ⟨some i, hheld⟩).2
    refine (hserves.held request hbegun hgrants).imp_right fun hmem => ?_
    obtain ⟨⟨request, e⟩, he, rfl⟩ := List.mem_map.mp hmem
    have hlive := hserves.live_of he (hserves.not_gone ⟨i, b, hb, hptr⟩)
    obtain ⟨hstart, hregion⟩ := hinv.safe.inside e hlive
    refine ⟨e, hlive, he, ?_, hstart, hregion⟩
    have hcapacity := (hserves.heap.kept i b hb).owned blk hblk request hmemory
    exact Option.some.inj ((hserves.sizes request e he).symm.trans hcapacity)
  · exact hserves.apart (List.mem_filter.mpr ⟨he, decide_eq_true (hserves.not_gone hin)⟩)
      (List.mem_filter.mpr ⟨he', decide_eq_true (hserves.not_gone hin')⟩)
      fun heq => hne (congrArg Prod.fst heq)

instance (s : PoolCallers T) (t : T) (pool : MemoryPool T) : Decidable (s.Returns t pool) :=
  inferInstanceAs (Decidable (_ ∨ _))

/-- What `Admits` says, but for writes. -/
def admitted (grants : Nat → Bool) (s : PoolCallers T) : CallerEvent T → Bool
  | .buffer e => s.heap.Admits e
  | .allocate t request memory => request ∉ s.begun &&
      match s.heap.log.requests[request]? with
      | none => true
      | some size => s.pool.admitted (.allocate t size memory) &&
          match s.pool.step (.allocate t size memory) with
          | .error _ => true
          | .ok pool => decide (s.Returns t pool) == grants request
  | .deallocate _ k => k ∉ s.returned
  | .write _ _ => false
  | .store _ | .returnRange _ => true

theorem admits_of_admitted (h : s.admitted grants e = true) : s.Admits grants e := by
  cases e with
  | buffer e => exact of_decide_eq_true (p := s.heap.Admits e) h
  | allocate t request memory =>
    obtain ⟨hfresh, hsome⟩ := Bool.and_eq_true_iff.mp h
    refine ⟨of_decide_eq_true hfresh, fun size hsize => ?_⟩
    rw [hsize] at hsome
    obtain ⟨hadmitted, hpool⟩ := Bool.and_eq_true_iff.mp hsome
    refine ⟨MemoryPool.admits_of_admitted hadmitted, fun pool hstep => ?_⟩
    rw [hstep] at hpool
    rw [← beq_iff_eq.mp hpool, decide_eq_true_iff]
  | deallocate t k => exact of_decide_eq_true (p := k ∉ s.returned) h
  | store | returnRange => trivial
  | write => cases h

/-- A buffer with one byte is destroyed, and another one stays. -/
theorem memory_served_example : ∃ s : PoolCallers Unit,
    Lib.Reach (step fun _ => true) (Admits fun _ => true) new s ∧ s.heap.log.released = [(0, 1)] ∧
    s.returned = [0] ∧ ∃ e ∈ s.pool.live, (1, e) ∈ s.answers ∧ e.size = 2048 := by
  have hrun : (Lib.checked (step fun _ => true) (admitted fun _ => true) (new : PoolCallers Unit)
      [.buffer (.construct 0), .allocate () 0 (some 65536), .store (), .buffer (.append 0 [65]),
        .buffer (.construct 1), .allocate () 1 none, .store (), .buffer (.destruct 0),
        .deallocate () 0]).map (fun s => decide (s.heap.log.released = [(0, 1)] ∧ s.returned = [0] ∧
          1 ∈ s.begun ∧ s.calling () = none ∧ (s.heap.buffers 1).map (fun b =>
            b.blocks.map fun blk => (blk.memory, blk.block.capacity)) = some [(some 1, 2048)])) =
      some true := by
    decide +kernel
  obtain ⟨s, hs, hstate⟩ := Option.map_eq_some_iff.mp hrun
  obtain ⟨hreleased, hreturned, hbegun, hcalling, hblocks⟩ := of_decide_eq_true hstate
  have hreach : Lib.Reach (step fun _ => true) (Admits fun _ => true) new s :=
    Lib.Reach.start.checked _ (fun s e he => admits_of_admitted he) hs
  obtain ⟨-, hheld, -, -⟩ := memory_served hreach
  obtain ⟨b, hb, hb'⟩ := Option.map_eq_some_iff.mp hblocks
  obtain ⟨blk, hblk, hmemory⟩ := List.map_eq_singleton_iff.mp hb'
  obtain ⟨hmemory, hcapacity⟩ := Prod.mk.inj hmemory
  refine ⟨s, hreach, hreleased, hreturned, ?_⟩
  rcases hheld 1 b blk 1 hb (by simp [hblk]) hmemory hbegun with ⟨t, ht⟩ | ⟨e, hlive, he, hsize, -⟩
  · rw [hcalling] at ht
    cases ht
  · exact ⟨e, hlive, he, hsize.trans hcapacity⟩

end PoolCallers

end MudouHttp
