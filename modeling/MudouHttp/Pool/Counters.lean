import MudouHttp.Pool.Conservation

/-!
# The counters of a thread's lists

`freeListSize_` is decremented, incremented, set, and increased by what another
layer reports. `counters_exact_iff` says in which runs it is the length of the
list; a span for a block larger than a span is reported as no block at all.
-/

namespace MudouHttp

open Function (update update_self update_of_ne)
open Lib (Chain moved moved_left moved_right moved_other moved_twice)

namespace MemoryPool

variable {T : Type} [DecidableEq T] {s s' : MemoryPool T} {lists lists' : Place T → List Addr}

/-- Every counter is the length of its list, which has at most 64 blocks. -/
def Exact (s : MemoryPool T) : Prop :=
  ∀ t index, ∃ l, Chain s.central.mem 0 ((s.cache t).freeList index) l ∧
    (s.cache t).freeListSize index = l.length ∧ l.length ≤ 64

structure Counted (s : MemoryPool T) (lists : Place T → List Addr) : Prop where
  length : ∀ t index, (s.cache t).freeListSize index = (lists (.thread t index)).length
  short : ∀ t index, (lists (.thread t index)).length ≤ 64
  fetched : ∀ t index batchNum realIncrease start size,
    s.phase t = .fetched index batchNum realIncrease start size →
    realIncrease = (lists (.handed t index)).length ∧ realIncrease ≤ 64

omit [DecidableEq T] in
theorem Counted.exact (h : s.Counted lists) (hinv : s.Inv lists) : s.Exact := fun t index =>
  ⟨lists (.thread t index), hinv.holds.chain (.thread t index) nofun, h.length t index,
    h.short t index⟩

theorem Counted.move {tc : ThreadCache} {next : Phase} (h : s.Counted lists)
    (hcache : s'.cache = update s.cache t tc)
    (hsizes : tc.freeListSize = update (s.cache t).freeListSize index n)
    (hphase : s'.phase = update s.phase t next)
    (hlist : n = (lists' (.thread t index)).length) (hshort : n ≤ 64)
    (hthreads : ∀ u i, Place.thread u i ≠ .thread t index →
      lists' (.thread u i) = lists (.thread u i))
    (hhanded : ∀ u i, u ≠ t → lists' (.handed u i) = lists (.handed u i))
    (hnext : ∀ i batchNum realIncrease start size,
      next = .fetched i batchNum realIncrease start size →
      realIncrease = (lists' (.handed t i)).length ∧ realIncrease ≤ 64) : s'.Counted lists' := by
  have hsize : ∀ u i, (s'.cache u).freeListSize i = (lists' (.thread u i)).length := by
    intro u i
    rw [hcache]
    by_cases hself : Place.thread u i = .thread t index
    · cases hself
      rw [update_self, hsizes, update_self, hlist]
    · rw [hthreads u i hself, ← h.length u i]
      by_cases hu : u = t
      · subst hu
        rw [update_self, hsizes, update_of_ne]
        rintro rfl
        exact hself rfl
      · rw [update_of_ne hu]
  refine ⟨hsize, fun u i => ?_, fun u i batchNum realIncrease start size hu => ?_⟩
  · by_cases hself : Place.thread u i = .thread t index
    · cases hself
      exact hlist ▸ hshort
    · rw [hthreads u i hself]
      exact h.short u i
  · rw [hphase] at hu
    by_cases hself : u = t
    · subst hself
      rw [update_self] at hu
      exact hnext i batchNum realIncrease start size hu
    · rw [update_of_ne hself] at hu
      rw [hhanded u i hself]
      exact h.fetched u i batchNum realIncrease start size hu

theorem Counted.pass {next : Phase} (h : s.Counted lists) (hcache : s'.cache = s.cache)
    (hphase : s'.phase = update s.phase t next)
    (hthreads : ∀ u i, lists' (.thread u i) = lists (.thread u i))
    (hhanded : ∀ u i, u ≠ t → lists' (.handed u i) = lists (.handed u i))
    (hnext : ∀ i batchNum realIncrease start size,
      next = .fetched i batchNum realIncrease start size →
      realIncrease = (lists' (.handed t i)).length ∧ realIncrease ≤ 64) : s'.Counted lists' := by
  have hsame : s'.cache = update s.cache t (s.cache t) := by
    rw [hcache, Function.update_eq_self]
  have hsizes : (s.cache t).freeListSize =
      update (s.cache t).freeListSize 0 ((s.cache t).freeListSize 0) :=
    (Function.update_eq_self ..).symm
  refine h.move hsame hsizes hphase ?_ (h.length t 0 ▸ h.short t 0) (fun u i _ => hthreads u i)
    hhanded hnext
  rw [hthreads]
  exact h.length t 0

theorem Counted.change {tc : ThreadCache} (h : s.Counted lists)
    (hcache : s'.cache = update s.cache t tc)
    (hsizes : tc.freeListSize = update (s.cache t).freeListSize index n)
    (hphase : s'.phase = s.phase) (hlist : n = (lists' (.thread t index)).length) (hshort : n ≤ 64)
    (hthreads : ∀ u i, Place.thread u i ≠ .thread t index →
      lists' (.thread u i) = lists (.thread u i))
    (hhanded : ∀ u i, lists' (.handed u i) = lists (.handed u i)) : s'.Counted lists' := by
  have hsame : s'.phase = update s.phase t (s.phase t) := by
    rw [hphase, Function.update_eq_self]
  refine h.move hcache hsizes hsame hlist hshort hthreads (fun u i _ => hhanded u i)
    fun i batchNum realIncrease start size heq => ?_
  rw [hhanded]
  exact h.fetched t i batchNum realIncrease start size heq

theorem sizeAdd_of_lt {a b : Nat} (h : a + b < 2 ^ 64) : ThreadCache.sizeAdd a b = a + b :=
  Nat.mod_eq_of_lt h

omit [DecidableEq T] in
theorem Counted.pushed (h : s.Counted lists) (t : T) (index : Nat) (ptr : Addr) :
    ((s.cache t).push index ptr).freeListSize =
      update (s.cache t).freeListSize index (ptr :: lists (.thread t index)).length := by
  have hshort := h.short t index
  show update _ _ _ = _
  rw [h.length t index, sizeAdd_of_lt (by omega), List.length_cons]

/-- A list of 65 blocks is cut to sixteen. -/
theorem split_counted {tc pushed : ThreadCache} {l kept : List Addr}
    (hsplit : tc.SplitFrom pushed index l kept) (hlength : pushed.freeListSize index = l.length)
    (hmany : pushed.shouldReturnToCentralCache index = true) (hfew : l.length ≤ 65) :
    tc.freeListSize = update pushed.freeListSize index kept.length ∧ kept.length ≤ 64 := by
  have hover : 64 < pushed.freeListSize index := of_decide_eq_true hmany
  have hkeep : pushed.keepNum index = 16 := by
    unfold ThreadCache.keepNum
    omega
  rcases hsplit with ⟨-, hshort⟩ | ⟨hsizes, hkept⟩
  · omega
  · exact ⟨hsizes, by omega⟩

theorem stored_thread (lists : Place T → List Addr) (t : T) (index : Nat) (start : Addr)
    (rest l : List Addr) :
    moved (moved lists (.thread t index) rest (.handed t index) [start]) (.handed t index) []
      .live l (.thread t index) = rest := by
  have hhanded : Place.thread t index ≠ .handed t index := nofun
  have hlive : Place.thread t index ≠ .live := nofun
  rw [moved_other hhanded hlive, moved_left hhanded]

theorem Counted.step (h : s.Counted lists) (hs : s.Effect lists e s' lists') (hsized : s.Sized e) :
    s'.Counted lists' := by
  cases hs with
  | @callers s' e l hcache hphase =>
    have hother : ∀ p, p ≠ Place.live → update lists .live l p = lists p :=
      fun p hp => update_of_ne hp _ _
    refine ⟨fun t index => ?_, fun t index => ?_, fun t index batchNum realIncrease start size ht => ?_⟩
    · rw [hcache, hother (.thread t index) nofun]
      exact h.length t index
    · rw [hother (.thread t index) nofun]
      exact h.short t index
    · rw [hother (.handed t index) nofun]
      exact h.fetched t index batchNum realIncrease start size (hphase ▸ ht)
  | @popped t index ptr rest s' size memory l hlist hcache hphase =>
    have hlength := h.length t index
    have hshort := h.short t index
    rw [hlist, List.length_cons] at hlength hshort
    refine h.change (n := rest.length) hcache ?_ hphase ?_ (by omega)
      (fun u i hu => moved_other hu nofun) (fun u i => moved_other nofun nofun)
    · show update _ _ _ = _
      rw [sizeSub_of_le (by omega), hlength, Nat.add_sub_cancel]
    · have hpq : Place.thread t index ≠ .live := nofun
      rw [moved_left hpq]
  | @refilled t index batchNum realIncrease start size memory s' kept handed hcache hphase hshort
      hreal =>
    rcases hreal with ⟨-, rfl⟩ | ⟨hlarge, -⟩
    · refine h.pass hcache hphase (fun u i => moved_other nofun nofun)
        (fun u i hu => moved_other nofun (handed_ne hu)) fun i batchNum' realIncrease start' size' heq => ?_
      cases heq
      rw [moved_right]
      exact ⟨rfl, hshort⟩
    · exact absurd hsized hlarge
  | @stored t index batchNum realIncrease start size rest s' l hphase hhanded hthread hcache hidle =>
    obtain ⟨hreal, hshort⟩ := h.fetched t index batchNum realIncrease start size hphase
    have hempty := h.length t index
    rw [hthread, List.length_nil] at hempty
    rw [hhanded, List.length_cons] at hreal
    have hsizes : ((s.cache t).store s.central.mem index batchNum realIncrease start).freeListSize =
        update (s.cache t).freeListSize index rest.length := by
      show update _ _ _ = _
      rw [hempty, sizeSub_of_le (by omega), sizeAdd_of_lt (by omega), hreal, Nat.zero_add,
        Nat.add_sub_cancel]
    exact h.move hcache hsizes hidle (congrArg _ (stored_thread ..).symm) (by omega)
      (fun u i hu => moved_twice hu nofun nofun nofun)
      (fun u i hu => moved_twice nofun (handed_ne hu) (handed_ne hu) nofun) nofun
  | @pushed t index ptr size s' l hcache hfew hphase =>
    have hpushed := h.pushed t index ptr
    have hbound : ¬64 < ((s.cache t).push index ptr).freeListSize index := of_decide_eq_false hfew
    rw [hpushed, update_self] at hbound
    exact h.change hcache hpushed hphase (congrArg _ moved_right.symm) (by omega)
      (fun u i hu => moved_other nofun hu) (fun u i => moved_other nofun nofun)
  | @split t index ptr tc next kept size s' l cut hmany hcache hphase hnext hsplit =>
    have hpushed := h.pushed t index ptr
    have hshort := h.short t index
    obtain ⟨hsizes, hkept⟩ := split_counted hsplit (by rw [hpushed, update_self]) hmany
      (Nat.succ_le_succ hshort)
    rw [hpushed, Function.update_idem] at hsizes
    refine h.move hcache hsizes hphase ?_ hkept (fun u i hu => ?_) (fun u i hu => ?_)
      fun i batchNum realIncrease start size' heq => ?_
    · have hpq : Place.thread t index ≠ .handed t index := nofun
      rw [moved_left hpq]
    · exact moved_twice nofun hu hu nofun
    · exact moved_twice nofun nofun nofun (handed_ne hu)
    · rcases hnext with rfl | ⟨node, bound, rfl⟩ <;> cases heq
  | returned hcache hphase =>
    exact h.pass hcache hphase (fun u i => moved_other nofun nofun)
      (fun u i hu => moved_other (handed_ne hu) nofun) nofun

-- ---------------------------------------------------------------------------
-- Runs
-- ---------------------------------------------------------------------------

theorem counted_of_reach (h : Lib.Reach step (fun s e => s.Admits e ∧ s.Sized e) new s) :
    ∃ lists, s.Inv lists ∧ s.Counted lists := by
  refine h.invariant (P := fun s => ∃ lists, s.Inv lists ∧ s.Counted lists)
    (fun s e s' hs hm hstep => ?_) ⟨_, new_ok, fun _ _ => rfl, fun _ _ => Nat.zero_le _, nofun⟩
  obtain ⟨lists, hinv, hcounted⟩ := hs
  obtain ⟨lists', hinv', heffect, -⟩ := step_ok hinv hm.1 hstep
  exact ⟨lists', hinv', hcounted.step heffect hm.2⟩

theorem idle_of_allocate (hs : s.step (.allocate t size memory) = .ok s') : s.phase t = .idle := by
  cases hphase : s.phase t with
  | idle => rfl
  | fetched | returning => simp only [step, hphase, reduceCtorEq] at hs

theorem store_inv (hs : s.step (.store t) = .ok s') :
    ∃ index batchNum realIncrease start size,
      s.phase t = .fetched index batchNum realIncrease start size ∧
      s' = s.storeStep t index batchNum realIncrease start size := by
  cases hphase : s.phase t with
  | fetched index batchNum realIncrease start size =>
    simp only [step, hphase, Except.ok.injEq] at hs
    exact ⟨index, batchNum, realIncrease, start, size, rfl, hs.symm⟩
  | idle | returning => simp only [step, hphase, reduceCtorEq] at hs

/-- A call that is not sized puts an empty list on the books as 2^64 - 1 blocks. -/
theorem Counted.wraps {s₁ s₂ : MemoryPool T} (h : s.Counted lists) (hinv : s.Inv lists)
    (ha : s.Admits (.allocate t size memory)) (hs₁ : s.step (.allocate t size memory) = .ok s₁)
    (hs₂ : s₁.step (.store t) = .ok s₂) (hsized : ¬s.Sized (.allocate t size memory)) :
    ¬s₂.Exact := by
  have hidle := idle_of_allocate hs₁
  obtain ⟨lists₁, hinv₁, heffect, -⟩ := step_ok hinv ha hs₁
  obtain ⟨index, batchNum, realIncrease, start, size', hphase, rfl⟩ := store_inv hs₂
  obtain ⟨rest, hhanded, hthread, hinv₂, -⟩ := store_ok hinv₁ hphase
  cases heffect with
  | callers _ hsame | popped _ _ hsame =>
    rw [hsame, hidle] at hphase
    cases hphase
  | @refilled t index batchNum realIncrease start size memory s₁ kept handed hcache hfetched _ hreal =>
    rw [hfetched, update_self] at hphase
    cases hphase
    obtain ⟨hsmall, -⟩ | ⟨-, rfl, hone⟩ := hreal
    · exact absurd hsmall hsized
    rw [moved_right] at hhanded
    rw [hhanded, List.length_cons] at hone
    obtain rfl := List.length_eq_zero_iff.mp (Nat.succ_inj.mp hone)
    intro hexact
    obtain ⟨l, hchain, hlength, -⟩ := hexact t index
    have hlist := hinv₂.holds.chain (.thread t index) nofun
    rw [stored_thread] at hlist
    obtain rfl := Lib.Chain.unique hchain hlist
    have hempty : moved lists (.central index) kept (.handed t index) handed (.thread t index) =
        lists (.thread t index) := moved_other nofun nofun
    rw [hthread] at hempty
    have hcount : ((s₁.storeStep t index batchNum 0 start size).cache t).freeListSize index =
        ThreadCache.sizeAdd 0 (sizeSub 0 1) := by
      have hzero := h.length t index
      rw [← hempty, List.length_nil, ← hcache] at hzero
      show (update s₁.cache t _ t).freeListSize index = _
      rw [update_self]
      show update _ index _ index = _
      rw [update_self, hzero]
    rw [hcount] at hlength
    exact absurd hlength (by decide)

/-- In a run without an `allocate` that gets a new span for a block larger than
a span all counters are exact; such a call makes one wrap. -/
theorem counters_exact_iff (s : MemoryPool T)
    (h : Lib.Reach step (fun s e => s.Admits e ∧ s.Sized e) new s) :
    s.Exact ∧ ∀ t size memory s₁ s₂, s.Admits (.allocate t size memory) →
      s.step (.allocate t size memory) = .ok s₁ → s₁.step (.store t) = .ok s₂ →
      (s₂.Exact ↔ s.Sized (.allocate t size memory)) := by
  obtain ⟨lists, hinv, hcounted⟩ := counted_of_reach h
  refine ⟨hcounted.exact hinv, fun t size memory s₁ s₂ ha hs₁ hs₂ => ⟨fun hexact => ?_, fun hsized => ?_⟩⟩
  · exact not_not.mp fun hnot => hcounted.wraps hinv ha hs₁ hs₂ hnot hexact
  · have hadmits : s₁.Admits (.store t) := trivial
    have hstore : s₁.Sized (.store t) := trivial
    have hreach := (h.next ⟨ha, hsized⟩ hs₁).next ⟨hadmits, hstore⟩ hs₂
    obtain ⟨lists₂, hinv₂, hcounted₂⟩ := counted_of_reach hreach
    exact hcounted₂.exact hinv₂

def small : PoolEvent T → Bool
  | .allocate _ size _ => size ≤ spanPages * PageCache.pageSize
  | _ => true

omit [DecidableEq T] in
theorem sized_of_small (h : small e = true) : s.Sized e := by
  cases e with
  | allocate t size memory => exact .inl (of_decide_eq_true h)
  | store | deallocate | returnRange | write => trivial

/-- Of 65 buffers given back sixteen stay. -/
theorem counters_exact_iff_example : ∃ s : MemoryPool Unit,
    Lib.Reach step (fun s e => s.Admits e ∧ s.Sized e) new s ∧
    (s.cache ()).freeListSize (getIndex 2048) = 16 ∧ s.Exact := by
  have hrun : (Lib.checked step (fun s e => s.admitted e && small e) new (buffers 2048)).map
      (fun s => (s.cache ()).freeListSize (getIndex 2048)) = some 16 := by
    decide +kernel
  obtain ⟨s, hs, hsize⟩ := Option.map_eq_some_iff.mp hrun
  have hreach : Lib.Reach step (fun s e => s.Admits e ∧ s.Sized e) new s := by
    refine Lib.Reach.start.checked _ (fun s e he => ?_) hs
    obtain ⟨ha, hm⟩ := Bool.and_eq_true_iff.mp he
    exact ⟨admits_of_admitted ha, sized_of_small hm⟩
  exact ⟨s, hreach, hsize, (counters_exact_iff s hreach).1⟩

/-- The first block of more than 32 KB: the list is empty, its counter is not. -/
theorem counter_wraps : ∃ s : MemoryPool Unit,
    Lib.checked step admitted new [.allocate () 32769 (some 4096), .store ()] = some s ∧
    Lib.Reach step Admits new s ∧ (s.cache ()).freeList (getIndex 32769) = 0 ∧
    (s.cache ()).freeListSize (getIndex 32769) = 2 ^ 64 - 1 ∧ ¬s.Exact := by
  have hrun : (Lib.checked step admitted new [.allocate () 32769 (some 4096), .store ()]).map
      (fun s : MemoryPool Unit => ((s.cache ()).freeList (getIndex 32769),
        (s.cache ()).freeListSize (getIndex 32769))) = some (0, 2 ^ 64 - 1) := by
    decide +kernel
  obtain ⟨s, hs, hstate⟩ := Option.map_eq_some_iff.mp hrun
  obtain ⟨hlist, hsize⟩ := Prod.mk.inj hstate
  refine ⟨s, hs, Lib.Reach.start.checked _ (fun _ _ => admits_of_admitted) hs, hlist, hsize,
    fun hexact => ?_⟩
  obtain ⟨l, hchain, hlength, -⟩ := hexact () (getIndex 32769)
  rw [hlist] at hchain
  rw [hsize, hchain.of_nil] at hlength
  exact absurd hlength (by decide)

end MemoryPool

end MudouHttp
