import MudouHttp.Pool.Holdings

/-!
# What each step does to the lists

Every step keeps the invariant of `Holdings`, and none loses a block but
`returnRange`, which links only the part of its chain that its bound reaches.
-/

namespace MudouHttp

open Function (update update_self update_of_ne)
open Lib (Segment Chain moved moved_left moved_right moved_other held_moved segment_append)

namespace MemoryPool

-- ---------------------------------------------------------------------------
-- malloc, free and the thread's own list
-- ---------------------------------------------------------------------------

variable {T : Type} [DecidableEq T] {s : MemoryPool T} {lists : Place T → List Addr}

theorem malloc_ok (h : s.Inv lists) (hfresh : s.Fresh ⟨start, size⟩) (hsize : maxByte < size) :
    s.Moves lists (s.mallocStep size (some start))
      (update lists .live (start :: lists .live)) := by
  have hnew : ∀ r, start ∉ lists r := fun r =>
    h.fresh_notMem hfresh (Nat.le_refl _) (Nat.lt_add_of_pos_right (Nat.zero_lt_of_lt hsize)) r
  have hsub : ∀ e ∈ s.extents, e ∈ (s.mallocStep size (some start)).extents := by
    intro e he
    exact List.perm_middle.mem_iff.mpr (List.mem_cons_of_mem _ he)
  refine ⟨⟨⟨?_, fun p hp => ?_⟩, ?_, ?_, ?_, ?_, ?_⟩, ?_⟩
  · rw [update_self, h.holds.live]
    rfl
  · rw [update_of_ne hp]
    exact h.holds.chain p hp
  · refine h.apart.set (List.nodup_cons.mpr ⟨hnew .live, h.apart.nodup .live⟩) fun a ha => ?_
    rcases List.mem_cons.mp ha with rfl | ha
    · exact .inr hnew
    · exact .inl ha
  · intro p a ha
    by_cases hp : p = .live
    · subst hp
      rw [update_self] at ha
      rcases List.mem_cons.mp ha with rfl | ha
      · exact ⟨⟨a, size⟩, List.perm_middle.mem_iff.mpr List.mem_cons_self, rfl, Nat.zero_le _⟩
      · exact h.fits.mono hsub .live a ha
    · rw [update_of_ne hp] at ha
      exact h.fits.mono hsub p a ha
  · intro b hb
    rcases List.mem_cons.mp hb with rfl | hb
    · refine ⟨⟨start, size⟩, List.perm_middle.mem_iff.mpr List.mem_cons_self, rfl, ?_⟩
      exact Nat.max_le.mpr ⟨Nat.le_refl _, Nat.le_trans (by decide) (Nat.le_of_lt hsize)⟩
    · obtain ⟨e, he, hfit⟩ := h.live b hb
      exact ⟨e, hsub e he, hfit⟩
  · exact h.layout.malloc hfresh hsize
  · exact h.phases
  · intro hcovered b hb
    obtain ⟨p, hp⟩ := hcovered b hb
    by_cases hlive : p = .live
    · subst hlive
      exact ⟨.live, by rw [update_self]; exact List.mem_cons_of_mem _ hp⟩
    · exact ⟨p, by rwa [update_of_ne hlive]⟩

omit [DecidableEq T] in
theorem released_starts (s : MemoryPool T) (ptr : Addr) :
    (s.released ptr).map Extent.start = (s.live.map Extent.start).filter (· ≠ ptr) := by
  rw [List.filter_map]
  rfl

/-- Only what `malloc` returned is large enough to be passed to `free`. -/
theorem free_ok (h : s.Inv lists) (hb : b ∈ s.live) (hsize : maxByte < b.size) :
    s.Moves lists { s with
      live := s.released b.start, mallocs := s.mallocs.filter fun e => e.start ≠ b.start }
      (update lists .live ((lists .live).filter (· ≠ b.start))) := by
  obtain ⟨e, he, hstart, hroom⟩ := h.live b hb
  have hlarge : maxByte < e.size := Nat.lt_of_lt_of_le hsize (Nat.le_trans (Nat.le_max_left _ _) hroom)
  have hlive : b.start ∈ lists .live := h.holds.live ▸ List.mem_map_of_mem hb
  have hstay : ∀ f ∈ s.extents, f.start ≠ b.start →
      f ∈ s.carved ++ s.mallocs.filter fun e => e.start ≠ b.start := by
    intro f hf hne
    rcases List.mem_append.mp hf with hf | hf
    · exact List.mem_append_left _ hf
    · exact List.mem_append_right _ (List.mem_filter.mpr ⟨hf, decide_eq_true hne⟩)
  have hfits : ∀ p a, a ∈ lists p → a ≠ b.start →
      ∃ f ∈ s.carved ++ s.mallocs.filter fun e => e.start ≠ b.start,
        f.start = a ∧ p.room ≤ f.size := by
    intro p a ha hne
    obtain ⟨f, hf, rfl, hfit⟩ := h.fits p a ha
    exact ⟨f, hstay f hf hne, rfl, hfit⟩
  refine ⟨⟨⟨?_, fun p hp => ?_⟩, ?_, ?_, ?_, ?_, h.phases⟩, ?_⟩
  · rw [update_self, h.holds.live, released_starts]
  · rw [update_of_ne hp]
    exact h.holds.chain p hp
  · exact h.apart.set ((h.apart.nodup .live).filter _) fun a ha => .inl (List.mem_filter.mp ha).1
  · intro p a ha
    by_cases hp : p = .live
    · subst hp
      rw [update_self] at ha
      obtain ⟨ha, hne⟩ := List.mem_filter.mp ha
      exact hfits .live a ha (of_decide_eq_true hne)
    · rw [update_of_ne hp] at ha
      refine hfits p a ha ?_
      rintro rfl
      exact hp (h.apart.once p .live _ ha hlive)
  · intro c hc
    obtain ⟨hc, hne⟩ := List.mem_filter.mp hc
    obtain ⟨f, hf, hfstart, hfroom⟩ := h.live c hc
    exact ⟨f, hstay f hf (hfstart ▸ of_decide_eq_true hne), hfstart, hfroom⟩
  · exact h.layout.free _
  · intro hcovered d hd
    obtain ⟨p, hp⟩ := hcovered d hd
    by_cases hplace : p = .live
    · subst hplace
      refine ⟨.live, ?_⟩
      rw [update_self]
      refine List.mem_filter.mpr ⟨hp, decide_eq_true fun heq => ?_⟩
      obtain rfl := h.layout.eq_of_start (List.mem_append_left _ hd) he (heq.trans hstart.symm)
      exact Nat.not_le_of_lt hlarge (h.layout.carved d hd).1
    · exact ⟨p, by rwa [update_of_ne hplace]⟩

theorem cache_other {cache : T → ThreadCache} {tc : ThreadCache} {ptr : Addr}
    (hr : Place.thread u i ≠ .thread t index)
    (hlist : tc.freeList = update (cache t).freeList index ptr) :
    (update cache t tc u).freeList i = (cache u).freeList i := by
  by_cases hu : u = t
  · subst hu
    rw [update_self, hlist]
    exact update_of_ne (fun hi => hr (congrArg _ hi)) _ _
  · rw [update_of_ne hu]

theorem pop_ok (h : s.Inv lists) (hidle : s.phase t = .idle)
    (hne : (s.cache t).freeList index ≠ 0) (hsize : max size alignment ≤ (index + 1) * alignment) :
    ∃ rest, lists (.thread t index) = (s.cache t).freeList index :: rest ∧ s.Moves lists { s with
      cache := update s.cache t ((s.cache t).pop s.central.mem index)
      live := ⟨(s.cache t).freeList index, size⟩ :: s.live }
      (moved lists (.thread t index) rest .live ((s.cache t).freeList index :: lists .live)) := by
  obtain ⟨rest, hlist, hrest⟩ := (h.holds.chain (.thread t index) nofun).cons_of_ne hne
  have hpq : Place.thread t index ≠ .live := nofun
  obtain ⟨e, he, hstart, hroom⟩ := h.fits (.thread t index) ((s.cache t).freeList index)
    (hlist ▸ List.mem_cons_self)
  have hperm : (rest ++ (s.cache t).freeList index :: lists .live).Perm
      (lists (.thread t index) ++ lists .live) := by
    rw [hlist]
    exact List.perm_middle
  refine ⟨rest, hlist, h.share hpq hperm rfl rfl rfl ?_ ?_ ?_ ?_⟩
  · refine h.holds.move hpq ?_ ?_ (fun _ _ _ _ _ => rfl) (fun _ => ?_) (absurd rfl)
    · rw [moved_right, h.holds.live]
      rfl
    · intro r hr _
      cases r with
      | thread u i => exact cache_other hr rfl
      | live | central | handed => rfl
    · show Chain _ 0 ((update s.cache t _ t).freeList index) rest
      rw [update_self]
      show Chain _ 0 (update (s.cache t).freeList index _ index) rest
      rwa [update_self]
  · refine h.fits.move hpq (fun a ha => h.fits _ a (hlist ▸ List.mem_cons_of_mem _ ha)) fun a ha => ?_
    rcases List.mem_cons.mp ha with rfl | ha
    · exact ⟨e, he, hstart, Nat.zero_le _⟩
    · exact h.fits .live a ha
  · intro b hb
    rcases List.mem_cons.mp hb with rfl | hb
    · exact ⟨e, he, hstart, Nat.le_trans hsize hroom⟩
    · exact h.live b hb
  · exact phases_step h.phases (phase_idle hidle) (fun u hu => update_of_ne hu _ _)
      (fun u i _ => moved_other nofun nofun) trivial

theorem phase_other {phase : T → Phase} {next : Phase}
    (hr : Place.handed u i ≠ .handed t index) (hold : ∀ i, i ≠ index → (phase t).chain i = 0)
    (hnext : ∀ i, i ≠ index → next.chain i = 0) :
    (update phase t next u).chain i = (phase u).chain i := by
  by_cases hu : u = t
  · subst hu
    have hi : i ≠ index := by
      rintro rfl
      exact hr rfl
    rw [update_self, hold i hi, hnext i hi]
  · rw [update_of_ne hu]

/-- Where one block is asked for the list is not written, and need not be. -/
theorem store_freeList {tc : ThreadCache} {mem : Memory} (hempty : tc.freeList index = 0)
    (hend : ¬1 < batchNum → mem start = 0) :
    (tc.store mem index batchNum realIncrease start).freeList =
      update tc.freeList index (mem start) := by
  show (if batchNum > 1 then _ else _) = _
  split
  · rfl
  · rename_i hone
    rw [hend hone]
    exact (Function.update_eq_self_iff.mpr hempty.symm).symm

omit [DecidableEq T] in
theorem handed_ne (hu : u ≠ t) : Place.handed u i ≠ .handed t index := by
  rintro ⟨⟩
  exact hu rfl

omit [DecidableEq T] in
/-- What was fetched is a first block and a chain of others for the thread's
list, which is empty. -/
theorem fetched_ok (h : s.Inv lists)
    (hphase : s.phase t = .fetched index batchNum realIncrease start size) :
    ∃ rest, lists (.handed t index) = start :: rest ∧ lists (.thread t index) = [] ∧
      Chain s.central.mem 0 (s.central.mem start) rest ∧
      max size alignment ≤ (index + 1) * alignment ∧
      ((s.cache t).store s.central.mem index batchNum realIncrease start).freeList =
        update (s.cache t).freeList index (s.central.mem start) := by
  have hok := h.phases t
  have hchain := h.holds.chain (.handed t index) nofun
  have hthread := h.holds.chain (.thread t index) nofun
  rw [hphase] at hok
  obtain ⟨hne, hempty, hlength, hsize⟩ := hok
  rw [head, hphase, Phase.chain, if_pos rfl] at hchain
  rw [head, hempty] at hthread
  obtain ⟨rest, hlist, hrest⟩ := hchain.cons_of_ne hne
  refine ⟨rest, hlist, hthread.of_nil, hrest, hsize, store_freeList hempty fun hone => ?_⟩
  simp only [hlist, List.length_cons] at hlength
  obtain rfl : rest = [] := List.length_eq_zero_iff.mp (by omega)
  exact hrest

theorem store_ok (h : s.Inv lists)
    (hphase : s.phase t = .fetched index batchNum realIncrease start size) :
    ∃ rest, lists (.handed t index) = start :: rest ∧ lists (.thread t index) = [] ∧
      s.Moves lists (s.storeStep t index batchNum realIncrease start size)
        (moved (moved lists (.thread t index) rest (.handed t index) [start]) (.handed t index) []
          .live (start :: lists .live)) := by
  obtain ⟨rest, hlist, hthread, hrest, hsize, hcache⟩ := fetched_ok h hphase
  have hhave : ∀ a ∈ start :: rest,
      ∃ e ∈ s.extents, e.start = a ∧ (index + 1) * alignment ≤ e.size :=
    fun a ha => h.fits (.handed t index) a (hlist ▸ ha)
  obtain ⟨e, he, hstart, hroom⟩ := hhave start List.mem_cons_self
  -- all but the first block go to the thread's list, then the first one to the caller
  have htail : Place.thread t index ≠ .handed t index := nofun
  have hfirst : Place.handed t index ≠ .live := nofun
  obtain ⟨lists₁, hlists₁⟩ : ∃ lists₁, lists₁ =
      moved lists (.thread t index) rest (.handed t index) [start] := ⟨_, rfl⟩
  have hhanded₁ : lists₁ (.handed t index) = [start] := hlists₁ ▸ moved_right
  have hthread₁ : lists₁ (.thread t index) = rest := hlists₁ ▸ moved_left htail
  have hother₁ : ∀ r, r ≠ .thread t index → r ≠ .handed t index → lists₁ r = lists r :=
    fun r hr hr' => hlists₁ ▸ moved_other hr hr'
  have hperm₁ : (rest ++ [start]).Perm (lists (.thread t index) ++ lists (.handed t index)) := by
    rw [hthread, hlist]
    exact List.perm_append_singleton _ _
  have hperm₂ : ([] ++ start :: lists .live).Perm (lists₁ (.handed t index) ++ lists₁ .live) := by
    rw [hhanded₁, hother₁ .live nofun nofun]
    exact .refl _
  have hfits₁ : Fits s.extents lists₁ := hlists₁ ▸ h.fits.move htail
    (fun a ha => hhave a (List.mem_cons_of_mem _ ha))
    fun a ha => hhave a (List.mem_cons.mpr (.inl (List.mem_singleton.mp ha)))
  refine ⟨rest, hlist, hthread, ?_⟩
  rw [← hlists₁]
  refine ⟨⟨⟨?_, fun r hr => ?_⟩, ?_, hfits₁.move hfirst nofun fun a ha => ?_, fun b hb => ?_,
      h.layout.same rfl rfl rfl, ?_⟩, fun hcovered b hb => ?_⟩
  · rw [moved_right, h.holds.live]
    rfl
  · by_cases hhanded : r = .handed t index
    · subst hhanded
      rw [moved_left hfirst]
      show Chain _ 0 ((update s.phase t .idle t).chain index) []
      rw [update_self]
      rfl
    · rw [moved_other hhanded hr]
      by_cases hself : r = .thread t index
      · subst hself
        rw [hthread₁]
        show Chain _ 0 ((update s.cache t _ t).freeList index) rest
        rw [update_self, hcache, update_self]
        exact hrest
      · have hhead : (s.storeStep t index batchNum realIncrease start size).head r = s.head r := by
          cases r with
          | live => exact absurd rfl hr
          | thread u i => exact cache_other hself hcache
          | central i => rfl
          | handed u i =>
            refine phase_other hhanded (fun i hi => ?_) (fun _ _ => rfl)
            rw [hphase]
            exact if_neg hi
        rw [hother₁ r hself hhanded, hhead]
        exact h.holds.chain r hr
  · exact (hlists₁ ▸ h.apart.share htail hperm₁).share hfirst hperm₂
  · rcases List.mem_cons.mp ha with rfl | ha
    · exact ⟨e, he, hstart, Nat.zero_le _⟩
    · exact h.fits .live a ha
  · rcases List.mem_cons.mp hb with rfl | hb
    · exact ⟨e, he, hstart, Nat.le_trans hsize hroom⟩
    · exact h.live b hb
  · refine phases_step h.phases rfl (fun u hu => update_of_ne hu _ _) (fun u i hu => ?_) trivial
    have hother : Place.handed u i ≠ .handed t index := handed_ne hu
    have hlive : Place.handed u i ≠ .live := nofun
    rw [moved_other hother hlive]
    exact hother₁ _ nofun hother
  · have hheld₁ : ∃ r, b.start ∈ lists₁ r := hlists₁ ▸ held_moved htail
      (fun hheld => List.mem_append.mp (hperm₁.mem_iff.mpr (List.mem_append.mpr hheld)))
      (hcovered b hb)
    refine held_moved hfirst (fun hheld => ?_) hheld₁
    exact List.mem_append.mp (hperm₂.mem_iff.mpr (List.mem_append.mpr hheld))

-- ---------------------------------------------------------------------------
-- fetchRange
-- ---------------------------------------------------------------------------

structure Wanted (s : MemoryPool T) (t : T) (size index : Nat) : Prop where
  idle : s.phase t = .idle
  empty : (s.cache t).freeList index = 0
  fits : max size alignment ≤ (index + 1) * alignment
  inRange : index < freeListSizeMax

theorem exchange_head {s' : MemoryPool T} (ptr : Addr) (next : Phase)
    (hlist : s'.central.freeList = update s.central.freeList index ptr)
    (hphase : s'.phase = update s.phase t next) (hcache : s'.cache = s.cache)
    (hold : ∀ i, i ≠ index → (s.phase t).chain i = 0)
    (hnext : ∀ i, i ≠ index → next.chain i = 0) (r : Place T) (hcentral : r ≠ .central index)
    (hhanded : r ≠ .handed t index) : s'.head r = s.head r := by
  cases r with
  | live => rfl
  | thread u i => rw [head, head, hcache]
  | central i =>
    rw [head, head, hlist]
    exact update_of_ne (fun hi => hcentral (congrArg _ hi)) _ _
  | handed u i =>
    rw [head, head, hphase]
    exact phase_other hhanded hold hnext

omit [DecidableEq T] in
theorem Wanted.chain_zero (hw : s.Wanted t size index) (i : Nat) : (s.phase t).chain i = 0 := by
  rw [hw.idle]
  rfl

theorem fetchStep_eq {c : Central} (hfetch : s.central.fetchRange index
      (ThreadCache.getBatchNum ((index + 1) * alignment)) memory = .ok (c, start, realIncrease))
    (hne : start ≠ 0) (t : T) (size : Nat) :
    s.fetchStep t size index memory = .ok { s with
      central := c
      phase := update s.phase t (.fetched index
        (ThreadCache.getBatchNum ((index + 1) * alignment)) realIncrease start size)
      carved := if s.central.freeList index = 0 then blocks start ((index + 1) * alignment) ++ s.carved
        else s.carved } := by
  unfold fetchStep
  dsimp only
  rw [hfetch]
  show (if start = 0 then _ else _) = _
  rw [if_neg hne]
  rfl

theorem getBatchNum_pos (size : Nat) : 0 < ThreadCache.getBatchNum size :=
  Nat.lt_of_lt_of_le Nat.one_pos (Nat.le_max_left _ _)

omit [DecidableEq T] in
structure Refills (s : MemoryPool T) (lists : Place T → List Addr) (t : T) (size index : Nat)
    (blocks : List Addr) (realIncrease : Nat) (s' : MemoryPool T) : Prop where
  moves : ∃ kept, s.Moves lists s' (moved lists (.central index) kept (.handed t index) blocks)
  cache : s'.cache = s.cache
  phase : ∃ start, s'.phase = update s.phase t (.fetched index
    (ThreadCache.getBatchNum ((index + 1) * alignment)) realIncrease start size)

theorem fetchList_ok (h : s.Inv lists) (hw : s.Wanted t size index)
    (hne : s.central.freeList index ≠ 0) (memory : Option Addr) :
    ∃ s' blocks, s.fetchStep t size index memory = .ok s' ∧
      s.Refills lists t size index blocks blocks.length s' ∧
      blocks.length ≤ ThreadCache.getBatchNum ((index + 1) * alignment) := by
  have hpq : Place.central index ≠ .handed t index := by simp
  have hnil : lists (.handed t index) = [] := h.handed_nil (by rw [hw.idle]; rfl)
  obtain ⟨last, next, hfetch, hlast, hhanded, hkept⟩ := Central.fetchRange_list
    (h.holds.chain (.central index) (by simp)) hne (h.apart.nodup _)
    (getBatchNum_pos ((index + 1) * alignment)) hw.inRange memory
  have hstep := fetchStep_eq hfetch hne t size
  rw [if_neg hne] at hstep
  generalize hbatchNum : ThreadCache.getBatchNum ((index + 1) * alignment) = batchNum
    at hstep hhanded hkept
  have hperm : ((lists (.central index)).drop batchNum ++ (lists (.central index)).take batchNum).Perm
      (lists (.central index) ++ lists (.handed t index)) := by
    rw [hnil, List.append_nil]
    exact List.perm_append_comm.trans (.of_eq (List.take_append_drop _ _))
  refine ⟨_, (lists (.central index)).take batchNum, hstep, ⟨⟨(lists (.central index)).drop batchNum, ?_⟩,
    rfl, ⟨s.central.freeList index, by rw [hbatchNum, List.length_take]⟩⟩, List.length_take_le _ _⟩
  refine h.share hpq hperm rfl rfl rfl (h.holds.move hpq ?_ ?_ ?_ (fun _ => ?_) (fun _ => ?_)) ?_
    h.live ?_
  · exact h.holds.moved_live (by simp) (by simp)
  · exact exchange_head _ _ rfl rfl rfl (fun i _ => hw.chain_zero i) fun i hi => if_neg hi
  · intro r hr _ a ha
    refine update_of_ne ?_ _ _
    rintro rfl
    exact hr (h.apart.once r (.central index) a ha hlast)
  · show Chain _ 0 (update s.central.freeList index next index) _
    rwa [update_self]
  · show Chain _ 0 ((update s.phase t _ t).chain index) _
    rw [update_self, Phase.chain, if_pos rfl]
    exact hhanded
  · exact h.fits.move hpq (fun a ha => h.fits (.central index) a (List.mem_of_mem_drop ha))
      fun a ha => h.fits (.central index) a (List.mem_of_mem_take ha)
  · refine phases_step h.phases rfl (fun _ _ => rfl) (fun u i hu => moved_other (by simp) (handed_ne hu))
      ⟨hne, hw.empty, ?_, hw.fits⟩
    show (moved lists _ _ _ _ (.handed t index)).length ≤ _
    rw [moved_right]
    exact List.length_take_le _ _

theorem fetchNone_ok (h : s.Inv lists) (hempty : s.central.freeList index = 0) (t : T) (size : Nat) :
    s.fetchStep t size index none = .ok s := by
  unfold fetchStep
  dsimp only
  rw [Central.fetchRange_none hempty h.layout.noSpans]
  rfl

theorem starts_nodup {start size : Nat} (hsize : 0 < size) (i n : Nat) :
    (Central.starts start size i n).Nodup :=
  List.Nodup.map (fun _ _ => Central.blocks_inj hsize) List.nodup_range'

theorem fetchFresh_ok (h : s.Inv lists) (hw : s.Wanted t size index)
    (hempty : s.central.freeList index = 0)
    (hfresh : s.Fresh (Central.spanFor start ((index + 1) * alignment))) :
    ∃ s' blocks realIncrease, s.fetchStep t size index (some start) = .ok s' ∧
      s.Refills lists t size index blocks realIncrease s' ∧
      blocks.length ≤ ThreadCache.getBatchNum ((index + 1) * alignment) ∧
      realIncrease = min (ThreadCache.getBatchNum ((index + 1) * alignment))
        (Central.totalBlocks ((index + 1) * alignment)) ∧ blocks.length = max 1 realIncrease := by
  have hstart : 0 < start := hfresh.1
  have hsize : 0 < (index + 1) * alignment := Nat.mul_pos (Nat.succ_pos _) (by decide)
  have hpq : Place.central index ≠ .handed t index := by simp
  have hnil : lists (.handed t index) = [] := h.handed_nil (by rw [hw.idle]; rfl)
  have hnil' : lists (.central index) = [] := by
    have hchain := h.holds.chain (.central index) (by simp)
    rw [head, hempty] at hchain
    exact hchain.of_nil
  obtain ⟨c, next, i, n, realIncrease, hfetch, hlist, hspans, hmapped, hcarved, hi, hreal, hmax,
    hframe⟩ := Central.fetchRange_fresh hempty h.layout.noSpans
      (getBatchNum_pos ((index + 1) * alignment)) hw.inRange hstart
  have hstep := fetchStep_eq hfetch (Nat.ne_of_gt hstart) t size
  rw [if_pos hempty] at hstep
  generalize hbatchNum : ThreadCache.getBatchNum ((index + 1) * alignment) = batchNum at hstep hi hreal
  generalize hs' : { s with
      central := c
      phase := update s.phase t (.fetched index batchNum realIncrease start size)
      carved := blocks start ((index + 1) * alignment) ++ s.carved } = s' at hstep
  have hall := hcarved.starts_eq
  have hnew := h.blocks_notMem hfresh hsize
  have hsame : ∀ r, ∀ a ∈ lists r, s'.central.mem a = s.central.mem a := by
    intro r a ha
    rw [← hs']
    exact hframe a (h.word_apart (fun e he => h.layout.fresh_apart hfresh he) ha)
  have hfits : ∀ a, a ∈ Central.starts start ((index + 1) * alignment) 0 i ∨
      a ∈ Central.starts start ((index + 1) * alignment) i n →
      ∃ e ∈ s'.extents, e.start = a ∧ (index + 1) * alignment ≤ e.size := by
    intro a ha
    obtain ⟨b, hb, hroom⟩ := hcarved.block hsize ha
    refine ⟨b, ?_, hroom⟩
    rw [← hs']
    exact List.mem_append_left _ (List.mem_append_left _ hb)
  have hold : ∀ e ∈ s.extents, e ∈ s'.extents := by
    intro e he
    rw [← hs']
    show e ∈ blocks start ((index + 1) * alignment) ++ s.carved ++ s.mallocs
    rw [List.append_assoc]
    exact List.mem_append_right _ he
  have hlength : (Central.starts start ((index + 1) * alignment) 0 i).length = i := by
    rw [Central.starts, List.length_map, List.length_range']
  refine ⟨s', Central.starts start ((index + 1) * alignment) 0 i, realIncrease, hstep,
    ⟨⟨Central.starts start ((index + 1) * alignment) i n, ?_⟩, by rw [← hs'],
      ⟨start, by rw [← hs', hbatchNum]⟩⟩, hlength.symm ▸ hi, hreal, hlength.trans hmax⟩
  refine ⟨⟨h.holds.move hpq ?_ ?_ (fun r _ _ => hsame r) (fun _ => ?_) (fun _ => ?_), ?_,
      (h.fits.mono hold).move hpq (fun a ha => hfits a (.inr ha)) (fun a ha => hfits a (.inl ha)),
      fun b hb => ?_, ?_, ?_⟩, fun hcovered b hb => ?_⟩
  · rw [← hs']
    exact h.holds.moved_live (by simp) (by simp)
  · rw [← hs']
    exact exchange_head _ _ hlist rfl rfl (fun i _ => hw.chain_zero i) fun i hi => if_neg hi
  · rw [← hs']
    show Chain c.mem 0 (c.freeList index) _
    rw [hlist, update_self]
    exact hcarved.kept
  · rw [← hs']
    show Chain c.mem 0 ((update s.phase t _ t).chain index) _
    rw [update_self, Phase.chain, if_pos rfl]
    exact hcarved.handed
  · refine h.apart.move hpq ?_ fun a ha => .inr (hnew a ?_)
    · rw [List.perm_append_comm.nodup_iff, hall, blocks_starts]
      exact starts_nodup hsize _ _
    · rw [← hall]
      exact List.perm_append_comm.mem_iff.mp ha
  · rw [← hs'] at hb
    obtain ⟨e, he, hfit⟩ := h.live b hb
    exact ⟨e, hold e he, hfit⟩
  · refine h.layout.span hfresh hsize (Nat.dvd_mul_left _ _) ?_ ?_ ?_ ?_ ?_
    · exact Nat.mul_le_mul_right alignment (Nat.succ_le_of_lt hw.inRange)
    all_goals rw [← hs']
    · exact hmapped
    · exact hspans
  · rw [← hs']
    refine phases_step h.phases rfl (fun _ _ => rfl) (fun u i hu => moved_other (by simp) (handed_ne hu))
      ⟨Nat.ne_of_gt hstart, hw.empty, ?_, hw.fits⟩
    show (moved lists _ _ _ _ (.handed t index)).length ≤ _
    rwa [moved_right, hlength]
  · rw [← hs'] at hb
    rcases List.mem_append.mp hb with hb | hb
    · rcases hcarved.placed hb with hmem | hmem
      · exact ⟨.handed t index, by rwa [moved_right]⟩
      · exact ⟨.central index, by rwa [moved_left hpq]⟩
    · refine held_moved hpq (fun hheld => ?_) (hcovered b hb)
      rw [hnil, hnil'] at hheld
      rcases hheld with hheld | hheld <;> cases hheld

-- ---------------------------------------------------------------------------
-- deallocate
-- ---------------------------------------------------------------------------

omit [DecidableEq T] in
theorem Moves.trans {s₁ s₂ : MemoryPool T} {lists₁ lists₂ : Place T → List Addr}
    (h : s.Moves lists s₁ lists₁) (h' : s₁.Moves lists₁ s₂ lists₂) : s.Moves lists s₂ lists₂ :=
  ⟨h'.1, h'.2 ∘ h.2⟩

omit [DecidableEq T] in
/-- A block given back under a size no larger than its own fits the class. -/
theorem room_ok (h : s.Inv lists) (hb : b ∈ s.live) (hsize : size ≤ b.size) (hmax : size ≤ maxByte) :
    ∃ e ∈ s.extents, e.start = b.start ∧ (getIndex size + 1) * alignment ≤ e.size := by
  obtain ⟨e, he, hstart, hroom⟩ := h.live b hb
  obtain ⟨-, height, hdvd | hlarge⟩ := h.layout.sound e he
  · have hle : size ≤ e.size := Nat.le_trans hsize (Nat.le_trans (Nat.le_max_left _ _) hroom)
    exact ⟨e, he, hstart, class_le hle height hdvd⟩
  · exact ⟨e, he, hstart, Nat.le_trans (class_le hmax (by decide) (by decide)) (Nat.le_of_lt hlarge)⟩

theorem push_ok (h : s.Inv lists) (hidle : s.phase t = .idle) (hb : b ∈ s.live)
    (hsize : size ≤ b.size) (hmax : size ≤ maxByte) :
    s.Moves lists { s with
      central := { s.central with
        mem := update s.central.mem b.start ((s.cache t).freeList (getIndex size)) }
      cache := update s.cache t ((s.cache t).push (getIndex size) b.start)
      live := s.released b.start }
      (moved lists .live ((lists .live).filter (· ≠ b.start)) (.thread t (getIndex size))
        (b.start :: lists (.thread t (getIndex size)))) := by
  have hlive : b.start ∈ lists .live := h.holds.live ▸ List.mem_map_of_mem hb
  have hpq : Place.live ≠ .thread t (getIndex size) := nofun
  have hne : b.start ≠ 0 := (h.safe.inside b hb).1
  have hapart : ∀ r, r ≠ .live → ∀ a ∈ lists r, a ≠ b.start := by
    rintro r hr a ha rfl
    exact hr (h.apart.once r .live b.start ha hlive)
  have hperm : ((lists .live).filter (· ≠ b.start) ++ b.start :: lists (.thread t (getIndex size))).Perm
      (lists .live ++ lists (.thread t (getIndex size))) := by
    refine List.perm_middle.trans ?_
    rw [← List.cons_append]
    refine List.Perm.append_right _ ?_
    have herase := (h.apart.nodup .live).erase_eq_filter b.start
    have hfilter : (lists .live).filter (· ≠ b.start) = (lists .live).erase b.start := by
      rw [herase]
      exact List.filter_congr fun a _ => decide_not.trans (by rw [bne, beq_eq_decide])
    rw [hfilter]
    exact (List.perm_cons_erase hlive).symm
  refine h.share hpq hperm rfl rfl rfl (h.holds.move hpq ?_ ?_ ?_ (absurd rfl) (fun _ => ?_)) ?_ ?_ ?_
  · rw [moved_left hpq, h.holds.live, released_starts]
  · intro r _ hr
    cases r with
    | live | central | handed => rfl
    | thread u i => exact cache_other hr rfl
  · intro r hr _ a ha
    exact update_of_ne (hapart r hr a ha) _ _
  · show Chain _ 0 ((update s.cache t _ t).freeList (getIndex size)) _
    rw [update_self]
    show Chain _ 0 (update (s.cache t).freeList (getIndex size) b.start (getIndex size)) _
    rw [update_self]
    refine ⟨rfl, hne, ?_⟩
    show Chain (update s.central.mem b.start _) 0 (update s.central.mem b.start _ b.start) _
    rw [update_self]
    exact (h.holds.chain (.thread t (getIndex size)) nofun).frame fun a ha =>
      update_of_ne (hapart _ (by nofun) a ha) _ _
  · refine h.fits.move hpq (fun a ha => h.fits .live a (List.mem_filter.mp ha).1) fun a ha => ?_
    rcases List.mem_cons.mp ha with rfl | ha
    · exact room_ok h hb hsize hmax
    · exact h.fits (.thread t (getIndex size)) a ha
  · exact fun c hc => h.live c (List.mem_filter.mp hc).1
  · exact phases_step h.phases (phase_idle hidle) (fun u hu => update_of_ne hu _ _)
      (fun u i _ => moved_other nofun nofun) trivial

theorem split_ok {mem : Memory} {tc₀ tc : ThreadCache} {next : Phase} (h : s.Inv lists)
    (hidle : s.phase t = .idle) (hcache : s.cache t = tc₀) (hne : start ≠ 0)
    (hstart : tc₀.freeList (getIndex size) = start) (hmax : size ≤ maxByte)
    (hsplit : tc₀.split s.central.mem start size = (mem, tc, next)) :
    ∃ kept cut, s.Moves lists { s with
        central := { s.central with mem := mem }
        cache := update s.cache t tc
        phase := update s.phase t next }
        (moved lists (.thread t (getIndex size)) kept (.handed t (getIndex size)) cut) ∧
      (next = .idle ∨ ∃ node bound, next = .returning node bound (getIndex size)) ∧
      tc.SplitFrom tc₀ (getIndex size) (lists (.thread t (getIndex size))) kept := by
  subst hcache
  have hpq : Place.thread t (getIndex size) ≠ .handed t (getIndex size) := by simp
  have hchain := h.holds.chain (.thread t (getIndex size)) (by simp)
  rw [head, hstart] at hchain
  have hnil : lists (.handed t (getIndex size)) = [] := h.handed_nil (by rw [hidle]; rfl)
  obtain ⟨hsame, hshort⟩ | ⟨l₁, l₂, node, tc', next', hcut, hlist, hfree, hcount, hlength, hkept,
      hleft, hphase⟩ := ThreadCache.split_ok hchain hne (h.apart.nodup _) size
  · obtain ⟨rfl, rfl, rfl⟩ : s.central.mem = mem ∧ s.cache t = tc ∧ Phase.idle = next := by
      rw [hsame] at hsplit
      simpa only [Prod.mk.injEq] using hsplit
    rw [Function.update_eq_self, ← hidle, Function.update_eq_self]
    refine ⟨lists (.thread t (getIndex size)), lists (.handed t (getIndex size)), ?_, .inl rfl,
      .inl ⟨rfl, hshort⟩⟩
    rw [moved, Function.update_eq_self, Function.update_eq_self]
    exact ⟨h, id⟩
  · obtain ⟨rfl, rfl, rfl⟩ : update s.central.mem node 0 = mem ∧ tc' = tc ∧ next' = next := by
      rw [hcut] at hsplit
      simpa only [Prod.mk.injEq] using hsplit
    have hnode : node ∈ lists (.thread t (getIndex size)) := by
      rw [hlist]
      exact List.mem_append_left _ (List.mem_append_right _ List.mem_cons_self)
    have hperm : (l₁ ++ [node] ++ l₂).Perm
        (lists (.thread t (getIndex size)) ++ lists (.handed t (getIndex size))) := by
      rw [hnil, List.append_nil, hlist]
    have hhave : ∀ a ∈ l₁ ++ [node] ++ l₂,
        ∃ e ∈ s.extents, e.start = a ∧ (getIndex size + 1) * alignment ≤ e.size :=
      fun a ha => h.fits (.thread t (getIndex size)) a (hlist ▸ ha)
    have hnext : next' = .idle ∨ ∃ node bound, next' = .returning node bound (getIndex size) := by
      rcases hphase with hrest | ⟨start', bound, hreturning, -⟩
      · exact .inl hrest
      · exact .inr ⟨start', bound, hreturning⟩
    refine ⟨l₁ ++ [node], l₂, ?_, hnext, .inr ⟨hcount, hlength⟩⟩
    refine h.share hpq hperm rfl rfl rfl (h.holds.move hpq ?_ ?_ ?_ (fun _ => ?_) (fun _ => ?_)) ?_
      h.live ?_
    · exact h.holds.moved_live (by simp) (by simp)
    · intro r hthread hhand
      cases r with
      | live | central => rfl
      | thread u i => exact cache_other hthread hfree
      | handed u i =>
        refine phase_other hhand (fun _ _ => by rw [hidle]; rfl) fun i hi => ?_
        rcases hphase with rfl | ⟨start', bound, rfl, -⟩
        · rfl
        · exact if_neg hi
    · intro r hr _ a ha
      refine update_of_ne ?_ _ _
      rintro rfl
      exact hr (h.apart.once r _ a ha hnode)
    · show Chain _ 0 ((update s.cache t tc' t).freeList (getIndex size)) _
      rw [update_self, hfree, update_self]
      exact hkept
    · show Chain _ 0 ((update s.phase t next' t).chain (getIndex size)) _
      rw [update_self]
      exact hleft
    · exact h.fits.move hpq (fun a ha => hhave a (List.mem_append_left _ ha))
        fun a ha => hhave a (List.mem_append_right _ ha)
    · refine phases_step h.phases rfl (fun u hu => update_of_ne hu _ _)
        (fun u i hu => moved_other (by simp) (handed_ne hu)) ?_
      rcases hphase with rfl | ⟨start', bound, rfl, hstart'⟩
      · trivial
      · exact ⟨hstart', class_lt_max hmax⟩

theorem deallocate_ok (h : s.Inv lists) (hidle : s.phase t = .idle) (hb : b ∈ s.live)
    (hsize : size ≤ b.size) : ∃ lists', s.Moves lists (s.deallocateStep t b.start size) lists' ∧
      s.Effect lists (.deallocate t b.start size) (s.deallocateStep t b.start size) lists' := by
  unfold deallocateStep
  split
  · rename_i hlarge
    exact ⟨_, free_ok h hb (Nat.lt_of_lt_of_le hlarge hsize), .callers rfl rfl⟩
  · rename_i hsmall
    have hpush := push_ok h hidle hb hsize (Nat.le_of_not_lt hsmall)
    dsimp only
    split
    · rename_i hshould
      generalize hsplit : ((s.cache t).push (getIndex size) b.start).split _ b.start size = result
      obtain ⟨mem, tc, next⟩ := result
      obtain ⟨kept, cut, hcut, hnext, hcount⟩ := split_ok hpush.1 hidle (update_self t _ s.cache)
        (h.safe.inside b hb).1 (update_self _ _ _) (Nat.le_of_not_lt hsmall) hsplit
      rw [Function.update_idem] at hcut
      rw [moved_right] at hcount
      exact ⟨_, hpush.trans hcut, .split hshould rfl rfl hnext hcount⟩
    · rename_i hshould
      rw [← hidle, Function.update_eq_self]
      exact ⟨_, hpush, .pushed rfl (Bool.eq_false_iff.mpr hshould) rfl⟩

-- ---------------------------------------------------------------------------
-- returnRange, and the writes of callers
-- ---------------------------------------------------------------------------

omit [DecidableEq T] in
theorem meets_iff (h : s.Inv lists) (hphase : s.phase t = .returning start size index) :
    s.Meets (.returnRange t) ↔
      ∀ b ∈ s.carved, b.start ∉ (lists (.handed t index)).drop (max 1 size) := by
  have hchain := h.holds.chain (.handed t index) nofun
  rw [head, hphase, Phase.chain, if_pos rfl] at hchain
  rw [Meets, hphase]
  constructor
  · exact fun hmeets => hmeets _ hchain
  · intro hmeets l hl
    rwa [hl.unique hchain]

/-- What the bound does not reach is in no list any more. -/
theorem returnRange_ok (h : s.Inv lists) (hphase : s.phase t = .returning start size index) :
    ∃ lists', s.Effect lists (.returnRange t) { s with
        central := s.central.returnRange start size index
        phase := update s.phase t .idle } lists' ∧
      Inv { s with
        central := s.central.returnRange start size index
        phase := update s.phase t .idle } lists' ∧
      ((∀ b ∈ s.carved, ∃ p, b.start ∈ lists' p) → s.Meets (.returnRange t)) ∧
      (s.Covered lists → s.Meets (.returnRange t) → ∀ b ∈ s.carved, ∃ p, b.start ∈ lists' p) := by
  have hpq : Place.handed t index ≠ .central index := by simp
  have hok := h.phases t
  have hchain := h.holds.chain (.handed t index) (by simp)
  have hmeets := meets_iff h hphase
  rw [hphase] at hok
  rw [head, hphase, Phase.chain, if_pos rfl] at hchain
  have hdisjoint : ∀ a ∈ lists (.handed t index), a ∉ lists (.central index) :=
    fun a ha ha' => hpq (h.apart.once _ _ a ha ha')
  obtain ⟨last, hlast, hreturn, hnew⟩ := Central.returnRange_ok hchain hok.1 (h.apart.nodup _)
    (h.holds.chain (.central index) (by simp)) hdisjoint hok.2 size
  have hsub : ∀ a ∈ (lists (.handed t index)).take (max 1 size) ++ lists (.central index),
      a ∈ lists (.handed t index) ∨ a ∈ lists (.central index) :=
    fun a ha => (List.mem_append.mp ha).imp_left List.mem_of_mem_take
  rw [hreturn]
  refine ⟨moved lists (.handed t index) [] (.central index)
    ((lists (.handed t index)).take (max 1 size) ++ lists (.central index)), .returned rfl rfl,
    ⟨h.holds.move hpq ?_ ?_ ?_ (fun _ => ?_) (fun _ => ?_), ?_, ?_, h.live,
      h.layout.same rfl rfl rfl, ?_⟩, fun hplaced => ?_, fun hcovered hreached b hb => ?_⟩
  · exact h.holds.moved_live (by simp) (by simp)
  · intro r hhand hcentral
    have hold : ∀ i, i ≠ index → (s.phase t).chain i = 0 := by
      intro i hi
      rw [hphase]
      exact if_neg hi
    refine exchange_head start .idle ?_ ?_ ?_ hold (fun _ _ => rfl) r hcentral hhand <;> rfl
  · intro r hr _ a ha
    refine update_of_ne ?_ _ _
    rintro rfl
    exact hr (h.apart.once r _ a ha hlast)
  · show Chain _ 0 ((update s.phase t .idle t).chain index) []
    rw [update_self]
    rfl
  · show Chain _ 0 (update s.central.freeList index start index) _
    rwa [update_self]
  · refine h.apart.move hpq ?_ fun a ha => .inl (hsub a ha)
    rw [List.nil_append]
    refine List.nodup_append.mpr ⟨(h.apart.nodup _).sublist (List.take_sublist _ _),
      h.apart.nodup _, ?_⟩
    rintro a ha b hb rfl
    exact hdisjoint a (List.mem_of_mem_take ha) hb
  · refine h.fits.move hpq (by simp) fun a ha => ?_
    rcases hsub a ha with ha | ha
    · exact h.fits (.handed t index) a ha
    · exact h.fits (.central index) a ha
  · exact phases_step h.phases rfl (fun _ _ => rfl)
      (fun u i hu => moved_other (handed_ne hu) (by simp)) trivial
  · refine hmeets.mpr fun b hb hdrop => ?_
    obtain ⟨r, hr⟩ := hplaced b hb
    have hmem := List.mem_of_mem_drop hdrop
    by_cases hhand : r = .handed t index
    · subst hhand
      rw [moved_left hpq] at hr
      cases hr
    · by_cases hcentral : r = .central index
      · subst hcentral
        rw [moved_right] at hr
        rcases List.mem_append.mp hr with htake | hold
        · have hnodup := h.apart.nodup (.handed t index)
          rw [← List.take_append_drop (max 1 size) (lists (.handed t index))] at hnodup
          exact (List.nodup_append.mp hnodup).2.2 _ htake _ hdrop rfl
        · exact hdisjoint _ hmem hold
      · rw [moved_other hhand hcentral] at hr
        exact hhand (h.apart.once _ _ _ hr hmem)
  · refine held_moved hpq (fun hheld => .inr ?_) (hcovered b hb)
    rcases hheld with hheld | hheld
    · rw [← List.take_append_drop (max 1 size) (lists (.handed t index))] at hheld
      rcases List.mem_append.mp hheld with htake | hdrop
      · exact List.mem_append_left _ htake
      · exact absurd hdrop (hmeets.mp hreached b hb)
    · exact List.mem_append_right _ hheld

omit [DecidableEq T] in
theorem write_ok {mem : Memory} (h : s.Inv lists) (hb : b ∈ s.live)
    (hsame : SameOutside b.region s.central.mem mem) :
    s.Moves lists { s with central := { s.central with mem := mem } } lists := by
  refine ⟨⟨⟨h.holds.live, fun p hp => ?_⟩, h.apart, h.fits, h.live, h.layout.same rfl rfl rfl,
    h.phases⟩, id⟩
  exact (h.holds.chain p hp).frame fun a ha => hsame a (h.live_apart hb hp ha)

end MemoryPool

end MudouHttp
