import Mathlib.Data.List.Pairwise
import MudouHttp.Lib.Reach
import MudouHttp.Pool.Chains

/-!
# Who holds which block

A block is with a caller, in a list of a thread or of the central cache, or in
the chain a thread has taken out of one list and not put into another yet.
`Inv` says what holds of the lists, and of the memory they lie in, in every
state reached; the rules after it say what a move of blocks keeps of it.
-/

namespace MudouHttp

open Function (update update_self update_of_ne)
open Lib (Segment Chain moved moved_left moved_right moved_other)

inductive Place (T : Type)
  | live
  | thread (t : T) (index : Nat)
  | central (index : Nat)
  | handed (t : T) (index : Nat)
  deriving DecidableEq

/-- Blocks in a list have the size of its class at least. -/
def Place.room : Place T → Nat
  | .live => 0
  | .thread _ index | .central index | .handed _ index => (index + 1) * alignment

/-- What is left to do is about a chain that can be stored. -/
def Phase.Ok (tc : ThreadCache) (handed : Nat → List Addr) : Phase → Prop
  | .idle => True
  | .fetched index batchNum _ start size =>
    start ≠ 0 ∧ tc.freeList index = 0 ∧ (handed index).length ≤ batchNum ∧
      max size alignment ≤ (index + 1) * alignment
  | .returning start _ index => start ≠ 0 ∧ index < freeListSizeMax

/-- What the caller of `allocate` may use. -/
def Extent.region (b : Extent) : Extent := ⟨b.start, max b.size alignment⟩

namespace MemoryPool

variable {T : Type} [DecidableEq T]

def regions (s : MemoryPool T) : List Extent := s.central.pageCache.mapped ++ s.mallocs

def extents (s : MemoryPool T) : List Extent := s.carved ++ s.mallocs

def head (s : MemoryPool T) : Place T → Addr
  | .live => 0
  | .thread t index => (s.cache t).freeList index
  | .central index => s.central.freeList index
  | .handed t index => (s.phase t).chain index

/-- The lists are what the caches' pointers lead to. -/
structure Holds (s : MemoryPool T) (lists : Place T → List Addr) : Prop where
  live : lists .live = s.live.map Extent.start
  chain : ∀ p, p ≠ .live → Chain s.central.mem 0 (s.head p) (lists p)

-- ---------------------------------------------------------------------------
-- What the pool is to guarantee, and what of its environment
-- ---------------------------------------------------------------------------

/-- Callers have room enough, and to themselves. -/
structure Safe (s : MemoryPool T) : Prop where
  inside : ∀ b ∈ s.live, b.start ≠ 0 ∧ ∃ r ∈ s.regions, b.region.Within r
  apart : s.live.Pairwise fun b c => b.region.Apart c.region

/-- Every block ever carved out of a span is in one place, and there once. A
thread has none in its hands but during its calls. -/
def Conserved (s : MemoryPool T) : Prop :=
  ∃ lists, s.Holds lists ∧ ∀ b ∈ s.carved,
    ∃ p, (lists p).count b.start = 1 ∧ ∀ q, b.start ∈ lists q → q = p

def asked (size : Nat) : Nat :=
  if atLeastOne size > maxByte then size
  else Central.numPages ((getIndex (atLeastOne size) + 1) * alignment) * PageCache.pageSize

def Fresh (s : MemoryPool T) (e : Extent) : Prop :=
  0 < e.start ∧ ∀ r ∈ s.regions, e.Apart r

/-- New regions are apart from the others, blocks are given back once and with
no larger size than asked for, and written only by those who hold them. -/
def Admits (s : MemoryPool T) : PoolEvent T → Prop
  | .allocate _ size memory => ∀ start ∈ memory, s.Fresh ⟨start, asked size⟩
  | .store _ => True
  | .deallocate _ ptr size => ∃ b ∈ s.live, b.start = ptr ∧ size ≤ b.size
  | .returnRange _ => True
  | .write block mem => block ∈ s.live ∧ SameOutside block.region s.central.mem mem

/-- `returnRange` is given a chain whose blocks it reaches: at most as many as
its bound says, or one, up to the last block that was carved out of a span. -/
def Meets (s : MemoryPool T) : PoolEvent T → Prop
  | .returnRange t =>
    match s.phase t with
    | .returning start size _ => ∀ l, Chain s.central.mem 0 start l →
        ∀ b ∈ s.carved, b.start ∉ l.drop (max 1 size)
    | _ => True
  | _ => True

/-- No `allocate` of more than a fixed-size span gets a new span. -/
def Sized (s : MemoryPool T) : PoolEvent T → Prop
  | .allocate t size memory =>
    size ≤ spanPages * PageCache.pageSize ∨ maxByte < size ∨
      (s.cache t).freeList (getIndex size) ≠ 0 ∨ s.central.freeList (getIndex size) ≠ 0 ∨
      memory = none
  | _ => True

-- ---------------------------------------------------------------------------
-- The invariant
-- ---------------------------------------------------------------------------

structure Layout (s : MemoryPool T) : Prop where
  apart : s.extents.Pairwise Extent.Apart
  sound : ∀ e ∈ s.extents, 0 < e.start ∧ 8 ≤ e.size ∧ (8 ∣ e.size ∨ maxByte < e.size)
  carved : ∀ e ∈ s.carved, e.size ≤ maxByte ∧ ∃ r ∈ s.central.pageCache.mapped, e.Within r
  regions : s.regions.Pairwise Extent.Apart
  noSpans : s.central.pageCache.freeSpans = []

def Fits (es : List Extent) (lists : Place T → List Addr) : Prop :=
  ∀ p a, a ∈ lists p → ∃ e ∈ es, e.start = a ∧ p.room ≤ e.size

structure Inv (s : MemoryPool T) (lists : Place T → List Addr) : Prop where
  holds : s.Holds lists
  apart : Lib.Apart lists
  fits : Fits s.extents lists
  live : ∀ b ∈ s.live, ∃ e ∈ s.extents, e.start = b.start ∧ max b.size alignment ≤ e.size
  layout : s.Layout
  phases : ∀ t, (s.phase t).Ok (s.cache t) fun index => lists (.handed t index)

def Covered (s : MemoryPool T) (lists : Place T → List Addr) : Prop :=
  ∀ b ∈ s.carved, ∃ p, b.start ∈ lists p

/-- The blocks are in `lists'` afterwards, and none is lost. -/
def Moves (s : MemoryPool T) (lists : Place T → List Addr) (s' : MemoryPool T)
    (lists' : Place T → List Addr) : Prop :=
  s'.Inv lists' ∧ (s.Covered lists → s'.Covered lists')

inductive Effect (s : MemoryPool T) (lists : Place T → List Addr) :
    PoolEvent T → MemoryPool T → (Place T → List Addr) → Prop
  | callers : s'.cache = s.cache → s'.phase = s.phase →
    Effect s lists e s' (update lists .live l)
  | popped : lists (.thread t index) = ptr :: rest →
    s'.cache = update s.cache t ((s.cache t).pop s.central.mem index) → s'.phase = s.phase →
    Effect s lists (.allocate t size memory) s' (moved lists (.thread t index) rest .live l)
  | refilled : s'.cache = s.cache →
    s'.phase = update s.phase t (.fetched index batchNum realIncrease start size) →
    chain.length ≤ 64 →
    (s.Sized (.allocate t size memory) ∧ realIncrease = chain.length ∨
      ¬s.Sized (.allocate t size memory) ∧ realIncrease = 0 ∧ chain.length = 1) →
    Effect s lists (.allocate t size memory) s'
      (moved lists (.central index) kept (.handed t index) chain)
  | stored : s.phase t = .fetched index batchNum realIncrease start size →
    lists (.handed t index) = start :: rest → lists (.thread t index) = [] →
    s'.cache = update s.cache t
      ((s.cache t).store s.central.mem index batchNum realIncrease start) →
    s'.phase = update s.phase t .idle →
    Effect s lists (.store t) s'
      (moved (moved lists (.thread t index) rest (.handed t index) [start]) (.handed t index) []
        .live l)
  | pushed : s'.cache = update s.cache t ((s.cache t).push index ptr) →
    ((s.cache t).push index ptr).shouldReturnToCentralCache index = false →
    s'.phase = s.phase →
    Effect s lists (.deallocate t ptr size) s'
      (moved lists .live l (.thread t index) (ptr :: lists (.thread t index)))
  | split : ((s.cache t).push index ptr).shouldReturnToCentralCache index = true →
    s'.cache = update s.cache t tc → s'.phase = update s.phase t next →
    (next = .idle ∨ ∃ node bound, next = .returning node bound index) →
    tc.SplitFrom ((s.cache t).push index ptr) index (ptr :: lists (.thread t index)) kept →
    Effect s lists (.deallocate t ptr size) s'
      (moved (moved lists .live l (.thread t index) (ptr :: lists (.thread t index)))
        (.thread t index) kept (.handed t index) cut)
  | returned : s'.cache = s.cache → s'.phase = update s.phase t .idle →
    Effect s lists (.returnRange t) s' (moved lists (.handed t index) [] (.central index) l)

end MemoryPool

-- ---------------------------------------------------------------------------
-- Extents
-- ---------------------------------------------------------------------------

namespace Extent

theorem Apart.symm {e f : Extent} (h : e.Apart f) : f.Apart e := Or.symm h

instance : Std.Symm Apart := ⟨fun _ _ => Apart.symm⟩

theorem Apart.shorten {e f d : Extent} (h : e.Apart f) (hstart : d.start = e.start)
    (hsize : d.size ≤ e.size) : d.Apart f := by
  unfold Apart stop at *
  omega

theorem Apart.within {e f d : Extent} (h : e.Apart f) (hd : d.Within e) : d.Apart f := by
  unfold Apart Within stop at *
  omega

theorem Within.shorten {e f d : Extent} (h : e.Within f) (hstart : d.start = e.start)
    (hsize : d.size ≤ e.size) : d.Within f := by
  unfold Within stop at *
  omega

theorem Apart.start_ne {e f : Extent} (h : e.Apart f) (he : 0 < e.size) (hf : 0 < f.size) :
    e.start ≠ f.start := by
  unfold Apart stop at h
  omega

end Extent

-- ---------------------------------------------------------------------------
-- Moves
-- ---------------------------------------------------------------------------

namespace MemoryPool

variable {T : Type} {s s' : MemoryPool T} {lists : Place T → List Addr}
  {p q : Place T}

theorem Holds.unique {lists' : Place T → List Addr} (h : s.Holds lists) (h' : s.Holds lists') :
    lists = lists' := by
  funext p
  by_cases hp : p = .live
  · rw [hp, h.live, h'.live]
  · exact (h.chain p hp).unique (h'.chain p hp)

section

variable [DecidableEq T]

/-- The lists of two places change; the memory, where the others lie, does not. -/
theorem Holds.move (h : s.Holds lists) (hpq : p ≠ q)
    (hlive : moved lists p l q l' .live = s'.live.map Extent.start)
    (hhead : ∀ r, r ≠ p → r ≠ q → s'.head r = s.head r)
    (hmem : ∀ r, r ≠ p → r ≠ q → ∀ a ∈ lists r, s'.central.mem a = s.central.mem a)
    (hp : p ≠ .live → Chain s'.central.mem 0 (s'.head p) l)
    (hq : q ≠ .live → Chain s'.central.mem 0 (s'.head q) l') : s'.Holds (moved lists p l q l') := by
  refine ⟨hlive, fun r hr => ?_⟩
  by_cases hrp : r = p
  · subst hrp
    rw [moved_left hpq]
    exact hp hr
  · by_cases hrq : r = q
    · subst hrq
      rw [moved_right]
      exact hq hr
    · rw [moved_other hrp hrq, hhead r hrp hrq]
      exact (h.chain r hr).frame (hmem r hrp hrq)

theorem Holds.moved_live (h : s.Holds lists) (hp : .live ≠ p) (hq : .live ≠ q) :
    moved lists p l q l' .live = s.live.map Extent.start :=
  (moved_other hp hq).trans h.live

theorem Fits.move {es : List Extent} (h : Fits es lists) (hpq : p ≠ q)
    (hp : ∀ a ∈ l, ∃ e ∈ es, e.start = a ∧ p.room ≤ e.size)
    (hq : ∀ a ∈ l', ∃ e ∈ es, e.start = a ∧ q.room ≤ e.size) : Fits es (moved lists p l q l') := by
  intro r a ha
  by_cases hrp : r = p
  · subst hrp
    rw [moved_left hpq] at ha
    exact hp a ha
  · by_cases hrq : r = q
    · subst hrq
      rw [moved_right] at ha
      exact hq a ha
    · rw [moved_other hrp hrq] at ha
      exact h r a ha

end

theorem Fits.mono {es es' : List Extent} (h : Fits es lists) (hes : ∀ e ∈ es, e ∈ es') :
    Fits es' lists := by
  intro p a ha
  obtain ⟨e, he, hfit⟩ := h p a ha
  exact ⟨e, hes e he, hfit⟩

theorem phases_step [DecidableEq T] {lists' : Place T → List Addr} {next : Phase}
    (h : ∀ u, (s.phase u).Ok (s.cache u) fun index => lists (.handed u index))
    (hphase : s'.phase = update s.phase t next) (hcache : ∀ u, u ≠ t → s'.cache u = s.cache u)
    (hlists : ∀ u index, u ≠ t → lists' (.handed u index) = lists (.handed u index))
    (ht : next.Ok (s'.cache t) fun index => lists' (.handed t index)) (u : T) :
    (s'.phase u).Ok (s'.cache u) fun index => lists' (.handed u index) := by
  by_cases hu : u = t
  · subst hu
    rwa [hphase, update_self]
  · rw [hphase, update_of_ne hu, hcache u hu]
    simp only [hlists u _ hu]
    exact h u

theorem phase_idle [DecidableEq T] (hidle : s.phase t = .idle) :
    s.phase = update s.phase t .idle := by
  rw [← hidle, Function.update_eq_self]

theorem Inv.handed_nil (h : s.Inv lists) (hhead : (s.phase t).chain index = 0) :
    lists (.handed t index) = [] := by
  have hchain := h.holds.chain (.handed t index) (by simp only [ne_eq, reduceCtorEq, not_false_iff])
  rw [head, hhead] at hchain
  exact hchain.of_nil

theorem Inv.word_apart (h : s.Inv lists) {e : Extent} (he : ∀ f ∈ s.extents, f.Apart e)
    (ha : a ∈ lists p) : Extent.Apart ⟨a, 8⟩ e := by
  obtain ⟨f, hf, rfl, -⟩ := h.fits p a ha
  exact (he f hf).shorten rfl (h.layout.sound f hf).2.1

theorem Layout.inside (h : s.Layout) (he : e ∈ s.extents) : ∃ r ∈ s.regions, e.Within r := by
  rcases List.mem_append.mp he with hc | hm
  · obtain ⟨-, r, hr, hin⟩ := h.carved e hc
    exact ⟨r, List.mem_append_left _ hr, hin⟩
  · exact ⟨e, List.mem_append_right _ hm, Nat.le_refl _, Nat.le_refl _⟩

theorem Layout.fresh_apart (h : s.Layout) (hf : s.Fresh f) (he : e ∈ s.extents) : e.Apart f := by
  obtain ⟨r, hr, hin⟩ := h.inside he
  exact ((hf.2 r hr).symm).within hin

theorem Inv.fresh_notMem (h : s.Inv lists) {f : Extent} (hf : s.Fresh f) {a : Nat}
    (hstart : f.start ≤ a) (hstop : a < f.stop) (r : Place T) : a ∉ lists r := by
  intro ha
  have hapart := h.word_apart (fun e he => h.layout.fresh_apart hf he) ha
  unfold Extent.Apart Extent.stop at *
  dsimp only at hapart
  omega

theorem Inv.blocks_notMem {start size : Nat} (h : s.Inv lists)
    (hf : s.Fresh (Central.spanFor start size)) (hsize : 0 < size) :
    ∀ a ∈ (blocks start size).map Extent.start, ∀ r, a ∉ lists r := by
  intro a ha r
  obtain ⟨b, hb, rfl⟩ := List.mem_map.mp ha
  obtain ⟨hbsize, hle, hstop⟩ := blocks_within hsize hb
  refine h.fresh_notMem hf hle (Nat.lt_of_lt_of_le ?_ hstop) r
  exact Nat.lt_add_of_pos_right (hbsize ▸ hsize)

theorem Layout.malloc {e : Extent} (h : s.Layout) (hf : s.Fresh e) (hsize : maxByte < e.size) :
    Layout { s with live := live', mallocs := e :: s.mallocs } := by
  refine ⟨?_, fun d hd => ?_, h.carved, ?_, h.noSpans⟩
  · exact (List.pairwise_middle Extent.Apart.symm).mpr
      (List.pairwise_cons.mpr ⟨fun d hd => (h.fresh_apart hf hd).symm, h.apart⟩)
  · rcases List.mem_cons.mp (List.perm_middle.mem_iff.mp hd) with rfl | hd
    · exact ⟨hf.1, Nat.le_of_lt (Nat.lt_of_le_of_lt (by decide) hsize), .inr hsize⟩
    · exact h.sound d hd
  · exact (List.pairwise_middle Extent.Apart.symm).mpr
      (List.pairwise_cons.mpr ⟨hf.2, h.regions⟩)

theorem Layout.free (h : s.Layout) (keep : Extent → Bool) :
    Layout { s with live := live', mallocs := s.mallocs.filter keep } := by
  have hsub : (s.mallocs.filter keep).Sublist s.mallocs := List.filter_sublist
  refine ⟨h.apart.sublist ((List.Sublist.refl _).append hsub), fun e he => h.sound e ?_, h.carved,
    h.regions.sublist ((List.Sublist.refl _).append hsub), h.noSpans⟩
  exact ((List.Sublist.refl _).append hsub).subset he

theorem Layout.span {start size : Nat} (h : s.Layout)
    (hf : s.Fresh (Central.spanFor start size)) (hpos : 0 < size) (hdvd : 8 ∣ size)
    (hmax : size ≤ maxByte) (hcarved : s'.carved = blocks start size ++ s.carved)
    (hmallocs : s'.mallocs = s.mallocs)
    (hmapped : s'.central.pageCache.mapped =
      Central.spanFor start size :: s.central.pageCache.mapped)
    (hspans : s'.central.pageCache.freeSpans = []) : s'.Layout := by
  have hextents : s'.extents = blocks start size ++ s.extents := by
    rw [extents, extents, hcarved, hmallocs, List.append_assoc]
  have hregions : s'.regions = Central.spanFor start size :: s.regions := by
    rw [MemoryPool.regions, MemoryPool.regions, hmapped, hmallocs, List.cons_append]
  refine ⟨hextents ▸ List.pairwise_append.mpr ⟨blocks_apart start size, h.apart, ?_⟩, ?_, ?_,
    hregions ▸ List.pairwise_cons.mpr ⟨hf.2, h.regions⟩, hspans⟩
  · intro b hb e he
    exact ((h.fresh_apart hf he).symm).within (blocks_within hpos hb).2
  · rw [hextents]
    intro e he
    rcases List.mem_append.mp he with hb | he
    · obtain ⟨rfl, hle, -⟩ := blocks_within hpos hb
      exact ⟨Nat.lt_of_lt_of_le hf.1 hle, Nat.le_of_dvd hpos hdvd, .inl hdvd⟩
    · exact h.sound e he
  · rw [hcarved, hmapped]
    intro b hb
    rcases List.mem_append.mp hb with hb | hb
    · obtain ⟨rfl, hin⟩ := blocks_within hpos hb
      exact ⟨hmax, _, List.mem_cons_self, hin⟩
    · obtain ⟨hle, r, hr, hin⟩ := h.carved b hb
      exact ⟨hle, r, List.mem_cons_of_mem _ hr, hin⟩

theorem Layout.eq_of_start (h : s.Layout) (he : e ∈ s.extents) (hf : f ∈ s.extents)
    (hstart : e.start = f.start) : e = f := by
  by_contra hne
  obtain ⟨he0, he8, -⟩ := h.sound e he
  obtain ⟨hf0, hf8, -⟩ := h.sound f hf
  exact (h.apart.forall he hf hne).start_ne (by omega) (by omega) hstart

theorem Layout.same (h : s.Layout) (hcarved : s'.carved = s.carved)
    (hmallocs : s'.mallocs = s.mallocs) (hpages : s'.central.pageCache = s.central.pageCache) :
    s'.Layout := by
  have hextents : s'.extents = s.extents := by rw [extents, extents, hcarved, hmallocs]
  have hregions : s'.regions = s.regions := by
    rw [MemoryPool.regions, MemoryPool.regions, hpages, hmallocs]
  refine ⟨hextents ▸ h.apart, hextents ▸ h.sound, ?_, hregions ▸ h.regions, hpages ▸ h.noSpans⟩
  rw [hcarved, hpages]
  exact h.carved

/-- Two places share out the blocks they had. -/
theorem Inv.share [DecidableEq T] (h : s.Inv lists) (hpq : p ≠ q)
    (hperm : (l ++ l').Perm (lists p ++ lists q)) (hcarved : s'.carved = s.carved)
    (hmallocs : s'.mallocs = s.mallocs) (hpages : s'.central.pageCache = s.central.pageCache)
    (hholds : s'.Holds (moved lists p l q l')) (hfits : Fits s.extents (moved lists p l q l'))
    (hlive : ∀ b ∈ s'.live, ∃ e ∈ s.extents, e.start = b.start ∧ max b.size alignment ≤ e.size)
    (hphases : ∀ t, (s'.phase t).Ok (s'.cache t) fun i => moved lists p l q l' (.handed t i)) :
    s.Moves lists s' (moved lists p l q l') := by
  have hextents : s'.extents = s.extents := by rw [extents, extents, hcarved, hmallocs]
  refine ⟨⟨hholds, h.apart.share hpq hperm, hextents ▸ hfits,
    hextents ▸ hlive, h.layout.same hcarved hmallocs hpages, hphases⟩, fun hcovered b hb => ?_⟩
  refine Lib.held_moved hpq (fun hheld => ?_) (hcovered b (hcarved ▸ hb))
  exact List.mem_append.mp (hperm.mem_iff.mpr (List.mem_append.mpr hheld))

theorem Inv.live_apart (h : s.Inv lists) (hb : b ∈ s.live) (hp : p ≠ .live) (ha : a ∈ lists p) :
    Extent.Apart ⟨a, 8⟩ b.region := by
  obtain ⟨e, he, hstart, hroom⟩ := h.live b hb
  obtain ⟨f, hf, rfl, -⟩ := h.fits p a ha
  have hlive : b.start ∈ lists .live := h.holds.live ▸ List.mem_map_of_mem hb
  have hne : f ≠ e := by
    rintro rfl
    exact hp (h.apart.once p .live b.start (hstart ▸ ha) hlive)
  have hword : Extent.Apart ⟨f.start, 8⟩ e :=
    (h.layout.apart.forall hf he hne).shorten rfl (h.layout.sound f hf).2.1
  have hregion : b.region.Apart ⟨f.start, 8⟩ := hword.symm.shorten hstart.symm hroom
  exact hregion.symm

theorem Inv.safe (h : s.Inv lists) : s.Safe := by
  refine ⟨fun b hb => ?_, ?_⟩
  · obtain ⟨e, he, hstart, hroom⟩ := h.live b hb
    obtain ⟨r, hr, hin⟩ := h.layout.inside he
    have hpos := (h.layout.sound e he).1
    exact ⟨by omega, r, hr, hin.shorten hstart.symm hroom⟩
  · have hnodup := h.apart.nodup .live
    rw [h.holds.live, List.Nodup, List.pairwise_map] at hnodup
    refine hnodup.imp_of_mem fun {b c} hb hc hne => ?_
    obtain ⟨e, he, hstart, hroom⟩ := h.live b hb
    obtain ⟨f, hf, hstart', hroom'⟩ := h.live c hc
    have hapart : e.Apart f := h.layout.apart.forall he hf (by
      rintro rfl
      exact hne (hstart.symm.trans hstart'))
    have hb' : b.region.Apart f := hapart.shorten hstart.symm hroom
    have hc' : c.region.Apart b.region := hb'.symm.shorten hstart'.symm hroom'
    exact hc'.symm

/-- A block not lost is in one place: no two lists share one. -/
theorem Inv.conserved_iff [DecidableEq T] (h : s.Inv lists) : s.Conserved ↔ s.Covered lists := by
  constructor
  · rintro ⟨lists', hholds, hone⟩ b hb
    obtain ⟨p, hcount, -⟩ := hone b hb
    refine ⟨p, ?_⟩
    rw [h.holds.unique hholds]
    exact List.count_pos_iff.mp (by omega)
  · intro hcovered
    refine ⟨lists, h.holds, fun b hb => ?_⟩
    obtain ⟨p, hp⟩ := hcovered b hb
    exact ⟨p, List.count_eq_one_of_mem (h.apart.nodup p) hp,
      fun q hq => h.apart.once q p b.start hq hp⟩

end MemoryPool

end MudouHttp
