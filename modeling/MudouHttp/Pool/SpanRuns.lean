import Mathlib.Data.List.Nodup
import MudouHttp.Pool.Partition

/-!
# Runs of the page cache

The invariant of the heap over any sequence of calls, and `Partitioned` out of
it: `spans_partition_iff` is about every run whose requests fit a `size_t`.
-/

namespace MudouHttp

open Lib (Chain)

namespace PageCache

def placed (pc : PageCache) (p : Option Nat) : Addr × Nat := (pc.place p).getD (0, 0)

def range (pc : PageCache) (p : Option Nat) : Extent := pages (pc.placed p).1 (pc.placed p).2

theorem placed_eq {pc : PageCache} (h : pc.place p = some x) : pc.placed p = x := by
  rw [placed, h]
  rfl

variable {pc : PageCache} {lists : Option Nat → List (Option Nat)}

theorem walk_spans {rounds : Nat} {head : Option Nat} (hchain : Chain pc.link none head l)
    (hok : ∀ p ∈ l, ∃ span, pc.deref p = .ok span) (hlen : l.length ≤ rounds) :
    (pc.walk rounds head).map .ok = l.map pc.deref := by
  induction rounds generalizing head l with
  | zero =>
    obtain rfl := List.length_eq_zero_iff.mp (Nat.le_zero.mp hlen)
    rfl
  | succ rounds ih =>
    cases l with
    | nil =>
      obtain rfl : head = none := hchain
      rfl
    | cons p l =>
      obtain ⟨rfl, -, htail⟩ := hchain
      obtain ⟨span, hd⟩ := hok head List.mem_cons_self
      rw [link_eq hd] at htail
      have hrest := ih htail (fun q hq => hok q (List.mem_cons_of_mem _ hq))
        (Nat.le_of_succ_le_succ hlen)
      simp only [walk, hd, List.map_cons, hrest]

def freeIn (pc : PageCache) (lists : Option Nat → List (Option Nat)) : List (Option Nat) :=
  pc.freeSpans.flatMap fun entry => lists (some entry.1)

theorem Listed.free_spans (h : Listed pc lists) :
    pc.free.map .ok = (pc.freeIn lists).map pc.deref := by
  rw [free, freeIn, List.map_flatMap, List.map_flatMap]
  refine List.flatMap_congr fun entry hentry => ?_
  obtain ⟨k, p⟩ := entry
  have hchain := h.chain k
  rw [head_of_mem h.sorted hentry] at hchain
  exact walk_spans hchain (fun q hq => h.exists_of_mem hq) (h.length_le _)

theorem Listed.free_range (h : Listed pc lists) :
    pc.free.map (fun span => pages span.pageAddr span.numPages) =
      (pc.freeIn lists).map pc.range := by
  have hrange : pc.range = (fun r : Except Fault Span =>
      r.toOption.elim (pages 0 0) fun span => pages span.pageAddr span.numPages) ∘ pc.deref := by
    funext p
    simp only [range, placed, place, Function.comp_apply]
    cases pc.deref p <;> rfl
  rw [hrange, ← List.map_map, ← h.free_spans, List.map_map]
  rfl

theorem Listed.mem_freeIn (h : Listed pc lists) : p ∈ pc.freeIn lists ↔ ∃ k, p ∈ lists (some k) := by
  constructor
  · intro hp
    obtain ⟨entry, -, hmem⟩ := List.mem_flatMap.mp hp
    exact ⟨_, hmem⟩
  · rintro ⟨k, hp⟩
    have hhead := Lib.Chain.head_ne (h.chain k) (List.ne_nil_of_mem hp)
    obtain ⟨i, hi⟩ := Option.ne_none_iff_exists'.mp hhead
    exact List.mem_flatMap.mpr ⟨_, mem_of_head hi, hp⟩

theorem Listed.all_nodup (h : Listed pc lists) : (lists none ++ pc.freeIn lists).Nodup := by
  refine List.nodup_append.mpr ⟨h.apart.nodup none, ?_, ?_⟩
  · refine List.nodup_flatMap.mpr ⟨fun entry _ => h.apart.nodup _, ?_⟩
    refine (List.pairwise_map.mp h.sorted).imp fun {e f} hlt p hp hq => ?_
    exact Nat.ne_of_lt hlt (Option.some.inj (h.apart.once _ _ p hp hq))
  · rintro p hp q hq rfl
    obtain ⟨k, hk⟩ := h.mem_freeIn.mp hq
    cases h.apart.once _ _ p hp hk

theorem Listed.mem_all (h : Listed pc lists) :
    p ∈ lists none ++ pc.freeIn lists ↔ ∃ a n, pc.place p = some (a, n) := by
  rw [List.mem_append, h.mem_freeIn]
  constructor
  · rintro (hp | ⟨k, hp⟩)
    · exact h.out p hp
    · obtain ⟨a, ha⟩ := h.sized k p hp
      exact ⟨a, k, ha⟩
  · rintro ⟨a, n, hp⟩
    obtain ⟨holder, hheld⟩ := h.all p a n hp
    cases holder with
    | none => exact .inl hheld
    | some k => exact .inr ⟨k, hheld⟩

end PageCache

namespace SpanHeap

open PageCache (pageSize spanSize)

structure Kept (s : SpanHeap) (lists : Option Nat → List (Option Nat)) : Prop where
  cache : s.pageCache.Kept lists
  live : s.live.Perm ((lists none).map s.pageCache.placed)

theorem new_kept : Kept new fun _ => [] := by
  have hnone : ∀ p a n, new.pageCache.place p ≠ some (a, n) := by
    intro p a n h
    cases p <;> cases h
  refine ⟨⟨⟨.nil, fun k => rfl, nofun, nofun, ⟨fun _ => .nil, nofun⟩, ?_⟩, ⟨nofun, ?_, ?_, ?_, nofun⟩,
    nofun⟩, .refl _⟩
  · exact fun p a n h => absurd h (hnone p a n)
  · exact fun p a n h => absurd h (hnone p a n)
  · exact fun p q a n b m _ h => absurd h (hnone p a n)
  · exact fun x => ⟨fun ⟨p, a, n, h, _⟩ => absurd h (hnone p a n), nofun⟩

/-- An outstanding span is that of an object on no free list. -/
theorem Kept.held (h : Kept s lists) (ha : (ptr, n) ∈ s.live) :
    ∃ p ∈ lists none, s.pageCache.place p = some (ptr, n) := by
  obtain ⟨p, hp, hpn⟩ := List.mem_map.mp (h.live.mem_iff.mp ha)
  obtain ⟨a, m, hplace⟩ := h.cache.listed.out p hp
  rw [PageCache.placed_eq hplace] at hpn
  cases hpn
  exact ⟨p, hp, hplace⟩

theorem Kept.partitioned (h : Kept s lists) : Partitioned s := by
  have hlisted := h.cache.listed
  have hparts : s.parts.Perm ((lists none ++ s.pageCache.freeIn lists).map s.pageCache.range) := by
    rw [parts, hlisted.free_range, List.map_append]
    refine List.Perm.append_right _ ?_
    have hlive := h.live.map fun held : Addr × Nat => pages held.1 held.2
    rw [List.map_map] at hlive
    exact hlive
  have hrange : ∀ p a n, s.pageCache.place p = some (a, n) → s.pageCache.range p = pages a n := by
    intro p a n hp
    rw [PageCache.range, PageCache.placed_eq hp]
  refine ⟨?_, fun x => ?_, ?_, ?_, ?_⟩
  · rw [hparts.pairwise_iff (R := Extent.Apart) (fun {e f} hef => Or.symm hef), List.pairwise_map]
    refine hlisted.all_nodup.imp_of_mem fun {p q} hp hq hne => ?_
    obtain ⟨a, n, hpa⟩ := hlisted.mem_all.mp hp
    obtain ⟨b, m, hqb⟩ := hlisted.mem_all.mp hq
    rw [hrange p a n hpa, hrange q b m hqb]
    exact h.cache.tiles.apart p q a n b m hne hpa hqb
  · rw [← h.cache.tiles.union x]
    constructor
    · rintro ⟨e, he, hx⟩
      obtain ⟨p, hp, rfl⟩ := List.mem_map.mp (hparts.mem_iff.mp he)
      obtain ⟨a, n, hpa⟩ := hlisted.mem_all.mp hp
      exact ⟨p, a, n, hpa, hrange p a n hpa ▸ hx⟩
    · rintro ⟨p, a, n, hpa, hx⟩
      refine ⟨s.pageCache.range p, hparts.mem_iff.mpr (List.mem_map_of_mem ?_), ?_⟩
      · exact hlisted.mem_all.mpr ⟨a, n, hpa⟩
      · exact (hrange p a n hpa).symm ▸ hx
  · intro e he
    obtain ⟨p, hp, rfl⟩ := List.mem_map.mp (hparts.mem_iff.mp he)
    obtain ⟨a, n, hpa⟩ := hlisted.mem_all.mp hp
    rw [hrange p a n hpa]
    exact (h.cache.tiles.shape p a n hpa).2.2
  · intro a i hi
    obtain ⟨n, hn⟩ := h.cache.tiles.entries a i hi
    obtain ⟨span, hd, ha, -⟩ := PageCache.place_some hn
    exact ⟨span, hd, ha⟩
  · intro a n hmem
    obtain ⟨p, hp, hb⟩ := h.held hmem
    rw [h.cache.known p hp a n hb]
    obtain ⟨span, hd, -, hn⟩ := PageCache.place_some hb
    exact ⟨span, hd, hn⟩

-- ---------------------------------------------------------------------------
-- Steps
-- ---------------------------------------------------------------------------

def Fits : SpanEvent → Prop
  | .allocate numPages memory => memory ≠ none → numPages * pageSize < 2 ^ 64
  | .deallocate _ _ => True

theorem Kept.allocated {s' : SpanHeap} {lists' : Option Nat → List (Option Nat)} (h : Kept s lists)
    (hcache : s'.pageCache.Kept lists') (hout : lists' none = p :: lists none)
    (hplace : s'.pageCache.place p = some (a, n))
    (hothers : ∀ q ∈ lists none, s'.pageCache.place q = s.pageCache.place q)
    (hlive : s'.live = (a, n) :: s.live) : Kept s' lists' := by
  refine ⟨hcache, ?_⟩
  rw [hlive, hout, List.map_cons, PageCache.placed_eq hplace]
  refine List.Perm.cons _ (h.live.trans (List.Perm.of_eq (List.map_congr_left fun q hq => ?_)))
  rw [PageCache.placed, PageCache.placed, hothers q hq]

theorem Kept.allocate (h : Kept s lists) (ha : Admits s (.allocate n memory))
    (hf : Fits (.allocate n memory)) :
    s.step (.allocate n memory) = .error .nullPointer ∨
    ∃ s' lists', s.step (.allocate n memory) = .ok s' ∧ Kept s' lists' := by
  obtain ⟨hn, hmaps⟩ := ha
  have hserves := PageCache.allocateSpan_serves h.cache.listed s.mem n memory
  simp only [step]
  generalize s.pageCache.allocateSpan s.mem n memory = result at hserves
  cases hserves with
  | null _ _ => exact .inl rfl
  | reuse hle hhead _ hd =>
    obtain ⟨lists', hkept, hout, hplace, hothers⟩ := h.cache.reuse hn hle hhead hd rfl
    exact .inr ⟨_, lists', rfl, h.allocated hkept hout hplace hothers rfl⟩
  | exhausted _ => exact .inr ⟨_, lists, rfl, h.cache, h.live⟩
  | @system start _ =>
    have hfits : n * 4096 < 2 ^ 64 := hf nofun
    rw [Nat.mul_comm] at hfits
    obtain ⟨lists', p, hkept, hout, hplace, hothers⟩ :=
      h.cache.system hn hfits (hmaps start rfl) rfl
    exact .inr ⟨_, lists', rfl, h.allocated hkept hout hplace hothers rfl⟩

theorem Kept.deallocate (h : Kept s lists) (ha : Admits s (.deallocate ptr n)) :
    ∃ s' lists', s.step (.deallocate ptr n) = .ok s' ∧ Kept s' lists' ∧ ∃ i entries m,
      PageCache.Looked s.pageCache n (s.pageCache.spanMap ((ptr + spanSize n) % 2 ^ 64)) entries m ∧
        s'.pageCache.freeSpans = PageCache.setList m (some i) entries := by
  obtain ⟨p, hp, hplace⟩ := h.held ha
  obtain ⟨span, hd, -⟩ := PageCache.place_some hplace
  obtain ⟨i, rfl, -⟩ := PageCache.deref_ok hd
  obtain ⟨pc', lists', hdealloc, hkept, ⟨entries, m, hlooked, hentries⟩, hout, hothers⟩ :=
    h.cache.deallocateSpan hp hplace
  refine ⟨{ s with pageCache := pc', live := s.live.erase (ptr, n) }, lists', ?_, ⟨hkept, ?_⟩, i,
    entries, m, hlooked, hentries⟩
  · simp only [step, hdealloc]
    rfl
  · have hfirst : s.live.Perm ((ptr, n) :: ((lists none).erase (some i)).map s.pageCache.placed) := by
      refine h.live.trans ?_
      have hperm := (List.perm_cons_erase hp).map s.pageCache.placed
      rwa [List.map_cons, PageCache.placed_eq hplace] at hperm
    have hrest := (List.perm_cons_erase ha).symm.trans hfirst
    rw [hout]
    refine hrest.cons_inv.trans (List.Perm.of_eq (List.map_congr_left fun q hq => ?_))
    rw [PageCache.placed, PageCache.placed, hothers q hq]

theorem Kept.step (h : Kept s lists) (ha : Admits s e) (hf : Fits e) :
    s.step e = .error .nullPointer ∨ ∃ s' lists', s.step e = .ok s' ∧ Kept s' lists' := by
  cases e with
  | allocate n memory => exact h.allocate ha hf
  | deallocate ptr n =>
    obtain ⟨s', lists', hs, hkept, -⟩ := h.deallocate ha
    exact .inr ⟨s', lists', hs, hkept⟩

theorem Kept.step_ok (h : Kept s lists) (ha : Admits s e) (hf : Fits e) (hs : s.step e = .ok s') :
    ∃ lists', Kept s' lists' := by
  rcases h.step ha hf with hfault | ⟨t, lists', ht, hkept⟩
  · rw [hs] at hfault
    cases hfault
  · rw [hs] at ht
    cases ht
    exact ⟨lists', hkept⟩

theorem Kept.allocate_ok (h : Kept s lists) (hs : s.step (.allocate n memory) = .ok s') :
    ∃ mem pc ptr, PageCache.Serves s.pageCache s.mem n memory (.ok (mem, pc, ptr)) ∧
      s' = { mem := mem, pageCache := pc
             live := match ptr with
               | none => s.live
               | some start => (start, n) :: s.live } := by
  have hserves := PageCache.allocateSpan_serves h.cache.listed s.mem n memory
  simp only [SpanHeap.step] at hs
  cases hresult : s.pageCache.allocateSpan s.mem n memory with
  | error f =>
    rw [hresult] at hs
    cases hs
  | ok result =>
    rw [hresult] at hs hserves
    cases hs
    exact ⟨_, _, _, hserves, rfl⟩

/-- A range whose size wraps is smaller than the span made of it. -/
theorem Kept.overflow (h : Kept s lists) (ha : Admits s e) (hs : s.step e = .ok s')
    (hp : Partitioned s') : Fits e := by
  cases e with
  | deallocate ptr n => trivial
  | allocate n memory =>
    intro hmemory
    refine Classical.byContradiction fun hbig => ?_
    have hbytes : 2 ^ 64 ≤ 4096 * n := Nat.mul_comm n 4096 ▸ Nat.le_of_not_lt hbig
    obtain ⟨mem, pc, ptr, hserves, rfl⟩ := h.allocate_ok hs
    cases hserves with
    | @reuse key i span _ hle hhead _ hd =>
      obtain ⟨rest, -, hk, -⟩ := h.cache.listed.pop hhead hd rfl
      have hstop := h.cache.tiles.stop (PageCache.place_eq hd)
      omega
    | exhausted _ => exact hmemory rfl
    | @system start _ =>
      have hmaps := ha.2 start rfl
      have hhas : (pages start n).Has (start + 4096 * n - 1) := PageCache.has_pages.mpr (by omega)
      obtain ⟨r, hr, hx⟩ := (hp.union _).mp ⟨_, List.mem_append_left _ List.mem_cons_self, hhas⟩
      have hstop : r.stop < 2 ^ 64 := by
        rcases List.mem_cons.mp hr with rfl | hr
        · exact hmaps.stop
        · exact h.cache.tiles.bounded r hr
      have hlast := hx.2
      have hpos : 0 < start := hmaps.start
      omega

theorem admits_first (hn : 1 ≤ n) (hpos : 0 < spanSize n) (hstop : 4096 + spanSize n < 2 ^ 64) :
    Admits new (.allocate n (some 4096)) := by
  refine ⟨hn, fun start hstart => ?_⟩
  cases hstart
  exact ⟨hpos, Nat.succ_pos _, ⟨1, rfl⟩, hstop, nofun⟩

def Allowed (s : SpanHeap) (e : SpanEvent) : Prop := Admits s e ∧ Fits e

theorem kept_of_reach (h : Lib.Reach step Allowed new s) : ∃ lists, Kept s lists := by
  refine h.invariant (P := fun s => ∃ lists, Kept s lists) (fun s e s' hk ha hs => ?_)
    ⟨_, new_kept⟩
  obtain ⟨lists, hk⟩ := hk
  exact hk.step_ok ha.1 ha.2 hs

/-- In every run whose requests fit, the spans partition the mapped pages and
only a null Span can be dereferenced by mistake; a request that does not fit
and is served breaks the partition. -/
theorem spans_partition_iff (s : SpanHeap) (h : Lib.Reach step Allowed new s) :
    Partitioned s ∧ (∀ e f, Allowed s e → s.step e = .error f → f = .nullPointer) ∧
      ∀ e s', Admits s e → s.step e = .ok s' → (Partitioned s' ↔ Fits e) := by
  obtain ⟨lists, hk⟩ := kept_of_reach h
  refine ⟨hk.partitioned, fun e f ha hf => ?_, fun e s' ha hs => ⟨hk.overflow ha hs, fun hf => ?_⟩⟩
  · rcases hk.step ha.1 ha.2 with hfault | ⟨t, lists', ht, -⟩
    · rw [hf] at hfault
      exact Except.error.inj hfault
    · rw [hf] at ht
      cases ht
  · obtain ⟨lists', hkept⟩ := hk.step_ok ha hf hs
    exact hkept.partitioned

/-- Two pages come and go, and one of them is handed out again. -/
theorem spans_partition_iff_example :
    ∃ s, Lib.Reach step Allowed new s ∧ s.live = [(4096, 1)] ∧ Partitioned s := by
  have hrun : ∃ s, Lib.runs step new
      [.allocate 2 (some 4096), .deallocate 4096 2, .allocate 1 none] = .ok s ∧
      s.live = [(4096, 1)] := ⟨_, rfl, rfl⟩
  obtain ⟨s, hs, hlive⟩ := hrun
  have hfirst : Admits new (.allocate 2 (some 4096)) :=
    admits_first (by decide) (by decide) (by decide)
  have hallowed : Lib.AllMeet step Allowed new
      [.allocate 2 (some 4096), .deallocate 4096 2, .allocate 1 none] :=
    ⟨⟨hfirst, fun _ => by decide⟩, ⟨List.mem_singleton_self _, trivial⟩,
      ⟨⟨by decide, nofun⟩, fun h => absurd rfl h⟩, trivial⟩
  have hreach := Lib.Reach.start.runs _ hallowed hs
  exact ⟨s, hreach, hlive, (spans_partition_iff s hreach).1⟩

/-- For 2^52 + 1 pages `mmap` is asked for one. -/
theorem wrapped_span : ¬∀ s, Lib.Reach step Admits new s → Partitioned s := by
  intro h
  have hadmits : Admits new (.allocate (2 ^ 52 + 1) (some 4096)) :=
    admits_first (by decide) (by decide) (by decide)
  have hrun : ∃ s, new.step (.allocate (2 ^ 52 + 1) (some 4096)) = .ok s := ⟨_, rfl⟩
  obtain ⟨s, hs⟩ := hrun
  have hfits := new_kept.overflow hadmits hs (h s (.next .start hadmits hs))
  exact absurd (hfits nofun) (by decide)

end SpanHeap

end MudouHttp
