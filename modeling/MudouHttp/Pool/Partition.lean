import MudouHttp.Pool.Tiles

/-!
# The page cache keeps every page once

`allocateSpan` and `deallocateSpan` between the free lists and the callers. In
every run that asks the system for ranges whose size a `size_t` can hold, what
is free and what is out are the mapped pages, each once, and no deleted Span
is ever reached.
-/

namespace MudouHttp.PageCache

open Function (update update_self update_of_ne)
open SpanHeap (Maps)
open Lib (Chain)

variable {pc pc' : PageCache} {lists : Option Nat → List (Option Nat)}

structure Kept (pc : PageCache) (lists : Option Nat → List (Option Nat)) : Prop where
  listed : Listed pc lists
  tiles : Tiles pc
  known : ∀ p, p ∈ lists none → ∀ a n, pc.place p = some (a, n) → pc.spanMap a = p

theorem spanSize_of_lt {n : Nat} (h : 4096 * n < 2 ^ 64) : spanSize n = 4096 * n := by
  unfold spanSize pageSize
  rw [Nat.mul_comm, Nat.mod_eq_of_lt h]

-- ---------------------------------------------------------------------------
-- allocateSpan
-- ---------------------------------------------------------------------------

theorem Listed.cut (h : Listed pc lists) (hi : some i ∈ lists none) (span : Span) (n : Nat) :
    ∃ lists', Listed (pc.cut i span n) lists' ∧ lists' none = lists none := by
  have hresized := h.setSpan hi { span with numPages := n }
  have hlen : (pc.setSpan i (some { span with numPages := n })).objects.length =
      pc.objects.length := List.length_set
  have hfresh := hresized.fresh { pageAddr := (span.pageAddr + spanSize n) % 2 ^ 64
                                  numPages := span.numPages - n
                                  next := pc.head (span.numPages - n) }
  have hpushed := hfresh.push (by rw [update_self]; exact List.mem_cons_self)
    (deref_append_same _ _) rfl
  rw [hlen] at hpushed
  exact ⟨_, hpushed, by rw [Lib.moved_left (by nofun), update_self, List.erase_cons_head]⟩

theorem cut_place (hd : pc.deref (some i) = .ok span) (n : Nat) (q : Option Nat) :
    (pc.cut i span n).place q = if q = some i then some (span.pageAddr, n)
      else if q = some pc.objects.length then
        some ((span.pageAddr + spanSize n) % 2 ^ 64, span.numPages - n)
      else pc.place q := by
  have hi := deref_lt hd
  have hlen : (pc.setSpan i (some { span with numPages := n })).objects.length =
      pc.objects.length := List.length_set
  have hcut : ∀ q, (pc.cut i span n).deref q =
      deref { pc.setSpan i (some { span with numPages := n }) with
        objects := (pc.setSpan i (some { span with numPages := n })).objects ++
          [some { pageAddr := (span.pageAddr + spanSize n) % 2 ^ 64
                  numPages := span.numPages - n, next := pc.head (span.numPages - n) }] } q :=
    fun q => deref_congr rfl q
  by_cases hnew : q = some pc.objects.length
  · have hne : q ≠ some i := by
      rintro rfl
      exact Nat.ne_of_lt hi (Option.some.inj hnew)
    rw [if_neg hne, if_pos hnew]
    have hd' := deref_append_same (pc.setSpan i (some { span with numPages := n }))
      ⟨(span.pageAddr + spanSize n) % 2 ^ 64, span.numPages - n, pc.head (span.numPages - n)⟩
    rw [hlen, ← hnew] at hd'
    exact place_eq ((hcut q).trans hd')
  · rw [if_neg hnew, place_congr ((hcut q).trans (deref_append_other (hlen ▸ hnew) _))]
    by_cases hqi : q = some i
    · rw [if_pos hqi, hqi]
      exact place_eq (deref_setSpan_same hi _)
    · rw [if_neg hqi]
      exact place_congr (deref_setSpan_other hqi _)

theorem Listed.lower_bound (h : Listed pc lists) {n : Nat} :
    match pc.freeSpans.find? fun entry => n ≤ entry.1 with
    | some (key, p) => n ≤ key ∧ (key, p) ∈ pc.freeSpans ∧
      ∀ k, n ≤ k → k < key → pc.head k = none
    | none => ∀ k, n ≤ k → pc.head k = none := by
  have hnone : ∀ k, (∀ p, (k, p) ∉ pc.freeSpans) → pc.head k = none := by
    intro k hk
    cases hhead : pc.head k with
    | none => rfl
    | some i => exact absurd (mem_of_head hhead) (hk _)
  cases hf : pc.freeSpans.find? fun entry => n ≤ entry.1 with
  | none =>
    intro k hk
    refine hnone k fun p hmem => ?_
    have hnot := List.find?_eq_none.mp hf _ hmem
    simp only [decide_eq_true_eq] at hnot
    exact hnot hk
  | some entry =>
    obtain ⟨key, p⟩ := entry
    obtain ⟨hle, front, back, heq, hfront⟩ := List.find?_eq_some_iff_append.mp hf
    simp only [decide_eq_true_eq] at hle
    refine ⟨hle, List.mem_of_find?_eq_some hf, fun k hk hlt => hnone k fun q hmem => ?_⟩
    rw [heq] at hmem
    rcases List.mem_append.mp hmem with hmem | hmem
    · have hnot := hfront _ hmem
      simp only [Bool.not_eq_true', decide_eq_false_iff_not] at hnot
      exact hnot hk
    · have hsorted := heq ▸ h.sorted
      rw [List.map_append, List.map_cons] at hsorted
      obtain ⟨hgt, -⟩ := List.pairwise_cons.mp (List.pairwise_append.mp hsorted).2.1
      rcases List.mem_cons.mp hmem with hmem | hmem
      · cases hmem
        exact Nat.lt_irrefl _ hlt
      · exact Nat.lt_asymm hlt (hgt k (List.mem_map.mpr ⟨_, hmem, rfl⟩))

def rest (pc : PageCache) (key : Nat) (span : Span) : List (Nat × Option Nat) :=
  match span.next with
  | some next => setList key (some next) pc.freeSpans
  | none => eraseList key pc.freeSpans

def taken (pc : PageCache) (key i : Nat) (span : Span) (n : Nat) : PageCache :=
  let popped := { pc with freeSpans := pc.rest key span }
  if span.numPages > n then popped.cut i span n else popped

def mapNew (pc : PageCache) (start n : Nat) : PageCache :=
  { pc with
    mapped := ⟨start, spanSize n⟩ :: pc.mapped
    objects := pc.objects ++ [some { pageAddr := start, numPages := n, next := none }] }

theorem taken_spanMap (pc : PageCache) (key i : Nat) (span : Span) (n : Nat) :
    (pc.taken key i span n).spanMap = pc.spanMap := by
  unfold taken
  split <;> rfl

inductive Serves (pc : PageCache) (mem : Memory) (n : Nat) : Option Addr →
    Except Fault (Memory × PageCache × Option Addr) → Prop
  | null : n ≤ key → (key, none) ∈ pc.freeSpans → Serves pc mem n memory (.error .nullPointer)
  | reuse : n ≤ key → pc.head key = some i → (∀ k, n ≤ k → k < key → pc.head k = none) →
    pc.deref (some i) = .ok span →
    Serves pc mem n memory (.ok (mem, { pc.taken key i span n with
      spanMap := update pc.spanMap span.pageAddr (some i) }, some span.pageAddr))
  | exhausted : (∀ k, n ≤ k → pc.head k = none) → Serves pc mem n none (.ok (mem, pc, none))
  | system : (∀ k, n ≤ k → pc.head k = none) → Serves pc mem n (some start)
    (.ok ((systemAlloc mem pc n (some start)).1, { pc.mapNew start n with
      spanMap := update pc.spanMap start (some pc.objects.length) }, some start))

theorem allocateSpan_serves (h : Listed pc lists) (mem : Memory) (n : Nat) (memory : Option Addr) :
    Serves pc mem n memory (pc.allocateSpan mem n memory) := by
  have hbound := h.lower_bound (n := n)
  unfold allocateSpan
  cases hf : pc.freeSpans.find? fun entry => n ≤ entry.1 with
  | none =>
    rw [hf] at hbound
    cases memory with
    | none => exact .exhausted hbound
    | some start => exact .system hbound
  | some entry =>
    obtain ⟨key, p⟩ := entry
    rw [hf] at hbound
    obtain ⟨hle, hmem, hleast⟩ := hbound
    cases p with
    | none => exact .null hle hmem
    | some i =>
      have hhead := head_of_mem h.sorted hmem
      obtain ⟨rest, hl, -⟩ := (hhead ▸ h.chain key : Chain _ none (some i) _).cons_of_ne nofun
      have hin : some i ∈ lists (some key) := hl ▸ List.mem_cons_self
      obtain ⟨span, hd⟩ := h.exists_of_mem hin
      simp only [deref_ok_iff.mp hd]
      have hserves : Serves pc mem n memory _ := .reuse hle hhead hleast hd
      rw [← taken_spanMap pc key i span n] at hserves
      exact hserves

theorem place_new (pc : PageCache) : pc.place (some pc.objects.length) = none := by
  unfold place
  cases hd : pc.deref (some pc.objects.length) with
  | error fault => rfl
  | ok span => exact absurd (deref_lt hd) (Nat.lt_irrefl _)

/-- A span handed out keeps the pages asked for; its Span object stays. -/
theorem Kept.taken (h : Kept pc lists) (hn : 1 ≤ n) (hle : n ≤ key) (hhead : pc.head key = some i)
    (hd : pc.deref (some i) = .ok span) :
    ∃ lists', Listed (pc.taken key i span n) lists' ∧ Tiles (pc.taken key i span n) ∧
      lists' none = some i :: lists none ∧
      (pc.taken key i span n).place (some i) = some (span.pageAddr, n) ∧
      ∀ q ∈ lists none, (pc.taken key i span n).place q = pc.place q := by
  obtain ⟨rest, hl, rfl, hpop⟩ := h.listed.pop hhead hd rfl
  have hin : some i ∈ lists (some span.numPages) := hl ▸ List.mem_cons_self
  have hout : Lib.moved lists none (some i :: lists none) (some span.numPages) rest none =
      some i :: lists none := Lib.moved_left (by nofun)
  have hne : ∀ q ∈ lists none, q ≠ some i := by
    rintro q hq rfl
    cases h.listed.apart.once _ _ _ hq hin
  by_cases hcut : span.numPages > n
  · have htaken : pc.taken span.numPages i span n =
        cut { pc with freeSpans := pc.rest span.numPages span } i span n := if_pos hcut
    obtain ⟨lists', hlisted, hsame⟩ := hpop.cut (hout ▸ List.mem_cons_self) span n
    have hd' : deref { pc with freeSpans := pc.rest span.numPages span } (some i) = .ok span := hd
    have hplace := cut_place hd' n
    have hnew := place_new pc
    have hstop := h.tiles.stop (place_eq hd)
    rw [htaken]
    refine ⟨lists', hlisted, ?_, hsame.trans hout, by rw [hplace, if_pos rfl], fun q hq => ?_⟩
    · refine h.tiles.split (place_eq hd) hnew hn hcut (fun q => ?_) rfl rfl
      rw [hplace, spanSize_of_lt (by omega), Nat.mod_eq_of_lt (by omega)]
      rfl
    · have hold : q ≠ some pc.objects.length := by
        rintro rfl
        exact h.listed.new_object none hq
      rw [hplace, if_neg (hne q hq), if_neg hold]
      rfl
  · have hall : span.numPages = n := by omega
    have htaken : pc.taken span.numPages i span n =
        { pc with freeSpans := pc.rest span.numPages span } := if_neg hcut
    rw [htaken]
    exact ⟨_, hpop, h.tiles.congr rfl rfl rfl, hout, hall ▸ place_eq hd, fun q _ => rfl⟩

theorem Kept.reuse (h : Kept pc lists) (hn : 1 ≤ n) (hle : n ≤ key) (hhead : pc.head key = some i)
    (hd : pc.deref (some i) = .ok span) {pc' : PageCache}
    (hpc' : pc' = { pc.taken key i span n with
      spanMap := update pc.spanMap span.pageAddr (some i) }) :
    ∃ lists', Kept pc' lists' ∧ lists' none = some i :: lists none ∧
      pc'.place (some i) = some (span.pageAddr, n) ∧ ∀ q ∈ lists none, pc'.place q = pc.place q := by
  obtain ⟨lists', hlisted, htiles, hout, hplace, hothers⟩ := h.taken hn hle hhead hd
  have htiles' := htiles.enter hplace
  rw [taken_spanMap, ← hpc'] at htiles'
  have hplaces : pc'.place = (pc.taken key i span n).place := by
    rw [hpc']
    rfl
  refine ⟨lists', ⟨?_, htiles', fun p hp a m hpm => ?_⟩, hout, hplaces ▸ hplace, hplaces ▸ hothers⟩
  · rw [hpc']
    exact ⟨hlisted.sorted, hlisted.chain, hlisted.sized, hlisted.out, hlisted.apart, hlisted.all⟩
  · have hmap : pc'.spanMap = update pc.spanMap span.pageAddr (some i) := by rw [hpc']
    rw [hmap]
    rw [hout] at hp
    rcases List.mem_cons.mp hp with rfl | hp
    · rw [hplaces, hplace] at hpm
      cases hpm
      exact update_self ..
    · have hpi : p ≠ some i := by
        rintro rfl
        exact (List.nodup_cons.mp (hout ▸ hlisted.apart.nodup none)).1 hp
      have ha : a ≠ span.pageAddr := by
        rintro rfl
        exact hpi (htiles.unique (hplaces ▸ hpm) hplace)
      rw [update_of_ne ha]
      exact h.known p hp a m (hothers p hp ▸ hplaces ▸ hpm)

theorem Kept.system {start : Nat} (h : Kept pc lists) (hn : 1 ≤ n) (hfits : 4096 * n < 2 ^ 64)
    (hmaps : Maps pc.mapped ⟨start, spanSize n⟩) {pc' : PageCache}
    (hpc' : pc' = { pc.mapNew start n with
      spanMap := update pc.spanMap start (some pc.objects.length) }) :
    ∃ lists' p, Kept pc' lists' ∧ lists' none = p :: lists none ∧ pc'.place p = some (start, n) ∧
      ∀ q ∈ lists none, pc'.place q = pc.place q := by
  have hsize : (⟨start, spanSize n⟩ : Extent) = pages start n := by
    rw [spanSize_of_lt hfits]
    exact congrArg _ (Nat.mul_comm ..)
  rw [hsize] at hmaps
  have hplace : ∀ q, pc'.place q =
      if q = some pc.objects.length then some (start, n) else pc.place q := by
    intro q
    rw [hpc']
    split
    · rename_i hq
      rw [hq]
      exact place_eq (deref_append_same pc ⟨start, n, none⟩)
    · rename_i hq
      exact place_congr (deref_append_other hq ⟨start, n, none⟩)
  have hnew : pc'.place (some pc.objects.length) = some (start, n) := by rw [hplace, if_pos rfl]
  have hothers : ∀ q ∈ lists none, pc'.place q = pc.place q := by
    intro q hq
    rw [hplace, if_neg]
    rintro rfl
    exact h.listed.new_object none hq
  have hlisted := h.listed.fresh ⟨start, n, none⟩
  have htiles : Tiles (pc.mapNew start n) := by
    refine h.tiles.grow (place_new pc) (fun q => ?_) rfl ?_ hn hmaps
    · rw [← hplace, hpc']
      rfl
    · exact congrArg (· :: pc.mapped) hsize
  have htiles' : Tiles pc' := by
    rw [hpc']
    refine htiles.enter (n := n) ?_
    rw [hpc'] at hnew
    exact hnew
  have hlisted' : Listed pc' (update lists none (some pc.objects.length :: lists none)) := by
    rw [hpc']
    exact ⟨hlisted.sorted, hlisted.chain, hlisted.sized, hlisted.out, hlisted.apart, hlisted.all⟩
  have hmap : pc'.spanMap = update pc.spanMap start (some pc.objects.length) := by rw [hpc']
  refine ⟨_, some pc.objects.length, ⟨hlisted', htiles', fun p hp a m hpm => ?_⟩, update_self ..,
    hnew, hothers⟩
  rw [hmap]
  rw [update_self] at hp
  rcases List.mem_cons.mp hp with rfl | hp
  · rw [hnew] at hpm
    cases hpm
    exact update_self ..
  · have ha : a ≠ start := by
      rintro rfl
      exact h.listed.new_object none (htiles'.unique hpm hnew ▸ hp)
    rw [update_of_ne ha]
    exact h.known p hp a m (hothers p hp ▸ hpm)

-- ---------------------------------------------------------------------------
-- deallocateSpan
-- ---------------------------------------------------------------------------

theorem Kept.relist {lists' : Option Nat → List (Option Nat)} (h : Kept pc lists)
    (hlisted : Listed pc' lists') (hplace : pc'.place = pc.place) (hmap : pc'.spanMap = pc.spanMap)
    (hmapped : pc'.mapped = pc.mapped) (hsub : lists' none ⊆ lists none) : Kept pc' lists' := by
  refine ⟨hlisted, h.tiles.congr hplace hmap hmapped, fun p hp a n hpn => ?_⟩
  rw [hmap]
  exact h.known p (hsub hp) a n (hplace ▸ hpn)

/-- What `freeSpans_` is once the span behind has been looked for, and the pages
of the span then. -/
inductive Looked (pc : PageCache) (n : Nat) :
    (behind : Option Nat) → List (Nat × Option Nat) → Nat → Prop
  | nothing : Looked pc n none pc.freeSpans n
  | unlisted : pc.deref (some j) = .ok next → pc.head next.numPages = none →
    Looked pc n (some j) (setList next.numPages none pc.freeSpans) n
  | first : pc.deref (some j) = .ok next → pc.head next.numPages = some j →
    Looked pc n (some j) (setList next.numPages next.next pc.freeSpans) (n + next.numPages)
  | further : pc.deref (some j) = .ok next → pc.head next.numPages = some k → k ≠ j →
    Looked pc n (some j) pc.freeSpans m

theorem unlink_looked (hd : pc.deref (some j) = .ok next)
    (h : pc.unlink j = .ok (pc', found)) :
    Looked pc n (some j) pc'.freeSpans (if found then n + next.numPages else n) := by
  simp only [PageCache.unlink, hd, bind, Except.bind] at h
  cases hhead : pc.head next.numPages with
  | none =>
    simp only [hhead] at h
    cases h
    exact .unlisted hd hhead
  | some k =>
    simp only [hhead] at h
    by_cases hk : k = j
    · subst hk
      simp only [if_true] at h
      cases h
      exact .first hd hhead
    · simp only [if_neg hk] at h
      have hsame : pc'.freeSpans = pc.freeSpans := by
        split at h
        · cases h
        · split at h
          · cases h
            rfl
          · split at h
            · cases h
            · cases h
              rfl
      rw [hsame]
      exact .further hd hhead hk

theorem absorb_eq (hi : pc.deref (some i) = .ok span) (hj : pc.deref (some j) = .ok nextSpan)
    (nextAddr : Addr) : pc.absorb i j nextAddr = .ok { (pc.setSpan i (some { span with
      numPages := (span.numPages + nextSpan.numPages) % 2 ^ 64 })).setSpan j none with
        spanMap := update pc.spanMap nextAddr none } := by
  unfold absorb
  rw [hi, hj]
  rfl

/-- One span grows and the other is deleted. -/
theorem place_absorbed (hd : pc.deref (some i) = .ok span) (hij : some j ≠ some i) (n : Nat)
    (q : Option Nat) :
    ((pc.setSpan i (some { span with numPages := n })).setSpan j none).place q =
      if q = some i then some (span.pageAddr, n) else if q = some j then none else pc.place q := by
  by_cases hqj : q = some j
  · rw [if_neg (hqj ▸ hij), if_pos hqj, hqj]
    cases hnone : place _ (some j) with
    | none => rfl
    | some held =>
      obtain ⟨s, hs, -⟩ := place_some hnone
      exact absurd hs (deref_deleted _ j)
  · rw [if_neg hqj, place_congr (deref_setSpan_other hqj _)]
    by_cases hqi : q = some i
    · rw [if_pos hqi, hqi]
      exact place_eq (deref_setSpan_same (deref_lt hd) _)
    · rw [if_neg hqi, place_congr (deref_setSpan_other hqi _)]

theorem Kept.merge {a n m : Nat} (h : Kept pc lists) (hi : some i ∈ lists none)
    (hpi : pc.place (some i) = some (a, n)) (hpj : pc.place (some j) = some (a + 4096 * n, m))
    {pc₁ : PageCache} (hplaces : pc₁.place = pc.place) (hmap : pc₁.spanMap = pc.spanMap)
    (hmapped : pc₁.mapped = pc.mapped) {k : Nat} (hj : some j ∈ lists (some k))
    (hlisted : Listed pc₁ (Lib.moved lists none (some j :: lists none) (some k) l)) :
    ∃ pc' lists', pc₁.absorb i j (a + 4096 * n) = .ok pc' ∧ Kept pc' lists' ∧
      pc'.freeSpans = pc₁.freeSpans ∧
      lists' none = lists none ∧ pc'.place (some i) = some (a, n + m) ∧
      ∀ q ∈ lists none, q ≠ some i → pc'.place q = pc.place q := by
  have hij : some j ≠ some i := by
    intro hji
    cases h.listed.apart.once _ _ _ (hji ▸ hi) hj
  obtain ⟨span, hd, rfl, rfl⟩ := place_some (hplaces.symm ▸ hpi)
  obtain ⟨nextSpan, hnext, haddr, rfl⟩ := place_some (hplaces.symm ▸ hpj)
  have hfits : (span.numPages + nextSpan.numPages) % 2 ^ 64 =
      span.numPages + nextSpan.numPages := by
    have hstop := h.tiles.stop hpj
    exact Nat.mod_eq_of_lt (by omega)
  have habsorb := absorb_eq hd hnext (span.pageAddr + 4096 * span.numPages)
  rw [hfits] at habsorb
  have hmoved : Lib.moved lists none (some j :: lists none) (some k) l none =
      some j :: lists none := Lib.moved_left (by nofun)
  have hresized := hlisted.setSpan (hmoved ▸ List.mem_cons_of_mem _ hi)
    { span with numPages := span.numPages + nextSpan.numPages }
  have hdeleted := hresized.delete (hmoved ▸ List.mem_cons_self)
  rw [hmoved, List.erase_cons_head] at hdeleted
  obtain ⟨pc', hpc'⟩ : ∃ pc' : PageCache, pc' = { (pc₁.setSpan i (some { span with
      numPages := span.numPages + nextSpan.numPages })).setSpan j none with
        spanMap := update pc₁.spanMap (span.pageAddr + 4096 * span.numPages) none } := ⟨_, rfl⟩
  rw [← hpc'] at habsorb
  have hderef : ∀ q, pc'.deref q = ((pc₁.setSpan i (some { span with
      numPages := span.numPages + nextSpan.numPages })).setSpan j none).deref q :=
    fun q => deref_congr (by rw [hpc']) q
  have hplace : ∀ q, pc'.place q =
      if q = some i then some (span.pageAddr, span.numPages + nextSpan.numPages)
      else if q = some j then none else pc.place q := by
    intro q
    rw [place_congr (hderef q), place_absorbed hd hij, hplaces]
  have hspanMap : pc'.spanMap =
      update pc.spanMap (span.pageAddr + 4096 * span.numPages) none := by rw [hpc', hmap]
  have htiles : Tiles pc' :=
    h.tiles.merge hpi hpj hplace hspanMap (by rw [hpc']; exact hmapped)
  have hne : ∀ q ∈ lists none, q ≠ some j := by
    rintro q hq rfl
    cases h.listed.apart.once _ _ _ hq hj
  have hothers : ∀ q ∈ lists none, q ≠ some i → pc'.place q = pc.place q := by
    intro q hq hqi
    rw [hplace, if_neg hqi, if_neg (hne q hq)]
  have hlisted' : Listed pc' (update (Lib.moved lists none (some j :: lists none) (some k) l) none
      (lists none)) := by
    rw [hpc']
    exact ⟨hdeleted.sorted, hdeleted.chain, hdeleted.sized, hdeleted.out, hdeleted.apart,
      hdeleted.all⟩
  refine ⟨pc', _, habsorb, ⟨hlisted', htiles, fun p hp b s hps => ?_⟩, by rw [hpc']; rfl,
    update_self .., by rw [hplace, if_pos rfl], hothers⟩
  rw [update_self] at hp
  have hb : b ≠ span.pageAddr + 4096 * span.numPages := by
    rintro rfl
    by_cases hpi' : p = some i
    · rw [hpi', hplace, if_pos rfl] at hps
      obtain ⟨hn, -⟩ := h.tiles.shape _ _ _ hpi
      simp only [Option.some.injEq, Prod.mk.injEq] at hps
      exact Nat.ne_of_lt (Nat.lt_add_of_pos_right (Nat.mul_pos (by decide) hn)) hps.1
    · rw [hothers p hp hpi'] at hps
      exact hne p hp (h.tiles.unique hps hpj)
  rw [hspanMap, update_of_ne hb]
  by_cases hpi' : p = some i
  · rw [hpi', hplace, if_pos rfl] at hps
    cases hps
    exact hpi' ▸ h.known _ hi _ _ hpi
  · exact h.known p hp b s (hothers p hp hpi' ▸ hps)

theorem Kept.coalesce {a n : Nat} (h : Kept pc lists) (hi : some i ∈ lists none)
    (hpi : pc.place (some i) = some (a, n)) :
    ∃ pc' lists' m, pc.coalesce i ((a + spanSize n) % 2 ^ 64) = .ok pc' ∧ Kept pc' lists' ∧
      Looked pc n (pc.spanMap ((a + spanSize n) % 2 ^ 64)) pc'.freeSpans m ∧
      lists' none = lists none ∧ pc'.place (some i) = some (a, m) ∧
      ∀ q ∈ lists none, q ≠ some i → pc'.place q = pc.place q := by
  have hstop := h.tiles.stop hpi
  rw [spanSize_of_lt (by omega), Nat.mod_eq_of_lt hstop]
  unfold PageCache.coalesce
  cases hentry : pc.spanMap (a + 4096 * n) with
  | none => exact ⟨pc, lists, n, rfl, h, .nothing, rfl, hpi, fun q _ _ => rfl⟩
  | some j =>
    obtain ⟨m, hpj⟩ := h.tiles.entries _ _ hentry
    obtain ⟨span, hd, -, rfl⟩ := place_some hpj
    obtain ⟨pc₁, found, hunlink, hplaces, hmap, hmapped, hspec⟩ := h.listed.unlink hd
    have hlooked := unlink_looked (n := n) hd hunlink
    simp only [hunlink, bind, Except.bind]
    cases found with
    | false =>
      exact ⟨pc₁, lists, n, rfl, h.relist hspec.2 hplaces hmap hmapped (List.Subset.refl _),
        hlooked, rfl, hplaces ▸ hpi, fun q _ _ => by rw [hplaces]⟩
    | true =>
      obtain ⟨hj, l, hlisted⟩ := hspec
      obtain ⟨pc', lists', habsorb, hkept, hsame, hout, hplace, hothers⟩ :=
        h.merge hi hpi hpj hplaces hmap hmapped hj hlisted
      exact ⟨pc', lists', n + span.numPages, habsorb, hkept, hsame ▸ hlooked, hout, hplace,
        hothers⟩

theorem Kept.insert (h : Kept pc lists) (hi : some i ∈ lists none)
    (hpi : pc.place (some i) = some (a, n)) :
    ∃ pc' lists', pc.insert i = .ok pc' ∧ Kept pc' lists' ∧
      pc'.freeSpans = setList n (some i) pc.freeSpans ∧
      lists' none = (lists none).erase (some i) ∧ pc'.place = pc.place := by
  obtain ⟨span, hd, -, rfl⟩ := place_some hpi
  have hlinked := h.listed.setSpan hi { span with next := pc.head span.numPages }
  have hplace := place_setSpan hd { span with next := pc.head span.numPages } rfl rfl
  have hpushed := hlinked.push hi (deref_setSpan_same (deref_lt hd) _) rfl
  have hout : Lib.moved lists none ((lists none).erase (some i)) (some span.numPages)
      (some i :: lists (some span.numPages)) none = (lists none).erase (some i) :=
    Lib.moved_left (by nofun)
  refine ⟨_, _, ?_, h.relist hpushed hplace rfl rfl ?_, rfl, hout, hplace⟩
  · rw [PageCache.insert, hd]
    rfl
  · rw [hout]
    exact List.erase_subset

theorem Kept.deallocateSpan {a n : Nat} (h : Kept pc lists) (hi : some i ∈ lists none)
    (hpi : pc.place (some i) = some (a, n)) :
    ∃ pc' lists', pc.deallocateSpan a n = .ok pc' ∧ Kept pc' lists' ∧
      (∃ entries m, Looked pc n (pc.spanMap ((a + spanSize n) % 2 ^ 64)) entries m ∧
        pc'.freeSpans = setList m (some i) entries) ∧
      lists' none = (lists none).erase (some i) ∧
      ∀ q ∈ (lists none).erase (some i), pc'.place q = pc.place q := by
  obtain ⟨pc₁, lists₁, m, hcoalesce, hkept₁, hlooked, hout₁, hpi₁, hothers⟩ := h.coalesce hi hpi
  obtain ⟨pc', lists', hinsert, hkept, hentries, hout, hplace⟩ :=
    hkept₁.insert (hout₁ ▸ hi) hpi₁
  refine ⟨pc', lists', ?_, hkept, ⟨_, m, hlooked, hentries⟩, hout₁ ▸ hout, fun q hq => ?_⟩
  · rw [PageCache.deallocateSpan, h.known _ hi a n hpi]
    simp only [hcoalesce, bind, Except.bind]
    exact hinsert
  · obtain ⟨hqi, hq⟩ := (h.listed.apart.nodup none).mem_erase_iff.mp hq
    rw [hplace, hothers q hq hqi]

end MudouHttp.PageCache
