import MudouHttp.Lib.Chain
import MudouHttp.Pool.MemoryPool

/-!
# The chains of the caches

What the loops of the two caches do to a chain of blocks: `take` and `last`
walk a prefix of it, `splitNode` finds a node, `link` and `carve` make chains
out of a fresh span.
-/

namespace MudouHttp

open Function (update update_self update_of_ne)
open Lib (Segment Chain segment_append)

theorem PageCache.allocateSpan_fresh {pc : PageCache} (h : pc.freeSpans = []) (mem : Memory)
    (start : Addr) (hsize : numPages * pageSize < 2 ^ 64) : ∃ pageCache : PageCache,
      pc.allocateSpan mem numPages (some start) = .ok
        (fun a => if Extent.Apart ⟨a, 8⟩ ⟨start, numPages * pageSize⟩ then mem a else 0,
          pageCache, some start) ∧
      pageCache.freeSpans = [] ∧
      pageCache.mapped = ⟨start, numPages * pageSize⟩ :: pc.mapped := by
  have hspan : spanSize numPages = numPages * pageSize := Nat.mod_eq_of_lt hsize
  unfold allocateSpan systemAlloc
  rw [h, hspan]
  exact ⟨_, rfl, rfl, rfl⟩

theorem PageCache.allocateSpan_none {pc : PageCache} (h : pc.freeSpans = []) (mem : Memory)
    (numPages : Nat) : pc.allocateSpan mem numPages none = .ok (mem, pc, none) := by
  unfold allocateSpan
  rw [h]
  rfl

-- ---------------------------------------------------------------------------
-- Size classes and the blocks of a span
-- ---------------------------------------------------------------------------

theorem class_fits (size : Nat) : max size alignment ≤ (getIndex size + 1) * alignment := by
  unfold getIndex alignment
  omega

theorem class_le (hsize : size ≤ n) (hn : 8 ≤ n) (hdvd : 8 ∣ n) :
    (getIndex size + 1) * alignment ≤ n := by
  unfold getIndex alignment
  omega

theorem class_lt_max (hsize : size ≤ maxByte) : getIndex size < freeListSizeMax := by
  unfold getIndex alignment freeListSizeMax maxByte alignment at *
  omega

theorem MemoryPool.getIndex_atLeastOne (size : Nat) : getIndex (atLeastOne size) = getIndex size := by
  unfold atLeastOne
  split
  · rename_i hzero
    rw [hzero]
    rfl
  · rfl

namespace Central

/-- Where `n` blocks of a span start, from the `i`th on. -/
def starts (start size i n : Nat) : List Addr := (List.range' i n).map fun k => start + k * size

theorem mem_starts {start size : Nat} (ha : a ∈ starts start size i n) :
    ∃ k, i ≤ k ∧ k < i + n ∧ a = start + k * size := by
  obtain ⟨k, hk, rfl⟩ := List.mem_map.mp ha
  obtain ⟨hi, hn⟩ := List.mem_range'_1.mp hk
  exact ⟨k, hi, hn, rfl⟩

theorem starts_append (start size i m n : Nat) :
    starts start size i m ++ starts start size (i + m) n = starts start size i (m + n) := by
  rw [starts, starts, starts, ← List.map_append, ← List.range'_append_1]

end Central

namespace MemoryPool

theorem blocks_eq (start size : Nat) :
    blocks start size = (List.range (max 1 (Central.totalBlocks size))).map
      fun k => ⟨start + k * size, size⟩ := by
  unfold blocks
  split
  · rename_i hzero
    rw [hzero]
    simp only [Nat.max_zero, List.range_one, List.map_cons, List.map_nil, Nat.zero_mul, Nat.add_zero]
  · rename_i hpos
    rw [Nat.max_eq_right (Nat.one_le_iff_ne_zero.mpr hpos)]

theorem blocks_starts (start size : Nat) : (blocks start size).map Extent.start =
    Central.starts start size 0 (max 1 (Central.totalBlocks size)) := by
  rw [blocks_eq, List.map_map, Central.starts, List.range_eq_range']
  rfl

theorem blocks_apart (start size : Nat) : (blocks start size).Pairwise Extent.Apart := by
  rw [blocks_eq, List.pairwise_map]
  refine List.pairwise_lt_range.imp fun {j k} hlt => .inl ?_
  have hnext : (j + 1) * size ≤ k * size := Nat.mul_le_mul_right size hlt
  rw [Nat.add_mul, Nat.one_mul] at hnext
  show start + j * size + size ≤ start + k * size
  omega

theorem blocks_within {start size : Nat} (hpos : 0 < size) (hb : b ∈ blocks start size) :
    b.size = size ∧ b.Within ⟨start, Central.numPages size * PageCache.pageSize⟩ := by
  rw [blocks_eq] at hb
  obtain ⟨k, hk, rfl⟩ := List.mem_map.mp hb
  have hlt := List.mem_range.mp hk
  refine ⟨rfl, Nat.le_add_right _ _, ?_⟩
  have hpages : (k + 1) * size ≤ Central.numPages size * PageCache.pageSize := by
    obtain hzero | hsome := Nat.eq_zero_or_pos (Central.totalBlocks size)
    · obtain rfl : k = 0 := by omega
      unfold Central.numPages PageCache.pageSize spanPages
      split <;> omega
    · have hspan : (k + 1) * size ≤ spanPages * PageCache.pageSize :=
        Nat.le_trans (Nat.mul_le_mul_right size (show k + 1 ≤ Central.totalBlocks size by omega))
          (Nat.div_mul_le_self _ _)
      have hle : size ≤ spanPages * PageCache.pageSize :=
        Nat.le_trans (Nat.le_mul_of_pos_left size (Nat.succ_pos k)) hspan
      rwa [Central.numPages, if_pos hle]
  rw [Nat.add_mul, Nat.one_mul] at hpages
  show start + k * size + size ≤ start + Central.numPages size * PageCache.pageSize
  omega

end MemoryPool

namespace Central

theorem take_ok {mem : Memory} (h : Chain mem 0 current l) (n prev count : Nat) :
    ∃ next, take mem n prev current count =
        ((l.take n).getLast?.getD prev, next, count + min n l.length) ∧
      Segment mem 0 current (l.take n) next ∧ Chain mem 0 next (l.drop n) := by
  induction n generalizing current l prev count with
  | zero => exact ⟨current, by simp [take], rfl, h⟩
  | succ n ih =>
    cases l with
    | nil =>
      obtain rfl : current = 0 := h
      exact ⟨0, by simp [take], rfl, rfl⟩
    | cons a l =>
      obtain ⟨rfl, ha, hl⟩ := h
      obtain ⟨next, htake, hseg, hrest⟩ := ih hl current (count + 1)
      refine ⟨next, ?_, ⟨rfl, ha, hseg⟩, hrest⟩
      rw [take, if_pos ha, htake, List.take_succ_cons, List.getLast?_cons, List.length_cons,
        Nat.succ_min_succ, Option.getD_some, Nat.add_right_comm, Nat.add_assoc]

theorem last_ok {mem : Memory} (h : Chain mem 0 node l) (hne : l ≠ []) (n : Nat) :
    ∃ init, l.take (n + 1) = init ++ [last mem n node] := by
  induction n generalizing node l with
  | zero =>
    obtain ⟨rest, rfl, -⟩ := h.cons_of_ne (h.head_ne hne)
    exact ⟨[], rfl⟩
  | succ n ih =>
    obtain ⟨rest, rfl, hrest⟩ := h.cons_of_ne (h.head_ne hne)
    rw [last]
    split
    · rename_i hmore
      have hne' : rest ≠ [] := by
        rintro rfl
        exact hmore hrest
      obtain ⟨init, hinit⟩ := ih hrest hne'
      exact ⟨node :: init, by rw [List.take_succ_cons, hinit, List.cons_append]⟩
    · rename_i hend
      obtain rfl : rest = [] := (not_not.mp hend ▸ hrest : Chain mem 0 0 rest).of_nil
      exact ⟨[], rfl⟩

theorem link_other {start size : Nat} (ha : ∀ k, i ≤ k → k < i + n → a ≠ start + k * size)
    (mem : Memory) : link start size n (i + 1) mem a = mem a := by
  induction n generalizing i mem with
  | zero => rfl
  | succ n ih =>
    rw [link, ih (fun k hk hlt => ha k (by omega) (by omega)), Nat.add_sub_cancel]
    exact update_of_ne (ha i (Nat.le_refl i) (by omega)) _ _

theorem blocks_inj {start size j k : Nat} (hsize : 0 < size)
    (h : start + j * size = start + k * size) : j = k :=
  Nat.eq_of_mul_eq_mul_right hsize (Nat.add_left_cancel h)

theorem link_ok {start size : Nat} (hstart : 0 < start) (hsize : 0 < size) (n i : Nat)
    (mem : Memory) : Segment (link start size n (i + 1) mem) 0 (start + i * size)
      ((List.range' i n).map fun k => start + k * size) (start + (i + n) * size) := by
  induction n generalizing i mem with
  | zero => rfl
  | succ n ih =>
    refine ⟨rfl, Nat.ne_of_gt (Nat.add_pos_left hstart _), ?_⟩
    have hhead : link start size (n + 1) (i + 1) mem (start + i * size) = start + (i + 1) * size := by
      rw [link, link_other, Nat.add_sub_cancel, update_self]
      intro k hk _ heq
      have := blocks_inj hsize heq
      omega
    rw [hhead, ← Nat.add_assoc, Nat.add_right_comm i n 1]
    exact ih (i + 1) _

/-- A chain of adjacent blocks, the last one linked to nothing. -/
theorem chain_link {start size : Nat} (hstart : 0 < start) (hsize : 0 < size) (n i : Nat)
    (mem : Memory) :
    Chain (update (link start size n (i + 1) mem) (start + (i + n) * size) 0) 0 (start + i * size)
      ((List.range' i (n + 1)).map fun k => start + k * size) := by
  have hseg := link_ok hstart hsize n i mem
  have hlast : Segment (link start size n (i + 1) mem) 0 (start + i * size)
      ((List.range' i n).map (fun k => start + k * size) ++ [start + (i + n) * size])
      (link start size n (i + 1) mem (start + (i + n) * size)) :=
    segment_append.mpr ⟨_, hseg, rfl, Nat.ne_of_gt (Nat.add_pos_left hstart _), rfl⟩
  have hnew : start + (i + n) * size ∉ (List.range' i n).map fun k => start + k * size := by
    intro hmem
    obtain ⟨k, hk, heq⟩ := List.mem_map.mp hmem
    have := blocks_inj hsize heq
    have := List.mem_range'_1.mp hk
    omega
  have hrange : List.range' i (n + 1) = List.range' i n ++ [i + n] := by
    rw [List.range'_concat, Nat.one_mul]
  rw [hrange, List.map_append]
  exact hlast.relink hnew 0

theorem carve_handed {start size : Nat} (hstart : 0 < start) (hsize : 0 < size) {mem : Memory}
    (hzero : mem start = 0) (n : Nat) :
    Chain (if n + 1 > 1 then update (link start size n 1 mem) (start + n * size) 0 else mem)
      0 start (starts start size 0 (n + 1)) := by
  split
  · have hchain := chain_link hstart hsize n 0 mem
    rwa [Nat.zero_mul, Nat.add_zero, Nat.zero_add] at hchain
  · obtain rfl : n = 0 := by omega
    refine ⟨?_, ?_, ?_⟩ <;> simp only [Nat.zero_mul, Nat.add_zero]
    · exact Nat.ne_of_gt hstart
    · exact hzero

theorem carve_kept {start size : Nat} (hstart : 0 < start) (hsize : 0 < size) (i n : Nat)
    (mem : Memory) :
    Chain (update (link start size n (i + 1) mem) (start + (i + n) * size) 0) 0 (start + i * size)
        (starts start size i (n + 1)) ∧
      ∀ a, a ∉ starts start size i (n + 1) →
        update (link start size n (i + 1) mem) (start + (i + n) * size) 0 a = mem a := by
  refine ⟨chain_link hstart hsize n i mem, fun a ha => ?_⟩
  have hne : ∀ k, i ≤ k → k < i + (n + 1) → a ≠ start + k * size := by
    rintro k hi hn rfl
    exact ha (List.mem_map.mpr ⟨k, List.mem_range'_1.mpr ⟨hi, hn⟩, rfl⟩)
  rw [update_of_ne (hne (i + n) (by omega) (by omega))]
  exact link_other (fun k hi hn => hne k hi (by omega)) mem

theorem carve_other (start size n : Nat) (mem : Memory)
    (ha : a ∉ starts start size 0 (n + 1)) :
    (if n + 1 > 1 then update (link start size n 1 mem) (start + n * size) 0 else mem) a =
      mem a := by
  split
  · have hne : ∀ k, k < n + 1 → a ≠ start + k * size := by
      rintro k hk rfl
      exact ha (List.mem_map.mpr ⟨k, List.mem_range'_1.mpr ⟨k.zero_le, by omega⟩, rfl⟩)
    rw [update_of_ne (hne n (by omega))]
    exact link_other (fun k _ hn => hne k (by omega)) mem
  · rfl

/-- Of a span the first `i` blocks are handed out, `n` more kept behind `head`. -/
structure Carved (mem : Memory) (start size : Nat) (head : Addr) (i n : Nat) : Prop where
  handed : Chain mem 0 start (starts start size 0 i)
  kept : Chain mem 0 head (starts start size i n)
  all : i + n = max 1 (totalBlocks size)

theorem Carved.starts_eq {mem : Memory} {start size : Nat}
    (h : Carved mem start size next i n) :
    starts start size 0 i ++ starts start size i n =
      (MemoryPool.blocks start size).map Extent.start := by
  rw [MemoryPool.blocks_starts, ← h.all, ← starts_append, Nat.zero_add]

theorem Carved.block {mem : Memory} {start size : Nat} (h : Carved mem start size next i n)
    (hpos : 0 < size) (ha : a ∈ starts start size 0 i ∨ a ∈ starts start size i n) :
    ∃ b ∈ MemoryPool.blocks start size, b.start = a ∧ size ≤ b.size := by
  rw [← List.mem_append, h.starts_eq] at ha
  obtain ⟨b, hb, rfl⟩ := List.mem_map.mp ha
  exact ⟨b, hb, rfl, Nat.le_of_eq (MemoryPool.blocks_within hpos hb).1.symm⟩

theorem Carved.placed {mem : Memory} {start size : Nat} (h : Carved mem start size next i n)
    (hb : b ∈ MemoryPool.blocks start size) :
    b.start ∈ starts start size 0 i ∨ b.start ∈ starts start size i n := by
  rw [← List.mem_append, h.starts_eq]
  exact List.mem_map_of_mem hb

theorem carve_ok (c : Central) (hstart : 0 < start) (hzero : c.mem start = 0)
    (hempty : c.freeList index = 0) (hbatch : 0 < batchNum) :
    ∃ (i n : Nat) (mem : Memory) (head : Addr),
      (c.carve index batchNum start).1 =
        { c with mem := mem, freeList := update c.freeList index head } ∧
      Carved mem start ((index + 1) * alignment) head i n ∧ i ≤ batchNum ∧
      (c.carve index batchNum start).2 = min batchNum (totalBlocks ((index + 1) * alignment)) ∧
      i = max 1 (min batchNum (totalBlocks ((index + 1) * alignment))) ∧
      ∀ a, a ∉ starts start ((index + 1) * alignment) 0 (i + n) → mem a = c.mem a := by
  have hsize : 0 < (index + 1) * alignment := Nat.mul_pos (Nat.succ_pos _) (by decide)
  unfold carve
  dsimp only
  generalize (index + 1) * alignment = size at hsize ⊢
  generalize htotal : totalBlocks size = total
  have hkeep : c.freeList = update c.freeList index 0 :=
    (Function.update_eq_self_iff.mpr hempty.symm).symm
  obtain rfl | hpos := Nat.eq_zero_or_pos total
  · -- a block larger than a span is handed out whole
    rw [Nat.min_zero, if_neg (by decide), if_neg (by decide)]
    exact ⟨1, 0, c.mem, 0, by rw [← hkeep], ⟨carve_handed hstart hsize hzero 0, rfl, by rw [htotal]; rfl⟩,
      hbatch, rfl, rfl, fun a _ => rfl⟩
  · obtain ⟨m, hm⟩ : ∃ m, min batchNum total = m + 1 :=
      Nat.exists_eq_add_one.mpr (Nat.lt_min.mpr ⟨hbatch, hpos⟩)
    have hmtotal : m + 1 ≤ total := hm ▸ Nat.min_le_right _ _
    have hmbatch : m + 1 ≤ batchNum := hm ▸ Nat.min_le_left _ _
    rw [hm, Nat.add_sub_cancel]
    have hhanded := carve_handed hstart hsize hzero m
    have hother := fun a => @carve_other a start size m c.mem
    generalize (if m + 1 > 1 then update (link start size m 1 c.mem) (start + m * size) 0
      else c.mem) = mem at hhanded hother ⊢
    split
    · rename_i hmore
      obtain ⟨n, rfl⟩ : ∃ n, total = m + 1 + (n + 1) := ⟨total - (m + 2), by omega⟩
      obtain ⟨hkept, hframe⟩ := carve_kept hstart hsize (m + 1) n mem
      rw [show m + 1 + (n + 1) - (m + 1 + 1) = n by omega,
        show m + 1 + (n + 1) - 1 = m + 1 + n by omega]
      refine ⟨m + 1, n + 1, _, _, rfl, ⟨hhanded.frame fun a ha => hframe a fun ha' => ?_, hkept,
        by omega⟩, hmbatch, rfl, by omega, fun a ha => ?_⟩
      · obtain ⟨k, -, hk, rfl⟩ := mem_starts ha
        obtain ⟨k', hk', -, heq⟩ := mem_starts ha'
        have := blocks_inj hsize heq
        omega
      · rw [← starts_append, List.mem_append, not_or] at ha
        rw [Nat.zero_add] at ha
        rw [hframe a ha.2, hother a ha.1]
    · rename_i hmore
      exact ⟨m + 1, 0, mem, 0, by rw [← hkeep], ⟨hhanded, rfl, by omega⟩, hmbatch, rfl, by omega,
        hother⟩

theorem fetchRange_list {c : Central} (hchain : Chain c.mem 0 (c.freeList index) l)
    (hne : c.freeList index ≠ 0) (hn : l.Nodup) (hbatch : 0 < batchNum)
    (hindex : index < freeListSizeMax) (memory : Option Addr) :
    ∃ last next, c.fetchRange index batchNum memory = .ok
        ({ c with mem := update c.mem last 0, freeList := update c.freeList index next },
          c.freeList index, min batchNum l.length) ∧
      last ∈ l ∧ Chain (update c.mem last 0) 0 (c.freeList index) (l.take batchNum) ∧
      Chain (update c.mem last 0) 0 next (l.drop batchNum) := by
  obtain ⟨next, htake, hseg, hrest⟩ := take_ok hchain batchNum 0 0
  obtain ⟨rest, rfl, -⟩ := hchain.cons_of_ne hne
  obtain ⟨init, last, htaken⟩ : ∃ init last, (c.freeList index :: rest).take batchNum =
      init ++ [last] := by
    refine ⟨_, _, (List.dropLast_append_getLast ?_).symm⟩
    rw [ne_eq, List.take_eq_nil_iff, not_or]
    exact ⟨Nat.ne_of_gt hbatch, List.cons_ne_nil _ _⟩
  have hsplit : init ++ [last] ++ (c.freeList index :: rest).drop batchNum =
      c.freeList index :: rest := htaken ▸ List.take_append_drop _ _
  have hlast : last ∈ c.freeList index :: rest := by
    rw [← hsplit]
    exact List.mem_append_left _ (List.mem_append_right _ List.mem_cons_self)
  have hne' : last ≠ 0 := hchain.ne_nil hlast
  rw [← hsplit] at hn
  obtain ⟨hinit, -, hapart⟩ := List.nodup_append.mp hn
  obtain ⟨-, -, hinitLast⟩ := List.nodup_append.mp hinit
  rw [htaken] at htake hseg
  rw [List.getLast?_concat, Option.getD_some, Nat.zero_add] at htake
  refine ⟨last, next, ?_, hlast, ?_, hrest.frame fun a ha => update_of_ne ?_ _ _⟩
  · rw [fetchRange, if_neg (by omega), if_neg hne]
    simp only [htake]
    rw [if_pos hne']
  · rw [htaken]
    exact hseg.relink (fun hmem => hinitLast last hmem last List.mem_cons_self rfl) 0
  · exact (hapart last (List.mem_append_right _ List.mem_cons_self) a ha).symm

theorem fetchRange_none {c : Central} (hempty : c.freeList index = 0)
    (hspans : c.pageCache.freeSpans = []) (batchNum : Nat) :
    c.fetchRange index batchNum none = .ok (c, 0, 0) := by
  unfold fetchRange fetchFromPageCache
  rw [if_pos hempty, PageCache.allocateSpan_none hspans]
  split <;> rfl

def spanFor (start size : Nat) : Extent := ⟨start, numPages size * PageCache.pageSize⟩

theorem start_inside {start size : Nat} (hsize : 0 < size)
    (ha : a ∈ starts start size 0 (max 1 (totalBlocks size))) :
    ¬Extent.Apart ⟨a, 8⟩ (spanFor start size) := by
  rw [← MemoryPool.blocks_starts] at ha
  obtain ⟨b, hb, rfl⟩ := List.mem_map.mp ha
  obtain ⟨rfl, hle, hstop⟩ := MemoryPool.blocks_within hsize hb
  unfold Extent.stop at hstop
  unfold Extent.Apart Extent.stop spanFor
  dsimp only at *
  omega

theorem numPages_fits (hsize : size ≤ maxByte) : numPages size * PageCache.pageSize < 2 ^ 64 := by
  unfold numPages PageCache.pageSize spanPages maxByte at *
  split <;> omega

/-- Where the list is empty a new span is zeroed and carved. -/
theorem fetchRange_fresh {c : Central} (hempty : c.freeList index = 0)
    (hspans : c.pageCache.freeSpans = []) (hbatch : 0 < batchNum)
    (hindex : index < freeListSizeMax) (hstart : 0 < start) :
    ∃ (c' : Central) (head : Addr) (i n realIncrease : Nat),
      c.fetchRange index batchNum (some start) = .ok (c', start, realIncrease) ∧
      c'.freeList = update c.freeList index head ∧ c'.pageCache.freeSpans = [] ∧
      c'.pageCache.mapped = spanFor start ((index + 1) * alignment) :: c.pageCache.mapped ∧
      Carved c'.mem start ((index + 1) * alignment) head i n ∧ i ≤ batchNum ∧
      realIncrease = min batchNum (totalBlocks ((index + 1) * alignment)) ∧ i = max 1 realIncrease ∧
      ∀ a, Extent.Apart ⟨a, 8⟩ (spanFor start ((index + 1) * alignment)) → c'.mem a = c.mem a := by
  have hsize : 0 < (index + 1) * alignment := Nat.mul_pos (Nat.succ_pos _) (by decide)
  have hmax : (index + 1) * alignment ≤ maxByte := by
    unfold freeListSizeMax maxByte alignment at *
    omega
  obtain ⟨pageCache, halloc, hspans', hmapped⟩ :=
    PageCache.allocateSpan_fresh hspans c.mem start (numPages_fits hmax)
  obtain ⟨mem₀, hmem₀⟩ : ∃ mem₀ : Memory, mem₀ = fun a =>
      if Extent.Apart ⟨a, 8⟩ (spanFor start ((index + 1) * alignment)) then c.mem a else 0 :=
    ⟨_, rfl⟩
  have hzero : mem₀ start = 0 := by
    rw [hmem₀]
    refine if_neg (start_inside hsize (List.mem_map.mpr ⟨0, ?_, by rw [Nat.zero_mul, Nat.add_zero]⟩))
    exact List.mem_range'_1.mpr ⟨Nat.le_refl 0, by omega⟩
  obtain ⟨i, n, mem, head, hcarve, hcarved, hi, hreal, hmax, hframe⟩ :=
    carve_ok ⟨mem₀, c.freeList, pageCache⟩ hstart hzero hempty hbatch
  refine ⟨⟨mem, update c.freeList index head, pageCache⟩, head, i, n,
    (carve ⟨mem₀, c.freeList, pageCache⟩ index batchNum start).2, ?_, rfl, hspans', hmapped, hcarved, hi,
    hreal, hreal ▸ hmax, fun a ha => ?_⟩
  · unfold fetchRange fetchFromPageCache
    rw [if_neg (by omega), if_pos hempty, halloc, ← hcarve, hmem₀]
    rfl
  · have hnew := hframe a fun hmem => start_inside hsize (hcarved.all ▸ hmem) ha
    rw [hmem₀] at hnew
    exact hnew.trans (if_pos ha)

/-- The part of the chain that the bound reaches is put in front of the list. -/
theorem returnRange_ok {c : Central} (hchain : Chain c.mem 0 start l) (hne : start ≠ 0)
    (hn : l.Nodup) (hold : Chain c.mem 0 (c.freeList index) rest) (hapart : ∀ a ∈ l, a ∉ rest)
    (hindex : index < freeListSizeMax) (size : Nat) :
    ∃ last ∈ l, c.returnRange start size index =
        { c with
          mem := update c.mem last (c.freeList index)
          freeList := update c.freeList index start } ∧
      Chain (update c.mem last (c.freeList index)) 0 start (l.take (max 1 size) ++ rest) := by
  have hl : l ≠ [] := by
    rintro rfl
    exact hne hchain
  obtain ⟨init, hinit⟩ := last_ok hchain hl (size - 1)
  rw [show size - 1 + 1 = max 1 size by omega] at hinit
  have htaken : (init ++ [last c.mem (size - 1) start]).Sublist l := hinit ▸ List.take_sublist _ _
  generalize hlast : last c.mem (size - 1) start = node at hinit htaken
  have hnode : node ∈ l := htaken.subset (List.mem_append_right _ List.mem_cons_self)
  have hsplit : init ++ [node] ++ l.drop (max 1 size) = l := hinit ▸ List.take_append_drop _ _
  rw [← hsplit] at hchain
  obtain ⟨next, hseg, -⟩ := segment_append.mp hchain
  obtain ⟨-, -, hinitNode⟩ := List.nodup_append.mp (hn.sublist htaken)
  refine ⟨node, hnode, ?_, segment_append.mpr ⟨c.freeList index, ?_, hold.frame fun a ha => ?_⟩⟩
  · rw [returnRange, if_neg (not_or.mpr ⟨hne, Nat.not_le_of_lt hindex⟩), hlast]
  · rw [hinit]
    exact hseg.relink (fun hmem => hinitNode node hmem node List.mem_cons_self rfl) _
  · refine update_of_ne ?_ _ _
    rintro rfl
    exact hapart a hnode ha

end Central

def Phase.chain : Phase → Nat → Addr
  | .idle, _ => 0
  | .fetched index _ _ start _, i => if i = index then start else 0
  | .returning start _ index, i => if i = index then start else 0

namespace ThreadCache

theorem splitNode_ok (h : Chain mem 0 node l) (hne : l ≠ []) (n : Nat) :
    splitNode mem n node = 0 ∧ l.length ≤ n ∨
      ∃ l₁ l₂, l = l₁ ++ splitNode mem n node :: l₂ ∧ l₁.length = n := by
  induction n generalizing node l with
  | zero =>
    obtain ⟨rest, rfl, -⟩ := h.cons_of_ne (h.head_ne hne)
    exact .inr ⟨[], rest, rfl, rfl⟩
  | succ n ih =>
    obtain ⟨rest, rfl, hrest⟩ := h.cons_of_ne (h.head_ne hne)
    rw [splitNode]
    split
    · rename_i hend
      obtain rfl := (hend ▸ hrest : Chain mem 0 0 rest).of_nil
      exact .inl ⟨rfl, Nat.succ_le_succ (Nat.zero_le n)⟩
    · rename_i hmore
      have hne' : rest ≠ [] := by
        rintro rfl
        exact hmore hrest
      rcases ih hrest hne' with ⟨hzero, hlen⟩ | ⟨l₁, l₂, hl, hlen⟩
      · exact .inl ⟨hzero, Nat.succ_le_succ hlen⟩
      · exact .inr ⟨node :: l₁, l₂, by rw [List.cons_append, ← hl], by rw [List.length_cons, hlen]⟩

def keepNum (tc : ThreadCache) (index : Nat) : Nat := max (tc.freeListSize index / 4) 1

/-- The counter is that of a list of which `kept` is left, or stays where the list
is too short for what the counter says. -/
def SplitFrom (tc' tc : ThreadCache) (index : Nat) (l kept : List Addr) : Prop :=
  tc'.freeListSize = tc.freeListSize ∧
      (tc.freeListSize index ≤ 1 ∨ l.length < tc.keepNum index) ∨
    tc'.freeListSize = update tc.freeListSize index kept.length ∧ kept.length = tc.keepNum index

/-- The list is left as it is, or cut behind a node; the phase after it holds
what is behind. -/
theorem split_ok {tc : ThreadCache} {mem : Memory} (hchain : Chain mem 0 start l)
    (hne : start ≠ 0) (hn : l.Nodup) (size : Nat) :
    tc.split mem start size = (mem, tc, .idle) ∧
        (tc.freeListSize (getIndex size) ≤ 1 ∨ l.length < tc.keepNum (getIndex size)) ∨
      ∃ (l₁ l₂ : List Addr) (node : Addr) (tc' : ThreadCache) (phase : Phase),
        tc.split mem start size = (update mem node 0, tc', phase) ∧
        l = l₁ ++ [node] ++ l₂ ∧ tc'.freeList = update tc.freeList (getIndex size) start ∧
        tc'.freeListSize = update tc.freeListSize (getIndex size) (l₁ ++ [node]).length ∧
        (l₁ ++ [node]).length = tc.keepNum (getIndex size) ∧
        Chain (update mem node 0) 0 start (l₁ ++ [node]) ∧
        Chain (update mem node 0) 0 (phase.chain (getIndex size)) l₂ ∧
        (phase = .idle ∨ ∃ next bound, phase = .returning next bound (getIndex size) ∧ next ≠ 0) := by
  have hl : l ≠ [] := by
    rintro rfl
    exact hne hchain
  have hkeep : 1 ≤ tc.keepNum (getIndex size) := Nat.le_max_right _ _
  have hunfold : max (tc.freeListSize (getIndex size) / 4) 1 = tc.keepNum (getIndex size) := rfl
  unfold split
  dsimp only
  rw [hunfold]
  split
  · rename_i hone
    exact .inl ⟨rfl, .inl hone⟩
  · rename_i hmore
    have hnodes := splitNode_ok hchain hl (tc.keepNum (getIndex size) - 1)
    split
    · rename_i hnode
      refine .inl ⟨rfl, .inr ?_⟩
      rcases hnodes with ⟨-, hlen⟩ | ⟨l₁, l₂, hsplit, hlen⟩
      · omega
      · exact absurd hnode (hchain.ne_nil (hsplit ▸ List.mem_append_right _ List.mem_cons_self))
    · rename_i hnode
      rcases hnodes with ⟨hzero, -⟩ | ⟨l₁, l₂, hsplit, hlen⟩
      · exact absurd hzero hnode
      · generalize splitNode mem (tc.keepNum (getIndex size) - 1) start = node at hnode hsplit
        rw [List.append_cons] at hsplit
        subst hsplit
        obtain ⟨next, hseg, hrest⟩ := segment_append.mp hchain
        obtain ⟨mid, -, rfl, -, rfl⟩ := segment_append.mp hseg
        obtain ⟨hinit, -, hapart⟩ := List.nodup_append.mp hn
        obtain ⟨-, -, hinitNode⟩ := List.nodup_append.mp hinit
        have hkept := hseg.relink (fun hmem => hinitNode mid hmem mid List.mem_cons_self rfl) 0
        have hleft : Chain (update mem mid 0) 0 (mem mid) l₂ := hrest.frame fun a ha =>
          update_of_ne (hapart mid (List.mem_append_right _ List.mem_cons_self) a ha).symm _ _
        have hlength : (l₁ ++ [mid]).length = tc.keepNum (getIndex size) := by
          rw [List.length_append, List.length_singleton]
          omega
        refine .inr ⟨l₁, l₂, mid, _, _, rfl, rfl, rfl, by rw [hlength], hlength, hkept, ?_, ?_⟩
        · split
          · rw [Phase.chain, if_pos rfl]
            exact hleft
          · rename_i hnone
            have hend : mem mid = 0 := by
              by_contra hmore'
              exact hnone ⟨by omega, hmore'⟩
            rwa [hend] at hleft
        · split
          · rename_i hsome
            exact .inr ⟨_, _, rfl, hsome.2⟩
          · exact .inl rfl

end ThreadCache

end MudouHttp
