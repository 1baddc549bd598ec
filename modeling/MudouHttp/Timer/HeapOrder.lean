import Mathlib.Data.List.Perm.Basic
import MudouHttp.Timer.HeapSifting

/-!
# The order of the timer heap

`siftup_` compares with the parent of the root, which is not there: it returns
only where the timer stops below the root. `add`, `del_` and `adjust` keep the
order of the heap in the cases that come out of this.
-/

namespace MudouHttp.HeapTimer

open Function (update update_self update_of_ne)
open Lib.Heaps

variable {h h' : HeapTimer} {heap nodes : List TimerNode} {x y : TimerNode}
  {id timeout now : Int} {i j n p : Nat}

/-- A heap of these nodes, with their positions. -/
structure Restored (nodes : List TimerNode) (h : HeapTimer) : Prop where
  perm : h.heap.Perm nodes
  minHeap : MinHeap (key h.heap) h.heap.length
  exact : h.Exact

-- ---------------------------------------------------------------------------
-- siftup_
-- ---------------------------------------------------------------------------

structure Settled (h h' : HeapTimer) (n : Nat) : Prop where
  perm : h'.heap.Perm h.heap
  exact : h.Exact → h'.Exact
  minHeap : MinHeap (key h'.heap) n
  beyond : ∀ p, n ≤ p → h'.heap[p]? = h.heap[p]?

theorem Settled.restored (hs : Settled h h' h.heap.length) (he : h.Exact) : Restored h.heap h' :=
  ⟨hs.perm, hs.perm.length_eq ▸ hs.minHeap, hs.exact he⟩

theorem Settled.after (hs : Settled h₁ h' n) (hx : Exchanged h h₁ i j) (hi : i < n) (hj : j < n) :
    Settled h h' n where
  perm := hs.perm.trans hx.perm
  exact := fun he => hs.exact (hx.exact he)
  minHeap := hs.minHeap
  beyond := fun p hp => (hs.beyond p hp).trans (hx.other p (by omega) (by omega))

theorem siftupLoop_root (hlen : h.heap.length < 2 ^ 63) (fuel : Nat) :
    siftupLoop (fuel + 1) h 0 = .error .outOfBounds := by
  have hpast : h.heap[2 ^ 63 - 1]? = none := List.getElem?_eq_none (by omega)
  show (h.node (2 ^ 63 - 1) >>= _) = _
  rw [node, hpast]
  rfl

theorem siftupLoop_turn (hpos : 0 < i) (hi : i < h.heap.length) (fuel : Nat) :
    siftupLoop (fuel + 1) h i = .ok h ∧ key h.heap (parent i) < key h.heap i ∨
      ∃ h₁, siftupLoop (fuel + 1) h i = siftupLoop fuel h₁ (parent i) ∧
        key h.heap i ≤ key h.heap (parent i) ∧ Exchanged h h₁ i (parent i) := by
  have hlt := parent_lt hpos
  have hj : sizeSub i 1 / 2 = parent i := by rw [sizeSub_of_le hpos, parent]
  have habove := getElem?_lt (Nat.lt_trans hlt hi)
  have hx := getElem?_lt hi
  by_cases hless : key h.heap (parent i) < key h.heap i
  · left
    refine ⟨?_, hless⟩
    rw [key_of habove, key_of hx] at hless
    rw [siftupLoop, hj, node_ok habove, ok_bind, node_ok hx, ok_bind, if_pos hless]
    rfl
  · right
    obtain ⟨h₁, hswap, hex⟩ := swapNode_ok hi (Nat.lt_trans hlt hi) (Nat.ne_of_gt hlt)
    refine ⟨h₁, ?_, not_lt.mp hless, hex⟩
    rw [key_of habove, key_of hx] at hless
    rw [siftupLoop, hj, node_ok habove, ok_bind, node_ok hx, ok_bind, if_neg hless, hswap, ok_bind]

/-- A timer that is later than the root stops before it gets there. -/
theorem siftupLoop_ok (hi : i < n) (hn : n ≤ h.heap.length) (hr : Rising (key h.heap) n i)
    (hlt : key h.heap 0 < key h.heap i) (hfuel : i < fuel) :
    ∃ h', siftupLoop fuel h i = .ok h' ∧ Settled h h' n := by
  induction fuel generalizing h i with
  | zero => omega
  | succ fuel ih =>
    have hpos : 0 < i := Nat.pos_of_ne_zero fun hzero => absurd hlt (hzero ▸ lt_irrefl _)
    have hparent := parent_lt hpos
    rcases siftupLoop_turn hpos (Nat.lt_of_lt_of_le hi hn) fuel with ⟨hstop, hless⟩ | ⟨h₁, hgo, hle, hx⟩
    · exact ⟨h, hstop, .refl _, id, hr.stop hless.le, fun _ _ => rfl⟩
    · have hroot : parent i ≠ 0 := fun hzero => absurd (hzero ▸ hle) (not_le.mpr hlt)
      have hlt₁ : key h₁.heap 0 < key h₁.heap (parent i) := by
        rw [hx.swapped.right, hx.swapped.other 0 (by omega) hroot.symm]
        exact hlt
      obtain ⟨h', hrun, hs⟩ := ih (by omega) (hx.length_eq ▸ hn) (hr.swap hpos hle hx.swapped) hlt₁
        (by omega)
      exact ⟨h', hgo.trans hrun, hs.after hx hi (by omega)⟩

/-- A timer that is not goes to the root, and past it. -/
theorem siftupLoop_fault (hi : i < n) (hn : n ≤ h.heap.length) (hlen : h.heap.length < 2 ^ 63)
    (hr : Rising (key h.heap) n i) (hle : key h.heap i ≤ key h.heap 0) (hfuel : i < fuel) :
    siftupLoop fuel h i = .error .outOfBounds := by
  induction fuel generalizing h i with
  | zero => omega
  | succ fuel ih =>
    rcases Nat.eq_zero_or_pos i with rfl | hpos
    · exact siftupLoop_root hlen fuel
    · have hparent := parent_lt hpos
      rcases siftupLoop_turn hpos (Nat.lt_of_lt_of_le hi hn) fuel with ⟨-, hless⟩ | ⟨h₁, hgo, hup, hx⟩
      · exact absurd (hle.trans (hr.root_le hi hparent)) (not_le.mpr hless)
      · have hle₁ : key h₁.heap (parent i) ≤ key h₁.heap 0 := by
          by_cases hroot : parent i = 0
          · rw [hroot]
          · rw [hx.swapped.right, hx.swapped.other 0 (by omega) (Ne.symm hroot)]
            exact hle
        exact hgo.trans (ih (by omega) (hx.length_eq ▸ hn) (hx.length_eq ▸ hlen)
          (hr.swap hpos hup hx.swapped) hle₁ (by omega))

theorem siftup_cases (hi : i < n) (hn : n ≤ h.heap.length) (hlen : h.heap.length < 2 ^ 63)
    (hr : Rising (key h.heap) n i) :
    key h.heap 0 < key h.heap i ∧ (∃ h', h.siftup i = .ok h' ∧ Settled h h' n) ∨
      ¬key h.heap 0 < key h.heap i ∧ h.siftup i = .error .outOfBounds := by
  unfold siftup
  rw [if_pos (Nat.lt_of_lt_of_le hi hn)]
  by_cases hlt : key h.heap 0 < key h.heap i
  · exact .inl ⟨hlt, siftupLoop_ok hi hn hr hlt (Nat.lt_succ_self i)⟩
  · exact .inr ⟨hlt, siftupLoop_fault hi hn hlen hr (not_lt.mp hlt) (Nat.lt_succ_self i)⟩

-- ---------------------------------------------------------------------------
-- siftdown_, then siftup_
-- ---------------------------------------------------------------------------

def Sinks (heap : List TimerNode) (n i : Nat) (x : Int) : Prop :=
  ∃ c, 0 < c ∧ c < n ∧ parent c = i ∧ key heap c ≤ x

theorem siftdown_cases (hi : i < n) (hn : n ≤ h.heap.length) (hl : Loose (key h.heap) n i) :
    Sinks h.heap n i (key h.heap i) ∧ (∃ h', h.siftdown i n = .ok (h', true) ∧ Settled h h' n) ∨
      ¬Sinks h.heap n i (key h.heap i) ∧ h.siftdown i n = .ok (h, false) := by
  obtain ⟨h', k, hrun, hsunk⟩ := siftdown_sunk hi hn hl.below
  have hle := hsunk.within.le
  have hret := siftdown_loop hi hn hrun
  by_cases hki : k = i
  · right
    refine ⟨fun hsinks => hsunk.moves.mpr hsinks hki, ?_⟩
    rw [hret, hsunk.stays hki, decide_eq_false (by omega)]
  · left
    have hother : ∀ p, (Within i p → n ≤ p) → h'.heap[p]? = h.heap[p]? := fun p hp =>
      siftdownLoop_other hi hn hrun hp
    have hkept : ∀ p, ¬Within i p → key h'.heap p = key h.heap p := fun p hp => by
      rw [key, hother p fun hw => absurd hw hp, key]
    refine ⟨hsunk.moves.mp hki, h', by rw [hret, decide_eq_true (by omega)], hsunk.perm, hsunk.exact, ?_,
      fun p hp => hother p fun _ => hp⟩
    refine .of_subtree hsunk.ordered ?_ ?_
    · intro c hc hcn hw
      have hwp : ¬Within i (parent c) := fun hwp => hw (.child hc hwp)
      rw [hkept c hw, hkept _ hwp]
      exact hl _ c (.of_parent hc rfl) hcn (fun ha => hwp (ha ▸ .root)) fun hci => hw (hci ▸ .root)
    · intro hpos
      obtain ⟨q, hwq, hqi, hqn, hfilled⟩ := hsunk.filled hki
      have hlt := parent_lt hpos
      have hwp : ¬Within i (parent i) := fun hw => by
        have := hw.le
        omega
      have hfill : key h'.heap i = key h.heap q := by rw [key, hfilled, key]
      rw [hfill, hkept _ hwp]
      exact hl _ q ((Within.of_parent hpos rfl).trans hwq) hqn (Nat.ne_of_lt hlt) hqi

def Fits (heap : List TimerNode) (n i : Nat) (x : Int) : Prop :=
  Sinks heap n i x ∨ 0 < i ∧ key heap 0 < x

theorem fits_congr {heap' : List TimerNode} (hi : i < n)
    (hsame : ∀ p, p ≠ i → p < n → key heap' p = key heap p) (k : Int) :
    Fits heap' n i k ↔ Fits heap n i k := by
  have hsinks : Sinks heap' n i k ↔ Sinks heap n i k := by
    refine exists_congr fun c => and_congr_right fun hc => and_congr_right fun hcn =>
      and_congr_right fun hp => ?_
    have hlt := parent_lt hc
    rw [hsame c (by omega) hcn]
  refine or_congr hsinks (and_congr_right fun hpos => ?_)
  rw [hsame 0 (Nat.ne_of_lt hpos) (Nat.lt_trans hpos hi)]

theorem sift_cases (hi : i < n) (hn : n ≤ h.heap.length) (hlen : h.heap.length < 2 ^ 63)
    (hl : Loose (key h.heap) n i) :
    Fits h.heap n i (key h.heap i) ∧ (∃ h', h.sift i n = .ok h' ∧ Settled h h' n) ∨
      ¬Fits h.heap n i (key h.heap i) ∧ h.sift i n = .error .outOfBounds := by
  unfold sift
  rcases siftdown_cases hi hn hl with ⟨hsinks, h', hrun, hs⟩ | ⟨hnot, hrun⟩
  · left
    refine ⟨.inl hsinks, h', ?_, hs⟩
    rw [hrun]
    rfl
  · rw [hrun, ok_bind]
    have hr : Rising (key h.heap) n i := hl.rising fun c hc hcn hp =>
      (not_le.mp fun hle => hnot ⟨c, hc, hcn, hp, hle⟩).le
    rcases siftup_cases hi hn hlen hr with ⟨hlt, hup⟩ | ⟨hge, hup⟩
    · have hpos : 0 < i := Nat.pos_of_ne_zero fun hzero => absurd hlt (hzero ▸ lt_irrefl _)
      exact .inl ⟨.inr ⟨hpos, hlt⟩, hup⟩
    · refine .inr ⟨?_, hup⟩
      rintro (hsinks | ⟨-, hlt⟩)
      · exact hnot hsinks
      · exact hge hlt

-- ---------------------------------------------------------------------------
-- add
-- ---------------------------------------------------------------------------

theorem Exact.fresh (he : h.Exact) (hid : h.ref id = none) (hx : h.heap[p]? = some x) : x.id ≠ id := by
  intro hxid
  have hp := (he id p).mpr ⟨x, hx, hxid⟩
  cases hid.symm.trans hp

theorem Exact.push (he : h.Exact) (hid : h.ref x.id = none) :
    Exact { heap := h.heap ++ [x], ref := update h.ref x.id (some h.heap.length) } := by
  intro id p
  show update h.ref x.id (some h.heap.length) id = some p ↔ ∃ y, (h.heap ++ [x])[p]? = some y ∧ y.id = id
  have hend : (h.heap ++ [x])[h.heap.length]? = some x := by
    rw [List.getElem?_append_right (Nat.le_refl _), Nat.sub_self]
    rfl
  constructor
  · intro hp
    by_cases hidx : id = x.id
    · subst hidx
      rw [update_self] at hp
      cases hp
      exact ⟨x, hend, rfl⟩
    · rw [update_of_ne hidx] at hp
      obtain ⟨y, hy, rfl⟩ := (he id p).mp hp
      obtain ⟨hlt, -⟩ := List.getElem?_eq_some_iff.mp hy
      exact ⟨y, (List.getElem?_append_left hlt).trans hy, rfl⟩
  · rintro ⟨y, hy, rfl⟩
    by_cases hlt : p < h.heap.length
    · rw [List.getElem?_append_left hlt] at hy
      rw [update_of_ne (he.fresh hid hy)]
      exact he.ref_of hy
    · obtain ⟨hbound, -⟩ := List.getElem?_eq_some_iff.mp hy
      rw [List.length_append, List.length_singleton] at hbound
      obtain rfl : p = h.heap.length := by omega
      obtain rfl := Option.some.inj (hend.symm.trans hy)
      rw [update_self]

theorem key_append (hp : p < heap.length) (x : TimerNode) : key (heap ++ [x]) p = key heap p := by
  rw [key, List.getElem?_append_left hp, key]

theorem key_end (heap : List TimerNode) (x : TimerNode) : key (heap ++ [x]) heap.length = x.expires := by
  rw [key, List.getElem?_append_right (Nat.le_refl _), Nat.sub_self]
  rfl

theorem add_cases (hlen : h.heap.length + 1 < 2 ^ 63) (he : h.Exact)
    (hm : MinHeap (key h.heap) h.heap.length) (hpos : 0 ≤ id) (hid : h.ref id = none)
    (timeout : Int) (cb : Nat) (now : Int) :
    (h.heap ≠ [] ∧ key h.heap 0 < deadline now timeout) ∧
        (∃ h', h.add id timeout cb now = .ok h' ∧
          Restored (h.heap ++ [{ id := id, expires := deadline now timeout, cb := cb }]) h') ∨
      ¬(h.heap ≠ [] ∧ key h.heap 0 < deadline now timeout) ∧
        h.add id timeout cb now = .error .outOfBounds := by
  generalize hx : TimerNode.mk id (deadline now timeout) cb = x
  have hxid : x.id = id := congrArg TimerNode.id hx.symm
  have hexpires : deadline now timeout = x.expires := congrArg TimerNode.expires hx
  generalize hg : HeapTimer.mk (h.heap ++ [x]) (update h.ref x.id (some h.heap.length)) = g
  have hheap : g.heap = h.heap ++ [x] := by rw [← hg]
  have hsize : g.heap.length = h.heap.length + 1 := by rw [hheap, List.length_append, List.length_singleton]
  have hexact : g.Exact := hg ▸ he.push (hxid ▸ hid)
  have hrun : h.add id timeout cb now = g.siftup h.heap.length := by
    rw [add, if_neg (not_lt.mpr hpos), hid]
    dsimp only
    rw [hx, ← hxid, hg]
  have hrising : Rising (key g.heap) g.heap.length h.heap.length := by
    have hkept : MinHeap (key g.heap) h.heap.length := hm.congr fun p hp => by rw [hheap, key_append hp]
    rw [hsize]
    exact hkept.push.rising
  have hcond : key g.heap 0 < key g.heap h.heap.length ↔
      h.heap ≠ [] ∧ key h.heap 0 < deadline now timeout := by
    rw [hheap, key_end, hexpires]
    by_cases hnil : h.heap = []
    · refine iff_of_false ?_ fun hc => hc.1 hnil
      rw [hnil]
      exact lt_irrefl _
    · rw [key_append (List.length_pos_of_ne_nil hnil)]
      exact (and_iff_right hnil).symm
  rw [← hcond, hrun]
  rcases siftup_cases (by omega) (Nat.le_refl _) (by omega) hrising with ⟨hlt, h', hup, hs⟩ | ⟨hge, hup⟩
  · exact .inl ⟨hlt, h', hup, hheap ▸ hs.restored hexact⟩
  · exact .inr ⟨hge, hup⟩

-- ---------------------------------------------------------------------------
-- del_
-- ---------------------------------------------------------------------------

theorem key_dropLast (hp : p + 1 < heap.length) : key heap.dropLast p = key heap p := by
  rw [key, List.getElem?_dropLast, if_pos (by omega), key]

theorem Exact.pop (he : h.Exact) (hlast : h.heap[n]? = some x) (hsize : h.heap.length = n + 1) :
    Exact { heap := h.heap.dropLast, ref := update h.ref x.id none } := by
  intro id p
  show update h.ref x.id none id = some p ↔ ∃ y, h.heap.dropLast[p]? = some y ∧ y.id = id
  rw [List.getElem?_dropLast, hsize, Nat.add_sub_cancel]
  constructor
  · intro hp
    by_cases hidx : id = x.id
    · rw [hidx, update_self] at hp
      cases hp
    · rw [update_of_ne hidx] at hp
      obtain ⟨y, hy, rfl⟩ := (he id p).mp hp
      obtain ⟨hlt, -⟩ := List.getElem?_eq_some_iff.mp hy
      have hpn : p ≠ n := fun hpn => by
        subst hpn
        exact hidx (congrArg TimerNode.id (Option.some.inj (hy.symm.trans hlast)))
      exact ⟨y, by rw [if_pos (by omega), hy], rfl⟩
  · rintro ⟨y, hy, rfl⟩
    by_cases hlt : p < n
    · rw [if_pos hlt] at hy
      rw [update_of_ne fun hid => Nat.ne_of_lt hlt (he.position hy hlast hid)]
      exact he.ref_of hy
    · rw [if_neg hlt] at hy
      cases hy

theorem popBack_restored (hlast : h.heap[n]? = some x) (hsize : h.heap.length = n + 1) (he : h.Exact)
    (hm : MinHeap (key h.heap) n) (hperm : h.heap.Perm (x :: nodes)) :
    ∃ h', h.popBack = .ok h' ∧ Restored nodes h' := by
  have hback : h.heap.getLast? = some x := by
    rw [List.getLast?_eq_getElem?, hsize, Nat.add_sub_cancel, hlast]
  refine ⟨_, by rw [popBack, hback], ?_, ?_, he.pop hlast hsize⟩
  · have hsplit : h.heap.dropLast ++ [x] = h.heap := List.dropLast_append_getLast? x hback
    refine (List.perm_cons x).mp (.trans ?_ hperm)
    exact (List.perm_append_singleton x h.heap.dropLast).symm.trans (.of_eq hsplit)
  · show MinHeap (key h.heap.dropLast) h.heap.dropLast.length
    rw [List.length_dropLast, hsize, Nat.add_sub_cancel]
    exact hm.congr fun p hp => key_dropLast (by omega)

/-- The last node can stand in for the one that is deleted. -/
def Replaceable (heap : List TimerNode) (index : Nat) : Prop :=
  index + 1 = heap.length ∨ Fits heap (heap.length - 1) index (key heap (heap.length - 1))

theorem del_cases (hlen : h.heap.length < 2 ^ 63) (he : h.Exact) (hm : MinHeap (key h.heap) h.heap.length)
    (hi : i < h.heap.length) :
    Replaceable h.heap i ∧ (∃ h', h.del i = .ok h' ∧ Restored (h.heap.eraseIdx i) h') ∨
      ¬Replaceable h.heap i ∧ h.del i = .error .outOfBounds := by
  have hx := getElem?_lt hi
  have herase : h.heap.Perm (h.heap[i] :: h.heap.eraseIdx i) :=
    (List.getElem_cons_eraseIdx_perm hi).symm
  generalize h.heap[i] = x at hx herase
  obtain ⟨n, hsize⟩ : ∃ n, h.heap.length = n + 1 := ⟨h.heap.length - 1, by omega⟩
  unfold del Replaceable
  rw [if_pos hi, hsize, Nat.add_sub_cancel]
  dsimp only
  rw [hsize] at hm
  by_cases hlast : i < n
  · obtain ⟨h₁, hswap, hex⟩ := swapNode_ok hi (by omega : n < h.heap.length) (by omega)
    have hkept : ∀ p, p ≠ i → p < n → key h₁.heap p = key h.heap p := fun p hp hpn =>
      hex.swapped.other p hp (Nat.ne_of_lt hpn)
    have hloose : Loose (key h₁.heap) n i :=
      MinHeap.loose (fun c hc hcn _ => hm.pair hc (Nat.lt_succ_of_lt hcn)) hkept
    have hrepl : Fits h₁.heap n i (key h₁.heap i) ↔ i + 1 = n + 1 ∨ Fits h.heap n i (key h.heap n) := by
      rw [hex.swapped.left, fits_congr hlast hkept, or_iff_right (by omega)]
    have hn : n ≤ h₁.heap.length := by
      rw [hex.length_eq, hsize]
      exact Nat.le_succ n
    rw [if_pos hlast, hswap, ok_bind, ← hrepl]
    rcases sift_cases hlast hn (hex.length_eq ▸ hlen) hloose with ⟨hfits, h₂, hsift, hs⟩ | ⟨hnot, hsift⟩
    · left
      rw [hsift, ok_bind]
      have hend : h₂.heap[n]? = some x := (hs.beyond n (Nat.le_refl n)).trans (hex.right.trans hx)
      have hsize₂ : h₂.heap.length = n + 1 := (hs.perm.trans hex.perm).length_eq.trans hsize
      exact ⟨hfits, popBack_restored hend hsize₂ (hs.exact (hex.exact he)) hs.minHeap
        ((hs.perm.trans hex.perm).trans herase)⟩
    · right
      rw [hsift]
      exact ⟨hnot, rfl⟩
  · obtain rfl : i = n := by omega
    obtain ⟨h', hpop, hr⟩ := popBack_restored hx hsize he (fun c hc hcn _ => hm.pair hc (by omega)) herase
    refine .inl ⟨.inl rfl, h', ?_, hr⟩
    rw [if_neg (Nat.lt_irrefl i)]
    exact hpop

-- ---------------------------------------------------------------------------
-- What is safe
-- ---------------------------------------------------------------------------

/-- `siftup_` returns, with the heap in order, exactly where the node is later
than the root; `add` and `del_` return where the one or the other sift stops in
time. A vector has fewer than 2^63 elements. -/
theorem siftup_restores_iff (hlen : h.heap.length + 1 < 2 ^ 63) (he : h.Exact) :
    (∀ i, i < h.heap.length → ExceptAbove (key h.heap) h.heap.length i →
      ((∃ h', h.siftup i = .ok h' ∧ Restored h.heap h') ↔ key h.heap 0 < key h.heap i)) ∧
    (MinHeap (key h.heap) h.heap.length → ∀ id timeout cb now, 0 ≤ id → h.ref id = none →
      ((∃ h', h.add id timeout cb now = .ok h' ∧
          Restored (h.heap ++ [{ id := id, expires := deadline now timeout, cb := cb }]) h') ↔
        h.heap ≠ [] ∧ key h.heap 0 < deadline now timeout)) ∧
    (MinHeap (key h.heap) h.heap.length → ∀ i, i < h.heap.length →
      ((∃ h', h.del i = .ok h' ∧ Restored (h.heap.eraseIdx i) h') ↔ Replaceable h.heap i)) := by
  have hno : ∀ {run : Except Halt HeapTimer} {e nodes}, run = .error e →
      ¬∃ h', run = .ok h' ∧ Restored nodes h' := by
    rintro _ _ _ rfl ⟨_, hrun, -⟩
    cases hrun
  refine ⟨fun i hi hx => ?_, fun hm id timeout cb now hpos hid => ?_, fun hm i hi => ?_⟩
  · rcases siftup_cases hi (Nat.le_refl _) (by omega) hx.rising with ⟨hlt, h', hup, hs⟩ | ⟨hge, hup⟩
    · exact iff_of_true ⟨h', hup, hs.restored he⟩ hlt
    · exact iff_of_false (hno hup) hge
  · rcases add_cases hlen he hm hpos hid timeout cb now with ⟨hcond, hadd⟩ | ⟨hcond, hadd⟩
    · exact iff_of_true hadd hcond
    · exact iff_of_false (hno hadd) hcond
  · rcases del_cases (by omega) he hm hi with ⟨hcond, hdel⟩ | ⟨hcond, hdel⟩
    · exact iff_of_true hdel hcond
    · exact iff_of_false (hno hdel) hcond

/-- Below an earlier root a node moves up and stops; the earliest runs past the root, as
does the first that is added. -/
theorem siftup_restores_iff_example :
    (∃ h', (indexed [⟨1, 10, 0⟩, ⟨2, 30, 0⟩, ⟨3, 40, 0⟩, ⟨4, 20, 0⟩]).siftup 3 = .ok h' ∧
      Restored [⟨1, 10, 0⟩, ⟨2, 30, 0⟩, ⟨3, 40, 0⟩, ⟨4, 20, 0⟩] h') ∧
    (¬∃ h', (indexed [⟨1, 10, 0⟩, ⟨2, 30, 0⟩, ⟨3, 40, 0⟩, ⟨4, 5, 0⟩]).siftup 3 = .ok h' ∧
      Restored [⟨1, 10, 0⟩, ⟨2, 30, 0⟩, ⟨3, 40, 0⟩, ⟨4, 5, 0⟩] h') ∧
    ¬∃ h', new.add 7 1 0 0 = .ok h' ∧ Restored [⟨7, 1000000, 0⟩] h' := by
  have habove : ∀ last : Int, ExceptAbove (key [⟨1, 10, 0⟩, ⟨2, 30, 0⟩, ⟨3, 40, 0⟩, ⟨4, last, 0⟩]) 4 3 := by
    intro last
    refine MinHeap.push (n := 3) fun c hc hn _ => ?_
    obtain rfl | rfl : c = 1 ∨ c = 2 := by omega
    · exact (by decide : (10 : Int) ≤ 30)
    · exact (by decide : (10 : Int) ≤ 40)
  have hlast : ∀ last : Int,
      ((∃ h', (indexed [⟨1, 10, 0⟩, ⟨2, 30, 0⟩, ⟨3, 40, 0⟩, ⟨4, last, 0⟩]).siftup 3 = .ok h' ∧
      Restored [⟨1, 10, 0⟩, ⟨2, 30, 0⟩, ⟨3, 40, 0⟩, ⟨4, last, 0⟩] h') ↔ 10 < last) := fun last =>
    (siftup_restores_iff (h := indexed [⟨1, 10, 0⟩, ⟨2, 30, 0⟩, ⟨3, 40, 0⟩, ⟨4, last, 0⟩]) (by simp [indexed])
      (indexed_exact (by simp))).1 3 (by simp [indexed]) (habove last)
  have hempty : new.Exact := by
    intro id p
    constructor
    · intro hid
      cases hid
    · rintro ⟨x, hx, -⟩
      cases hx
  have hadd := (siftup_restores_iff (h := new) (by decide) hempty).2.1
    (fun c _ hc => absurd hc (Nat.not_lt_zero c)) 7 1 0 0 (by decide) rfl
  exact ⟨(hlast 20).mpr (by decide), mt (hlast 5).mp (by decide), mt hadd.mp fun hne => hne.1 rfl⟩

theorem siftup_not_safe : ¬∀ (h : HeapTimer) (i : Nat), h.Exact → i < h.heap.length →
    ExceptAbove (key h.heap) h.heap.length i → ∃ h', h.siftup i = .ok h' ∧ Restored h.heap h' := by
  intro hall
  have hfault : (indexed [⟨7, 1000, 0⟩]).siftup 0 = .error .outOfBounds := rfl
  obtain ⟨h', hrun, -⟩ := hall (indexed [⟨7, 1000, 0⟩]) 0 (indexed_exact (by decide)) (by decide)
    fun a d hw hd hne => absurd hd (Nat.not_lt.mpr (Nat.pos_of_ne_zero hne))
  cases hfault.symm.trans hrun

-- ---------------------------------------------------------------------------
-- tick
-- ---------------------------------------------------------------------------

/-- After `tick` no timer waits behind one that expires later, and none is due. -/
def TicksInOrder (h : HeapTimer) : Prop :=
  ∀ now h' called, h.tick now = .ok (h', called) →
    (∀ p, p < h'.heap.length → key h'.heap 0 ≤ key h'.heap p) ∧
      ∃ turn, ∀ x ∈ h'.heap, 0 < (x.expires - now turn).tdiv 1000000

theorem tickLoop_order {now : Nat → Int} (hlen : h.heap.length < 2 ^ 63) (he : h.Exact)
    (hm : MinHeap (key h.heap) h.heap.length) (hrun : tickLoop now fuel h = .ok (h', called)) :
    (∀ p, p < h'.heap.length → key h'.heap 0 ≤ key h'.heap p) ∧
      ∃ turn, ∀ x ∈ h'.heap, 0 < (x.expires - now turn).tdiv 1000000 := by
  induction fuel generalizing h called with
  | zero => cases hrun
  | succ fuel ih =>
    rw [tickLoop] at hrun
    split at hrun
    · rename_i hnil
      cases hrun
      refine ⟨fun p hp => hm.root_le hp, fuel, fun x hx => ?_⟩
      rw [hnil] at hx
      cases hx
    · rename_i front rest hcons
      have hfront : key h.heap 0 = front.expires := by
        rw [hcons]
        rfl
      split at hrun
      · rename_i hwait
        cases hrun
        refine ⟨fun p hp => hm.root_le hp, fuel, fun x hx => ?_⟩
        obtain ⟨p, hp, rfl⟩ := List.mem_iff_getElem.mp hx
        have hle := hm.root_le hp
        rw [hfront, key_of (getElem?_lt hp)] at hle
        exact lt_of_lt_of_le hwait (Int.tdiv_le_tdiv (by decide) (Int.sub_le_sub_right hle _))
      · obtain ⟨h₁, hpop, hrun⟩ := bind_ok hrun
        obtain ⟨⟨h₂, called₂⟩, hloop, hrun⟩ := bind_ok hrun
        cases hrun
        rw [pop, if_neg (by rw [hcons]; exact List.cons_ne_nil _ _)] at hpop
        have hpos : 0 < h.heap.length := by rw [hcons]; exact Nat.succ_pos _
        rcases del_cases hlen he hm hpos with ⟨-, h₃, hdel, hr⟩ | ⟨-, hdel⟩
        · cases hdel.symm.trans hpop
          have hsize := hr.perm.length_eq
          rw [List.length_eraseIdx_of_lt hpos] at hsize
          exact ih (by omega) hr.exact hr.minHeap hloop
        · cases hdel.symm.trans hpop

theorem Restored.ticksInOrder (hr : Restored nodes h) (hlen : h.heap.length < 2 ^ 63) : TicksInOrder h :=
  fun _ _ _ hrun => tickLoop_order hlen hr.exact hr.minHeap hrun

-- ---------------------------------------------------------------------------
-- adjust
-- ---------------------------------------------------------------------------

theorem Exact.set (he : h.Exact) (hx : h.heap[p]? = some x) (hid : y.id = x.id) :
    Exact { h with heap := h.heap.set p y } := by
  obtain ⟨hp, -⟩ := List.getElem?_eq_some_iff.mp hx
  intro id q
  show h.ref id = some q ↔ ∃ z, (h.heap.set p y)[q]? = some z ∧ z.id = id
  rw [he id q]
  by_cases hqp : p = q
  · subst hqp
    rw [List.getElem?_set_self hp, hx]
    constructor
    · rintro ⟨z, hz, rfl⟩
      cases hz
      exact ⟨y, rfl, hid⟩
    · rintro ⟨z, hz, rfl⟩
      cases hz
      exact ⟨x, rfl, hid.symm⟩
  · rw [List.getElem?_set_ne hqp]

theorem adjust_cases (he : h.Exact) (hm : MinHeap (key h.heap) h.heap.length) (hid : h.ref id = some p)
    (timeout now : Int) :
    ∃ h', h.adjust id timeout now = .ok h' ∧
      ((p = 0 ∨ key h.heap (parent p) ≤ deadline now timeout) ∧
          Restored (h.heap.modify p fun x => { x with expires := deadline now timeout }) h' ∨
        ¬(p = 0 ∨ key h.heap (parent p) ≤ deadline now timeout) ∧
          ¬MinHeap (key h'.heap) h'.heap.length) := by
  obtain ⟨x, hx, -⟩ := (he id p).mp hid
  obtain ⟨hp, -⟩ := List.getElem?_eq_some_iff.mp hx
  generalize hg : HeapTimer.mk (h.heap.set p { x with expires := deadline now timeout }) h.ref = g
  have hheap : g.heap = h.heap.set p { x with expires := deadline now timeout } := by rw [← hg]
  have hsize : g.heap.length = h.heap.length := by rw [hheap, List.length_set]
  have hexact : g.Exact := hg ▸ he.set hx rfl
  have hmodify : h.heap.modify p (fun x => { x with expires := deadline now timeout }) = g.heap := by
    rw [hheap, @List.modify_eq_set _ ⟨x⟩, hx]
    rfl
  have hkey : key g.heap p = deadline now timeout := by
    rw [key, hheap, List.getElem?_set_self hp]
    rfl
  have hkept : ∀ q, q ≠ p → key g.heap q = key h.heap q := fun q hq => by
    rw [key, hheap, List.getElem?_set_ne hq.symm, key]
  have hrun : h.adjust id timeout now = g.siftdown p h.heap.length >>= fun r => pure r.1 := by
    rw [adjust, hid]
    dsimp only
    rw [if_neg (List.ne_nil_of_length_pos (Nat.lt_of_le_of_lt (Nat.zero_le p) hp)), node_ok hx, ok_bind, hg]
  have hloose : Loose (key g.heap) g.heap.length p := by
    rw [hsize]
    exact hm.loose fun q hq _ => hkept q hq
  rw [hmodify, hrun, ← hsize, ← hkey]
  rcases siftdown_cases (hsize ▸ hp) (Nat.le_refl _) hloose with ⟨hsinks, h', hdown, hs⟩ | ⟨hnot, hdown⟩
  · rw [hdown]
    refine ⟨h', rfl, .inl ⟨?_, hs.restored hexact⟩⟩
    -- a child that goes up is no earlier than the parent of `p`
    obtain ⟨c, hc, hcn, hpc, hle⟩ := hsinks
    rcases Nat.eq_zero_or_pos p with hzero | hpos
    · exact .inl hzero
    · have hlt := parent_lt hc
      rw [hkept c (by omega)] at hle
      exact .inr ((hm.within (.child hc (hpc.symm ▸ .of_parent hpos rfl)) (hsize ▸ hcn)).trans hle)
  · rw [hdown]
    refine ⟨g, rfl, ?_⟩
    by_cases hcond : p = 0 ∨ key h.heap (parent p) ≤ key g.heap p
    · have hrising : Rising (key g.heap) g.heap.length p := hloose.rising fun c hc hcn hp =>
        (not_le.mp fun hle => hnot ⟨c, hc, hcn, hp, hle⟩).le
      have htop : key g.heap (parent p) ≤ key g.heap p := by
        rcases Nat.eq_zero_or_pos p with rfl | hpos
        · exact le_refl _
        · rw [hkept _ (Nat.ne_of_lt (parent_lt hpos))]
          exact hcond.resolve_left (Nat.ne_of_gt hpos)
      exact .inl ⟨hcond, .refl _, hrising.stop htop, hexact⟩
    · refine .inr ⟨hcond, fun hmin => hcond ?_⟩
      rcases Nat.eq_zero_or_pos p with hzero | hpos
      · exact .inl hzero
      · have hpair := hmin.pair hpos (hsize ▸ hp)
        rw [hkept _ (Nat.ne_of_lt (parent_lt hpos))] at hpair
        exact .inr hpair

/-- `adjust` only moves a timer down: the heap is in order again exactly when
the new expiry is no earlier than the parent's. -/
theorem adjust_restores_iff (hlen : h.heap.length < 2 ^ 63) (he : h.Exact)
    (hm : MinHeap (key h.heap) h.heap.length) (hid : h.ref id = some p) (timeout now : Int) :
    (∃ h', h.adjust id timeout now = .ok h' ∧
        Restored (h.heap.modify p fun x => { x with expires := deadline now timeout }) h' ∧
        TicksInOrder h') ↔
      p = 0 ∨ key h.heap (parent p) ≤ deadline now timeout := by
  obtain ⟨h', hrun, ⟨hcond, hr⟩ | ⟨hcond, hbad⟩⟩ := adjust_cases he hm hid timeout now
  · have hsize := hr.perm.length_eq
    rw [List.length_modify] at hsize
    exact iff_of_true ⟨h', hrun, hr, hr.ticksInOrder (hsize ▸ hlen)⟩ hcond
  · refine iff_of_false ?_ hcond
    rintro ⟨h'', hrun', hr, -⟩
    cases hrun.symm.trans hrun'
    exact hbad hr.minHeap

/-- Two timers, the second put off. -/
theorem adjust_restores_iff_example :
    (∃ h', (indexed [⟨0, 1000000, 0⟩, ⟨1, 2000000, 1⟩]).adjust 1 3 0 = .ok h' ∧
        Restored [⟨0, 1000000, 0⟩, ⟨1, 3000000, 1⟩] h' ∧ TicksInOrder h') ↔
      1 = 0 ∨ (1000000 : Int) ≤ 3000000 := by
  refine adjust_restores_iff (h := indexed [⟨0, 1000000, 0⟩, ⟨1, 2000000, 1⟩]) (p := 1) (by decide)
    (indexed_exact (by decide)) ?_ (by decide) 3 0
  have hpairs : ∀ c, c < 2 → key [⟨0, 1000000, 0⟩, ⟨1, 2000000, 1⟩] (parent c) ≤
      key [⟨0, 1000000, 0⟩, ⟨1, 2000000, 1⟩] c := by decide
  exact fun c _ hc _ => hpairs c hc

/-- The second timer is brought forward and stays behind the first. -/
theorem adjust_not_restored : ¬∀ (h : HeapTimer) (id timeout now : Int) (p : Nat), h.Exact →
    MinHeap (key h.heap) h.heap.length → h.ref id = some p →
    ∃ h', h.adjust id timeout now = .ok h' ∧
      Restored (h.heap.modify p fun x => { x with expires := deadline now timeout }) h' ∧
      TicksInOrder h' := by
  intro hall
  have hpairs : ∀ c, c < 2 → key [⟨0, 2000000, 0⟩, ⟨1, 3000000, 1⟩] (parent c) ≤
      key [⟨0, 2000000, 0⟩, ⟨1, 3000000, 1⟩] c := by decide
  obtain ⟨h', hrun, hr, -⟩ := hall (indexed [⟨0, 2000000, 0⟩, ⟨1, 3000000, 1⟩]) 1 1 0 1
    (indexed_exact (by decide)) (fun c _ hc _ => hpairs c hc) (by decide)
  have hview : ((indexed [⟨0, 2000000, 0⟩, ⟨1, 3000000, 1⟩]).adjust 1 1 0).toOption.map HeapTimer.heap =
      some [⟨0, 2000000, 0⟩, ⟨1, 1000000, 1⟩] := by decide
  rw [hrun] at hview
  have hheap : h'.heap = [⟨0, 2000000, 0⟩, ⟨1, 1000000, 1⟩] := Option.some.inj hview
  have hmin := hr.minHeap
  rw [hheap] at hmin
  have hpair : key [⟨0, 2000000, 0⟩, ⟨1, 1000000, 1⟩] (parent 1) ≤
      key [⟨0, 2000000, 0⟩, ⟨1, 1000000, 1⟩] 1 := hmin.pair (by decide) (by decide)
  exact absurd hpair (by decide)

end MudouHttp.HeapTimer
