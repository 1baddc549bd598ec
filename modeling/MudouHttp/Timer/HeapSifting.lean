import Mathlib.Data.Int.Order.Basic
import MudouHttp.Lib.Heaps
import MudouHttp.Timer.HeapTimer

/-!
# siftdown_

`ref_` gives the position of every node (`Exact`), and an exchange of two nodes
keeps that. `siftdown_` puts a subtree in order and changes nothing else
(`siftdown_ok`).
-/

namespace MudouHttp.HeapTimer

open Function (update update_self update_of_ne)
open Lib.Heaps

def key (heap : List TimerNode) (p : Nat) : Int := (heap[p]?).elim 0 TimerNode.expires

/-- `ref_` has the position of every node, and nothing else. -/
def Exact (h : HeapTimer) : Prop :=
  ∀ id p, h.ref id = some p ↔ ∃ x, h.heap[p]? = some x ∧ x.id = id

variable {h h' : HeapTimer} {index i j n p : Nat}

theorem Exact.ref_of (he : h.Exact) (hx : h.heap[p]? = some x) : h.ref x.id = some p :=
  (he x.id p).mpr ⟨x, hx, rfl⟩

theorem Exact.position (he : h.Exact) (hx : h.heap[p]? = some x) (hy : h.heap[q]? = some y)
    (hid : x.id = y.id) : p = q := by
  have hp := he.ref_of hx
  rw [hid, he.ref_of hy] at hp
  exact (Option.some.inj hp).symm

theorem getElem?_lt (hp : p < h.heap.length) : h.heap[p]? = some h.heap[p] :=
  List.getElem?_eq_getElem hp

theorem node_ok (hx : h.heap[p]? = some x) : h.node p = .ok x := by
  rw [node, hx]

theorem key_of (hx : h.heap[p]? = some x) : key h.heap p = x.expires := by
  rw [key, hx]
  rfl

def indexed (heap : List TimerNode) : HeapTimer :=
  { heap := heap, ref := fun id => (heap.map TimerNode.id).idxOf? id }

theorem indexed_exact {heap : List TimerNode} (hids : (heap.map TimerNode.id).Nodup) :
    (indexed heap).Exact := by
  intro id p
  have hat : (∃ x, heap[p]? = some x ∧ x.id = id) ↔ (heap.map TimerNode.id)[p]? = some id := by
    rw [List.getElem?_map, Option.map_eq_some_iff]
  show (heap.map TimerNode.id).idxOf? id = some p ↔ ∃ x, heap[p]? = some x ∧ x.id = id
  rw [hat]
  constructor
  · intro hp
    obtain ⟨hlt, hid, -⟩ := List.idxOf?_eq_some_iff.mp hp
    rw [List.getElem?_eq_getElem hlt, hid]
  · intro hp
    obtain ⟨hlt, hid⟩ := List.getElem?_eq_some_iff.mp hp
    refine List.idxOf?_eq_some_iff.mpr ⟨hlt, hid, fun j hj heq => ?_⟩
    exact Nat.ne_of_lt hj ((List.getElem_inj hids).mp (heq.trans hid.symm))

-- ---------------------------------------------------------------------------
-- Exchanges
-- ---------------------------------------------------------------------------

structure Exchanged (h h' : HeapTimer) (i j : Nat) : Prop where
  perm : h'.heap.Perm h.heap
  left : h'.heap[i]? = h.heap[j]?
  right : h'.heap[j]? = h.heap[i]?
  other : ∀ p, p ≠ i → p ≠ j → h'.heap[p]? = h.heap[p]?
  exact : h.Exact → h'.Exact

theorem Exchanged.swapped (hx : Exchanged h h' i j) : Swapped (key h.heap) (key h'.heap) i j where
  left := by rw [key, hx.left, key]
  right := by rw [key, hx.right, key]
  other := fun p hi hj => by rw [key, hx.other p hi hj, key]

theorem Exchanged.length_eq (hx : Exchanged h h' i j) : h'.heap.length = h.heap.length :=
  hx.perm.length_eq

theorem Exact.exchange {heap : List TimerNode} (he : h.Exact) (hij : i ≠ j)
    (hx : h.heap[i]? = some x) (hy : h.heap[j]? = some y)
    (hleft : heap[i]? = some y) (hright : heap[j]? = some x)
    (hother : ∀ p, p ≠ i → p ≠ j → heap[p]? = h.heap[p]?) :
    Exact { heap := heap, ref := update (update h.ref y.id (some i)) x.id (some j) } := by
  intro id p
  show update (update h.ref y.id (some i)) x.id (some j) id = some p ↔ ∃ z, heap[p]? = some z ∧ z.id = id
  constructor
  · intro hp
    by_cases hidx : id = x.id
    · subst hidx
      rw [update_self] at hp
      cases hp
      exact ⟨x, hright, rfl⟩
    · rw [update_of_ne hidx] at hp
      by_cases hidy : id = y.id
      · subst hidy
        rw [update_self] at hp
        cases hp
        exact ⟨y, hleft, rfl⟩
      · rw [update_of_ne hidy] at hp
        obtain ⟨z, hz, rfl⟩ := (he id p).mp hp
        refine ⟨z, (hother p ?_ ?_).trans hz, rfl⟩
        · rintro rfl
          exact hidx (congrArg TimerNode.id (Option.some.inj (hz.symm.trans hx)))
        · rintro rfl
          exact hidy (congrArg TimerNode.id (Option.some.inj (hz.symm.trans hy)))
  · rintro ⟨z, hz, rfl⟩
    by_cases hpi : p = i
    · subst hpi
      obtain rfl := Option.some.inj (hleft.symm.trans hz)
      rw [update_of_ne (fun hid => hij (he.position hx hy hid.symm)), update_self]
    · by_cases hpj : p = j
      · subst hpj
        obtain rfl := Option.some.inj (hright.symm.trans hz)
        rw [update_self]
      · rw [hother p hpi hpj] at hz
        rw [update_of_ne fun hid => hpi (he.position hz hx hid),
          update_of_ne fun hid => hpj (he.position hz hy hid)]
        exact he.ref_of hz

theorem swapNode_ok (hi : i < h.heap.length) (hj : j < h.heap.length) (hij : i ≠ j) :
    ∃ h', h.swapNode i j = .ok h' ∧ Exchanged h h' i j := by
  have hx := getElem?_lt hi
  have hy := getElem?_lt hj
  generalize hxn : h.heap[i] = x at hx
  generalize hyn : h.heap[j] = y at hy
  have hleft : ((h.heap.set i y).set j x)[i]? = some y := by
    rw [List.getElem?_set_ne hij.symm, List.getElem?_set_self hi]
  have hright : ((h.heap.set i y).set j x)[j]? = some x :=
    List.getElem?_set_self (by rwa [List.length_set])
  have hother : ∀ p, p ≠ i → p ≠ j → ((h.heap.set i y).set j x)[p]? = h.heap[p]? := by
    intro p hpi hpj
    rw [List.getElem?_set_ne hpj.symm, List.getElem?_set_ne hpi.symm]
  refine ⟨_, by rw [swapNode, hx, hy], ?_, hleft.trans hy.symm, hright.trans hx.symm, hother,
    fun he => he.exchange hij hx hy hleft hright hother⟩
  have hperm := List.set_set_perm hi hj
  rwa [hxn, hyn] at hperm

-- ---------------------------------------------------------------------------
-- A turn of siftdown_
-- ---------------------------------------------------------------------------

theorem left_child (i : Nat) : parent (i * 2 + 1) = i := by
  rw [Nat.mul_comm]
  exact parent_left i

theorem right_child (i : Nat) : parent (i * 2 + 2) = i := by
  rw [Nat.mul_comm]
  exact parent_right i

theorem smallerChild_ok (hlt : i * 2 + 1 < n) (hn : n ≤ h.heap.length) :
    ∃ j, h.smallerChild (i * 2 + 1) n = .ok j ∧ LeastChild (key h.heap) n i j := by
  have hleft := getElem?_lt (Nat.lt_of_lt_of_le hlt hn)
  have hchild : ∀ c, 0 < c → parent c = i → c = i * 2 + 1 ∨ c = i * 2 + 2 := by
    intro c hc hp
    have hcases := child_cases hc
    omega
  by_cases hsecond : i * 2 + 1 + 1 < n
  · have hright := getElem?_lt (Nat.lt_of_lt_of_le hsecond hn)
    have hrun : h.smallerChild (i * 2 + 1) n =
        .ok (if key h.heap (i * 2 + 2) < key h.heap (i * 2 + 1) then i * 2 + 2 else i * 2 + 1) := by
      rw [smallerChild, if_pos hsecond, node_ok hright, node_ok hleft, key_of hleft, key_of hright]
      rfl
    by_cases hless : key h.heap (i * 2 + 2) < key h.heap (i * 2 + 1)
    · refine ⟨i * 2 + 2, by rw [hrun, if_pos hless], Nat.succ_pos _, hsecond, right_child i, ?_⟩
      intro c hc _ hp
      rcases hchild c hc hp with rfl | rfl
      · exact hless.le
      · exact le_refl _
    · refine ⟨i * 2 + 1, by rw [hrun, if_neg hless], Nat.succ_pos _, hlt, left_child i, ?_⟩
      intro c hc _ hp
      rcases hchild c hc hp with rfl | rfl
      · exact le_refl _
      · exact not_lt.mp hless
  · refine ⟨i * 2 + 1, by rw [smallerChild, if_neg hsecond]; rfl, Nat.succ_pos _, hlt, left_child i, ?_⟩
    intro c hc hcn hp
    rcases hchild c hc hp with rfl | rfl
    · exact le_refl _
    · exact absurd hcn hsecond

/-- A turn goes on to the least child unless all children are greater. -/
theorem sinksTo_ok (hi : i < n) (hn : n ≤ h.heap.length) : ∃ r, h.sinksTo i n = .ok r ∧
    (r = none → ∀ c, 0 < c → c < n → parent c = i → key h.heap i < key h.heap c) ∧
    ∀ j, r = some j → LeastChild (key h.heap) n i j ∧ key h.heap j ≤ key h.heap i := by
  unfold sinksTo
  by_cases hlt : i * 2 + 1 < n
  · obtain ⟨j, hj, hleast⟩ := smallerChild_ok hlt hn
    have hx := getElem?_lt (Nat.lt_of_lt_of_le hi hn)
    have hbelow := getElem?_lt (Nat.lt_of_lt_of_le hleast.lt hn)
    rw [if_pos hlt, hj, ok_bind, node_ok hx, ok_bind, node_ok hbelow, ok_bind, ← key_of hx,
      ← key_of hbelow]
    refine ⟨_, rfl, ?_, ?_⟩
    · intro hnone c hc hcn hp
      split at hnone
      · rename_i hless
        exact hless.trans_le (hleast.least c hc hcn hp)
      · cases hnone
    · intro j' hsome
      split at hsome
      · cases hsome
      · rename_i hnot
        cases hsome
        exact ⟨hleast, not_lt.mp hnot⟩
  · rw [if_neg hlt]
    refine ⟨none, rfl, fun _ c hc hcn hp => ?_, nofun⟩
    have hcases := child_cases hc
    omega

-- ---------------------------------------------------------------------------
-- The loop of siftdown_
-- ---------------------------------------------------------------------------

theorem siftdownLoop_stop (hr : h.sinksTo i n = .ok none) (fuel : Nat) :
    siftdownLoop (fuel + 1) h i n = .ok (h, i) := by
  rw [siftdownLoop, hr]
  rfl

theorem siftdownLoop_go (hr : h.sinksTo i n = .ok (some j)) (hs : h.swapNode i j = .ok h₁)
    (fuel : Nat) : siftdownLoop (fuel + 1) h i n = siftdownLoop fuel h₁ j n := by
  rw [siftdownLoop, hr, ok_bind]
  dsimp only
  rw [hs, ok_bind]

theorem siftdownLoop_turn (hi : i < n) (hn : n ≤ h.heap.length) (fuel : Nat) :
    siftdownLoop (fuel + 1) h i n = .ok (h, i) ∧
        (∀ c, 0 < c → c < n → parent c = i → key h.heap i < key h.heap c) ∨
      ∃ j h₁, siftdownLoop (fuel + 1) h i n = siftdownLoop fuel h₁ j n ∧ i < j ∧
        LeastChild (key h.heap) n i j ∧ key h.heap j ≤ key h.heap i ∧ Exchanged h h₁ i j := by
  obtain ⟨r, hr, hnone, hsome⟩ := sinksTo_ok hi hn
  cases r with
  | none => exact .inl ⟨siftdownLoop_stop hr fuel, hnone rfl⟩
  | some j =>
    obtain ⟨hj, hle⟩ := hsome j rfl
    have hij : i < j := hj.parent ▸ parent_lt hj.pos
    obtain ⟨h₁, hswap, hx⟩ := swapNode_ok (Nat.lt_of_lt_of_le hi hn)
      (Nat.lt_of_lt_of_le hj.lt hn) (Nat.ne_of_lt hij)
    exact .inr ⟨j, h₁, siftdownLoop_go hr hswap fuel, hij, hj, hle, hx⟩

/-- The loop changes nothing outside the subtree and nothing from `n` on. -/
theorem siftdownLoop_other (hi : i < n) (hn : n ≤ h.heap.length)
    (hrun : siftdownLoop fuel h i n = .ok (h', k)) (hp : Within i p → n ≤ p) :
    h'.heap[p]? = h.heap[p]? := by
  induction fuel generalizing h i with
  | zero => cases hrun
  | succ fuel ih =>
    rcases siftdownLoop_turn hi hn fuel with ⟨hstop, -⟩ | ⟨j, h₁, hgo, hij, hj, -, hx⟩
    · cases hstop.symm.trans hrun
      rfl
    · have hwj : Within i j := .of_parent hj.pos hj.parent
      have hpi : p ≠ i := fun hpi => by
        have := hp (hpi ▸ .root)
        omega
      have hpj : p ≠ j := fun hpj => by
        have := hp (hpj ▸ hwj)
        have := hj.lt
        omega
      rw [hgo] at hrun
      rw [ih hj.lt (hx.length_eq ▸ hn) hrun fun hw => hp (hwj.trans hw), hx.other p hpi hpj]

structure Sunk (h h' : HeapTimer) (a n i k : Nat) : Prop where
  perm : h'.heap.Perm h.heap
  exact : h.Exact → h'.Exact
  ordered : Ordered (key h'.heap) n (Within a)
  within : Within i k
  moves : k ≠ i ↔ ∃ c, 0 < c ∧ c < n ∧ parent c = i ∧ key h.heap c ≤ key h.heap i
  filled : k ≠ i → ∃ q, Within i q ∧ q ≠ i ∧ q < n ∧ h'.heap[i]? = h.heap[q]?
  stays : k = i → h' = h

theorem siftdownLoop_ok (hi : i < n) (hn : n ≤ h.heap.length) (hs : Sinking (key h.heap) n a i)
    (hfuel : n < fuel + i) : ∃ h' k, siftdownLoop fuel h i n = .ok (h', k) ∧ Sunk h h' a n i k := by
  induction fuel generalizing h i with
  | zero => omega
  | succ fuel ih =>
    rcases siftdownLoop_turn hi hn fuel with ⟨hstop, hless⟩ | ⟨j, h₁, hgo, hij, hj, hle, hx⟩
    · refine ⟨h, i, hstop, .refl _, id, ?_, .root, ?_, fun hne => absurd rfl hne, fun _ => rfl⟩
      · exact hs.stop fun c hc hcn hp => (hless c hc hcn hp).le
      · refine iff_of_false (fun hne => hne rfl) ?_
        rintro ⟨c, hc, hcn, hp, hle⟩
        exact absurd (hless c hc hcn hp) (not_lt.mpr hle)
    · have hwj : Within i j := .of_parent hj.pos hj.parent
      have hlen := hx.length_eq
      obtain ⟨h', k, hrun, hsunk⟩ := ih hj.lt (by omega) (hs.swap hj hle hx.swapped) (by omega)
      have hjk := hsunk.within.le
      -- the rest of the loop stays below `j`
      have hout : ¬Within j i := fun hw => by
        have := hw.le
        omega
      refine ⟨h', k, hgo.trans hrun, hsunk.perm.trans hx.perm, fun he => hsunk.exact (hx.exact he),
        hsunk.ordered, hwj.trans hsunk.within, ?_, fun _ => ⟨j, hwj, by omega, hj.lt, ?_⟩, ?_⟩
      · exact iff_of_true (by omega) ⟨j, hj.pos, hj.lt, hj.parent, hle⟩
      · have hkept := siftdownLoop_other hj.lt (hlen ▸ hn) hrun fun hw => absurd hw hout
        exact hkept.trans hx.left
      · intro hki
        omega

-- ---------------------------------------------------------------------------
-- What siftdown_ looks at
-- ---------------------------------------------------------------------------

def Agree (h g : HeapTimer) (i n : Nat) : Prop :=
  ∀ p, Within i p → p < n → g.heap[p]? = h.heap[p]?

variable {g : HeapTimer}

theorem Agree.node (ha : Agree h g i n) (hw : Within i p) (hp : p < n) : g.node p = h.node p := by
  rw [HeapTimer.node, ha p hw hp, HeapTimer.node]

theorem Agree.sinksTo (ha : Agree h g i n) (hi : i < n) (hn : n ≤ h.heap.length) :
    g.sinksTo i n = h.sinksTo i n := by
  unfold HeapTimer.sinksTo
  by_cases hlt : i * 2 + 1 < n
  · have hleft := ha.node (.of_parent (Nat.succ_pos _) (left_child i)) hlt
    have hsmaller : g.smallerChild (i * 2 + 1) n = h.smallerChild (i * 2 + 1) n := by
      unfold smallerChild
      by_cases hsecond : i * 2 + 1 + 1 < n
      · have hright := ha.node (.of_parent (Nat.succ_pos _) (right_child i)) hsecond
        rw [if_pos hsecond, if_pos hsecond, hleft, hright]
      · rw [if_neg hsecond, if_neg hsecond]
    obtain ⟨j, hj, hleast⟩ := smallerChild_ok hlt hn
    have hbelow := ha.node (.of_parent hleast.pos hleast.parent) hleast.lt
    rw [if_pos hlt, if_pos hlt, hsmaller, hj, ok_bind, ok_bind, ha.node .root hi, hbelow]
  · rw [if_neg hlt, if_neg hlt]

theorem Agree.exchange (ha : Agree h g i n) (hx : Exchanged h h₁ i j) (hy : Exchanged g g₁ i j)
    (hi : i < n) (hj : j < n) (hw : Within i j) : Agree h₁ g₁ i n := by
  intro p hwp hp
  by_cases hpi : p = i
  · rw [hpi, hy.left, hx.left]
    exact ha j hw hj
  · by_cases hpj : p = j
    · rw [hpj, hy.right, hx.right]
      exact ha i .root hi
    · rw [hy.other p hpi hpj, hx.other p hpi hpj]
      exact ha p hwp hp

theorem siftdownLoop_agree (ha : Agree h g i n) (hi : i < n) (hn : n ≤ h.heap.length)
    (hng : n ≤ g.heap.length) (hrun : siftdownLoop fuel h i n = .ok (h', k)) :
    ∃ g', siftdownLoop fuel g i n = .ok (g', k) ∧ Agree h' g' i n := by
  induction fuel generalizing h g i with
  | zero => cases hrun
  | succ fuel ih =>
    obtain ⟨r, hr, -, hsome⟩ := sinksTo_ok hi hn
    have hgr := (ha.sinksTo hi hn).trans hr
    cases r with
    | none =>
      cases (siftdownLoop_stop hr fuel).symm.trans hrun
      exact ⟨g, siftdownLoop_stop hgr fuel, ha⟩
    | some j =>
      obtain ⟨hj, -⟩ := hsome j rfl
      have hij : i < j := hj.parent ▸ parent_lt hj.pos
      have hwj : Within i j := .of_parent hj.pos hj.parent
      have hjn := hj.lt
      obtain ⟨h₁, hswap, hx⟩ := @swapNode_ok h i j (by omega) (by omega) (by omega)
      obtain ⟨g₁, hgswap, hy⟩ := @swapNode_ok g i j (by omega) (by omega) (by omega)
      have hlen := hx.length_eq
      have hglen := hy.length_eq
      have ha₁ : Agree h₁ g₁ i n := ha.exchange hx hy hi hjn hwj
      rw [siftdownLoop_go hr hswap] at hrun
      obtain ⟨g', hgrun, ha'⟩ := ih (fun p hw hp => ha₁ p (hwj.trans hw) hp) hjn (by omega) (by omega) hrun
      refine ⟨g', (siftdownLoop_go hgr hgswap fuel).trans hgrun, fun p hw hp => ?_⟩
      by_cases hwp : Within j p
      · exact ha' p hwp hp
      · rw [siftdownLoop_other hjn (by omega) hgrun fun hw => absurd hw hwp,
          siftdownLoop_other hjn (by omega) hrun fun hw => absurd hw hwp]
        exact ha₁ p hw hp

-- ---------------------------------------------------------------------------
-- siftdown_
-- ---------------------------------------------------------------------------

theorem siftdown_loop (hi : i < n) (hn : n ≤ h.heap.length)
    (hrun : siftdownLoop (n + 1) h i n = .ok (h', k)) :
    h.siftdown i n = .ok (h', decide (k > i)) := by
  rw [siftdown, if_pos ⟨Nat.lt_of_lt_of_le hi hn, hn⟩, hrun]
  rfl

theorem siftdown_sunk (hi : i < n) (hn : n ≤ h.heap.length)
    (hord : Ordered (key h.heap) n fun p => Within i p ∧ p ≠ i) :
    ∃ h' k, siftdownLoop (n + 1) h i n = .ok (h', k) ∧ Sunk h h' i n i k :=
  siftdownLoop_ok hi hn (.start hord) (by omega)

/-- A subtree that is in order below its root is put in order, and nothing else
is looked at or changed. -/
theorem siftdown_ok (hexact : h.Exact) (hi : index < n) (hn : n ≤ h.heap.length)
    (hord : Ordered (key h.heap) n fun p => Within index p ∧ p ≠ index) :
    ∃ h' moved, h.siftdown index n = .ok (h', moved) ∧ h'.heap.Perm h.heap ∧ h'.Exact ∧
      Ordered (key h'.heap) n (Within index) ∧
      (∀ p, (Within index p → n ≤ p) → h'.heap[p]? = h.heap[p]?) ∧
      (moved = true ↔ h'.heap[index]? ≠ h.heap[index]?) ∧
      ∀ g, Agree h g index n → n ≤ g.heap.length →
        ∃ g', g.siftdown index n = .ok (g', moved) ∧ Agree h' g' index n := by
  obtain ⟨h', k, hrun, hsunk⟩ := siftdown_sunk hi hn hord
  have hle := hsunk.within.le
  refine ⟨h', decide (k > index), siftdown_loop hi hn hrun, hsunk.perm, hsunk.exact hexact,
    hsunk.ordered, fun p hp => siftdownLoop_other hi hn hrun hp, ?_, ?_⟩
  · rw [decide_eq_true_eq]
    constructor
    · intro hk hsame
      obtain ⟨q, -, hq, hqn, hfilled⟩ := hsunk.filled (by omega)
      have hx := getElem?_lt (h := h) (Nat.lt_of_lt_of_le hqn hn)
      exact hq (hexact.position hx (hsame.symm.trans (hfilled.trans hx)) rfl)
    · intro hne
      rcases Nat.eq_or_lt_of_le hle with hk | hk
      · exact absurd (by rw [hsunk.stays hk.symm]) hne
      · exact hk
  · intro g ha hng
    obtain ⟨g', hgrun, ha'⟩ := siftdownLoop_agree ha hi hn hng hrun
    exact ⟨g', siftdown_loop hi hng hgrun, ha'⟩

theorem siftdown_ok_example : ∃ h' moved,
    (indexed [⟨0, 5, 0⟩, ⟨1, 3, 1⟩, ⟨2, 4, 2⟩]).siftdown 0 3 = .ok (h', moved) ∧ h'.Exact ∧
      Ordered (key h'.heap) 3 (Within 0) := by
  have hroot : ∀ c, c < 3 → parent c = 0 := by decide
  obtain ⟨h', moved, hrun, -, hexact, hord, -⟩ :=
    siftdown_ok (h := indexed [⟨0, 5, 0⟩, ⟨1, 3, 1⟩, ⟨2, 4, 2⟩]) (n := 3) (indexed_exact (by decide))
      (by decide) (by decide) fun c _ hc hp => absurd (hroot c hc) hp.2
  exact ⟨h', moved, hrun, hexact, hord⟩

end MudouHttp.HeapTimer
