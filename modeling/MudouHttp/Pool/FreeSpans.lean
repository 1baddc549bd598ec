import Mathlib.Data.List.Pairwise
import Mathlib.Data.List.Perm.Subperm
import MudouHttp.Lib.Chain
import MudouHttp.Pool.SpanHeap

/-!
# The free lists of the page cache

`Listed pc lists`: the list of each size is a chain of spans of that size, no
span is on two of them, and every span that exists is on one or is out.
-/

namespace MudouHttp.PageCache

open Function (update update_self update_of_ne)
open Lib (Segment Chain segment_append)

-- ---------------------------------------------------------------------------
-- Objects
-- ---------------------------------------------------------------------------

theorem deref_ok_iff {pc : PageCache} :
    pc.deref (some i) = .ok span ↔ pc.objects[i]? = some (some span) := by
  simp only [deref]
  split
  · rename_i h
    simp [h]
  · rename_i h
    simp only [reduceCtorEq, false_iff]
    exact h span

theorem deref_lt {pc : PageCache} (h : pc.deref (some i) = .ok span) : i < pc.objects.length :=
  (List.getElem?_eq_some_iff.mp (deref_ok_iff.mp h)).1

theorem deref_ok (h : deref pc p = .ok span) : ∃ i, p = some i ∧ i < pc.objects.length := by
  cases p with
  | none => cases h
  | some i => exact ⟨i, rfl, deref_lt h⟩

theorem deref_congr {pc pc' : PageCache} (h : pc'.objects = pc.objects) (p : Option Nat) :
    pc'.deref p = pc.deref p := by
  cases p with
  | none => rfl
  | some i =>
    simp only [deref, h]

theorem deref_setSpan_same {pc : PageCache} (h : i < pc.objects.length) (span : Span) :
    (pc.setSpan i (some span)).deref (some i) = .ok span :=
  deref_ok_iff.mpr (List.getElem?_set_self h)

theorem deref_setSpan_other {pc : PageCache} (h : p ≠ some i) (span : Option Span) :
    (pc.setSpan i span).deref p = pc.deref p := by
  cases p with
  | none => rfl
  | some j =>
    have hne : i ≠ j := fun hij => h (congrArg some hij.symm)
    simp only [deref, setSpan, List.getElem?_set_ne hne]

theorem deref_deleted (pc : PageCache) (i : Nat) : (pc.setSpan i none).deref (some i) ≠ .ok span := by
  intro h
  have hnone := deref_ok_iff.mp h
  rw [setSpan, List.getElem?_set] at hnone
  split at hnone
  · split at hnone <;> cases hnone
  · rename_i hne
    exact hne rfl

theorem deref_append_same (pc : PageCache) (span : Span) :
    deref { pc with objects := pc.objects ++ [some span] } (some pc.objects.length) = .ok span :=
  deref_ok_iff.mpr List.getElem?_concat_length

theorem deref_append_other {pc : PageCache} (h : p ≠ some pc.objects.length) (span : Span) :
    deref { pc with objects := pc.objects ++ [some span] } p = pc.deref p := by
  cases p with
  | none => rfl
  | some i =>
    have hne : i ≠ pc.objects.length := fun hi => h (congrArg some hi)
    simp only [deref]
    rcases Nat.lt_or_gt_of_ne hne with hlt | hgt
    · rw [List.getElem?_append_left hlt]
    · rw [List.getElem?_eq_none (by simpa using Nat.succ_le_of_lt hgt),
        List.getElem?_eq_none (Nat.le_of_lt hgt)]

def link (pc : PageCache) (p : Option Nat) : Option Nat :=
  match pc.deref p with
  | .ok span => span.next
  | .error _ => none

theorem link_eq (h : deref pc p = .ok span) : pc.link p = span.next := by
  unfold link
  rw [h]

theorem link_congr {pc pc' : PageCache} (h : pc'.deref p = pc.deref p) :
    pc'.link p = pc.link p := by
  unfold link
  rw [h]

-- ---------------------------------------------------------------------------
-- freeSpans_
-- ---------------------------------------------------------------------------

theorem find_setList (key k : Nat) (head : Option Nat) (lists : List (Nat × Option Nat)) :
    (setList key head lists).find? (fun entry => entry.1 = k) =
      if k = key then some (key, head) else lists.find? fun entry => entry.1 = k := by
  induction lists with
  | nil =>
    simp only [setList, List.find?_singleton, List.find?_nil, decide_eq_true_eq]
    exact if_congr ⟨Eq.symm, Eq.symm⟩ rfl rfl
  | cons entry lists ih =>
    obtain ⟨k', h⟩ := entry
    simp only [setList]
    split
    · rename_i hlt
      rw [List.find?_cons, List.find?_cons, ih]
      by_cases hk : k' = k
      · have hne : ¬k = key := by omega
        simp [hk, hne]
      · simp [hk]
    · split
      · rename_i heq
        rw [List.find?_cons, List.find?_cons]
        by_cases hk : k = key
        · simp [hk]
        · have hkey : ¬key = k := fun h => hk h.symm
          have hk' : ¬k' = k := fun h => hk (h.symm.trans heq)
          simp [hk, hk', hkey]
      · rw [List.find?_cons]
        by_cases hk : k = key
        · simp [hk]
        · have hkey : ¬key = k := fun h => hk h.symm
          simp [hk, hkey]

theorem head_setHead (pc : PageCache) (key k : Nat) (h : Option Nat) :
    (pc.setHead key h).head k = if k = key then h else pc.head k := by
  unfold head setHead
  rw [find_setList]
  split <;> rfl

theorem head_eraseList (pc : PageCache) (key k : Nat) :
    head { pc with freeSpans := eraseList key pc.freeSpans } k =
      if k = key then none else pc.head k := by
  unfold head eraseList
  rw [List.find?_filter]
  by_cases hk : k = key
  · rw [if_pos hk, List.find?_eq_none.mpr]
    · rfl
    · intro a _
      simp only [hk, decide_eq_true_eq]
      exact fun h => h.1 h.2
  · rw [if_neg hk]
    congr 3
    funext a
    by_cases ha : a.1 = k
    · simp [ha, hk]
    · simp [ha]

theorem keys_setList (key : Nat) (head : Option Nat) (lists : List (Nat × Option Nat)) :
    k ∈ (setList key head lists).map Prod.fst → k = key ∨ k ∈ lists.map Prod.fst := by
  induction lists with
  | nil => simp [setList]
  | cons entry lists ih =>
    obtain ⟨k', h⟩ := entry
    simp only [setList]
    split
    · simp only [List.map_cons, List.mem_cons]
      rintro (rfl | hk)
      · exact .inr (.inl rfl)
      · exact (ih hk).imp_right .inr
    · split
      · simp only [List.map_cons, List.mem_cons]
        exact fun hk => hk.imp_right .inr
      · simp only [List.map_cons, List.mem_cons]
        exact id

theorem setList_sorted {lists : List (Nat × Option Nat)}
    (h : (lists.map Prod.fst).Pairwise (· < ·)) (key : Nat) (head : Option Nat) :
    ((setList key head lists).map Prod.fst).Pairwise (· < ·) := by
  induction lists with
  | nil => exact List.pairwise_singleton _ _
  | cons entry lists ih =>
    obtain ⟨k', h'⟩ := entry
    obtain ⟨hhead, htail⟩ := List.pairwise_cons.mp h
    simp only [setList]
    split
    · rename_i hlt
      refine List.pairwise_cons.mpr ⟨fun k hk => ?_, ih htail⟩
      rcases keys_setList key head lists hk with rfl | hk
      · exact hlt
      · exact hhead k hk
    · split
      · rename_i heq
        exact List.pairwise_cons.mpr ⟨heq ▸ hhead, htail⟩
      · refine List.pairwise_cons.mpr ⟨fun k hk => ?_, h⟩
        rcases List.mem_cons.mp hk with rfl | hk
        · omega
        · have := hhead k hk
          omega

theorem eraseList_sorted {lists : List (Nat × Option Nat)}
    (h : (lists.map Prod.fst).Pairwise (· < ·)) (key : Nat) :
    ((eraseList key lists).map Prod.fst).Pairwise (· < ·) :=
  h.sublist (List.filter_sublist.map _)

theorem mem_of_head {pc : PageCache} (h : pc.head k = some i) : (k, some i) ∈ pc.freeSpans := by
  unfold head at h
  cases hf : pc.freeSpans.find? fun entry => entry.1 = k with
  | none => simp [hf] at h
  | some entry =>
    obtain ⟨k', head⟩ := entry
    have hk := List.find?_some hf
    simp only [decide_eq_true_eq] at hk
    simp only [hf, Option.map_some, Option.getD_some] at h
    exact hk ▸ h ▸ List.mem_of_find?_eq_some hf

theorem head_of_mem {pc : PageCache} (hs : (pc.freeSpans.map Prod.fst).Pairwise (· < ·))
    (h : (k, p) ∈ pc.freeSpans) : pc.head k = p := by
  unfold head
  generalize pc.freeSpans = entries at hs h
  induction entries with
  | nil => cases h
  | cons entry entries ih =>
    obtain ⟨hlt, htail⟩ := List.pairwise_cons.mp hs
    rcases List.mem_cons.mp h with rfl | h
    · simp
    · have hne : ¬entry.1 = k := Nat.ne_of_lt (hlt k (List.mem_map.mpr ⟨_, h, rfl⟩))
      simp only [List.find?_cons, hne, decide_false]
      exact ih htail h

-- ---------------------------------------------------------------------------
-- Where spans are
-- ---------------------------------------------------------------------------

/-- The pages of a span; `next` does not matter for them. -/
def place (pc : PageCache) (p : Option Nat) : Option (Addr × Nat) :=
  match pc.deref p with
  | .ok span => some (span.pageAddr, span.numPages)
  | .error _ => none

theorem place_eq (h : deref pc p = .ok span) : pc.place p = some (span.pageAddr, span.numPages) := by
  unfold place
  rw [h]

theorem place_congr {pc pc' : PageCache} (h : pc'.deref p = pc.deref p) :
    pc'.place p = pc.place p := by
  unfold place
  rw [h]

theorem place_some {pc : PageCache} (h : pc.place p = some (a, n)) :
    ∃ span, pc.deref p = .ok span ∧ span.pageAddr = a ∧ span.numPages = n := by
  unfold place at h
  split at h
  · rename_i span hd
    cases h
    exact ⟨span, hd, rfl, rfl⟩
  · cases h

/-- `lists (some k)` is the list of the spans of `k` pages, `lists none` are
the spans that are on no list. -/
structure Listed (pc : PageCache) (lists : Option Nat → List (Option Nat)) : Prop where
  sorted : (pc.freeSpans.map Prod.fst).Pairwise (· < ·)
  chain : ∀ k, Chain pc.link none (pc.head k) (lists (some k))
  sized : ∀ k p, p ∈ lists (some k) → ∃ a, pc.place p = some (a, k)
  out : ∀ p, p ∈ lists none → ∃ a n, pc.place p = some (a, n)
  apart : Lib.Apart lists
  all : ∀ p a n, pc.place p = some (a, n) → ∃ h, p ∈ lists h

variable {pc : PageCache} {lists : Option Nat → List (Option Nat)}

theorem Listed.exists_of_mem (h : Listed pc lists) (hp : p ∈ lists holder) :
    ∃ span, pc.deref p = .ok span := by
  cases holder with
  | none =>
    obtain ⟨a, n, hplace⟩ := h.out p hp
    obtain ⟨span, hd, -⟩ := place_some hplace
    exact ⟨span, hd⟩
  | some k =>
    obtain ⟨a, hplace⟩ := h.sized k p hp
    obtain ⟨span, hd, -⟩ := place_some hplace
    exact ⟨span, hd⟩

theorem Listed.holder (h : Listed pc lists) (hd : pc.deref p = .ok span) :
    p ∈ lists none ∨ p ∈ lists (some span.numPages) := by
  obtain ⟨holder, hp⟩ := h.all p _ _ (place_eq hd)
  cases holder with
  | none => exact .inl hp
  | some k =>
    obtain ⟨a, hplace⟩ := h.sized k p hp
    rw [place_eq hd] at hplace
    cases hplace
    exact .inr hp

theorem Listed.setSpan (h : Listed pc lists) (hi : some i ∈ lists none) (span : Span) :
    Listed (pc.setSpan i (some span)) lists := by
  obtain ⟨old, hold⟩ := h.exists_of_mem hi
  have hlt := deref_lt hold
  have hother : ∀ k p, p ∈ lists (some k) →
      (pc.setSpan i (some span)).deref p = pc.deref p := by
    intro k p hp
    refine deref_setSpan_other ?_ _
    rintro rfl
    cases h.apart.once _ _ _ hi hp
  refine ⟨h.sorted, fun k => ?_, fun k p hp => ?_, fun p hp => ?_, h.apart, fun p a n hp => ?_⟩
  · exact (h.chain k).frame fun p hp => link_congr (hother k p hp)
  · rw [place_congr (hother k p hp)]
    exact h.sized k p hp
  · by_cases hpi : p = some i
    · rw [hpi, place_eq (deref_setSpan_same hlt span)]
      exact ⟨_, _, rfl⟩
    · rw [place_congr (deref_setSpan_other hpi _)]
      exact h.out p hp
  · by_cases hpi : p = some i
    · exact ⟨none, hpi ▸ hi⟩
    · rw [place_congr (deref_setSpan_other hpi _)] at hp
      exact h.all p a n hp

theorem Listed.relist (h : Listed pc lists) {pc' : PageCache} (hobjects : pc'.objects = pc.objects)
    (hsorted : (pc'.freeSpans.map Prod.fst).Pairwise (· < ·)) (hk : p ∈ lists none ∨ p ∈ lists (some k))
    (hplace : pc.place p = some (a, k)) (hperm : (l ++ l').Perm (lists none ++ lists (some k)))
    (hchain : Chain pc.link none (pc'.head k) l')
    (hother : ∀ j, j ≠ k → pc'.head j = pc.head j)
    (hsame : ∀ q ∈ l', q ∈ lists (some k) ∨ q = p) :
    Listed pc' (Lib.moved lists none l (some k) l') := by
  have hlink : pc'.link = pc.link := funext fun q => link_congr (deref_congr hobjects q)
  have hplaces : ∀ q, pc'.place q = pc.place q := fun q => place_congr (deref_congr hobjects q)
  have hne : (none : Option Nat) ≠ some k := nofun
  refine ⟨hsorted, fun j => ?_, fun j q hq => ?_, fun q hq => ?_, h.apart.share hne hperm, ?_⟩
  · rw [hlink]
    by_cases hj : j = k
    · rw [hj, Lib.moved_right]
      exact hchain
    · rw [Lib.moved_other (Option.some_ne_none j) (fun hjk => hj (Option.some.inj hjk)), hother j hj]
      exact h.chain j
  · rw [hplaces]
    by_cases hj : j = k
    · subst hj
      rw [Lib.moved_right] at hq
      rcases hsame q hq with hq | rfl
      · exact h.sized j q hq
      · exact ⟨a, hplace⟩
    · rw [Lib.moved_other (Option.some_ne_none j) (fun hjk => hj (Option.some.inj hjk))] at hq
      exact h.sized j q hq
  · rw [Lib.moved_left hne] at hq
    rw [hplaces]
    rcases List.mem_append.mp (hperm.mem_iff.mp (List.mem_append_left _ hq)) with hq | hq
    · exact h.out q hq
    · obtain ⟨b, hb⟩ := h.sized k q hq
      exact ⟨b, k, hb⟩
  · intro q b n hq
    rw [hplaces] at hq
    refine Lib.held_moved hne ?_ (h.all q b n hq)
    intro hheld
    exact List.mem_append.mp (hperm.mem_iff.mpr (List.mem_append.mpr hheld))

theorem Listed.pop (h : Listed pc lists) (hhead : pc.head k = p) (hd : pc.deref p = .ok span)
    {entries : List (Nat × Option Nat)}
    (hentries : entries = match span.next with
      | some next => setList k (some next) pc.freeSpans
      | none => eraseList k pc.freeSpans) :
    ∃ rest, lists (some k) = p :: rest ∧ span.numPages = k ∧
      Listed { pc with freeSpans := entries }
        (Lib.moved lists none (p :: lists none) (some k) rest) := by
  have hne : p ≠ none := by
    rintro rfl
    cases hd
  obtain ⟨rest, hlist, hrest⟩ := (hhead ▸ h.chain k : Chain pc.link none p _).cons_of_ne hne
  have hmem : p ∈ lists (some k) := hlist ▸ List.mem_cons_self
  obtain ⟨a, hplace⟩ := h.sized k p hmem
  have hk : span.numPages = k := by
    rw [place_eq hd] at hplace
    cases hplace
    rfl
  have hheads : ∀ j, head { pc with freeSpans := entries } j =
      if j = k then span.next else pc.head j := by
    intro j
    subst hentries
    cases hnext : span.next with
    | none => exact head_eraseList pc k j
    | some next => exact head_setHead pc k j (some next)
  refine ⟨rest, hlist, hk, h.relist rfl ?_ (.inr hmem) hplace ?_ ?_ ?_ ?_⟩
  · subst hentries
    cases span.next with
    | none => exact eraseList_sorted h.sorted k
    | some next => exact setList_sorted h.sorted k (some next)
  · rw [hlist]
    exact List.perm_middle.symm
  · rw [hheads, if_pos rfl, ← link_eq hd]
    exact hrest
  · intro j hj
    rw [hheads, if_neg hj]
  · intro q hq
    exact .inl (hlist ▸ List.mem_cons_of_mem _ hq)

theorem Listed.push (h : Listed pc lists) (hp : p ∈ lists none) (hd : pc.deref p = .ok span)
    (hnext : span.next = pc.head span.numPages) :
    Listed (pc.setHead span.numPages p) (Lib.moved lists none ((lists none).erase p)
      (some span.numPages) (p :: lists (some span.numPages))) := by
  have hne : p ≠ none := by
    rintro rfl
    cases hd
  refine h.relist rfl (setList_sorted h.sorted _ _) (.inl hp) (place_eq hd) ?_ ?_ ?_ ?_
  · exact List.perm_middle.trans ((List.perm_cons_erase hp).symm.append_right _)
  · rw [head_setHead, if_pos rfl]
    refine ⟨rfl, hne, ?_⟩
    rw [link_eq hd, hnext]
    exact h.chain _
  · intro j hj
    rw [head_setHead, if_neg hj]
  · intro q hq
    exact (List.mem_cons.mp hq).symm

theorem Listed.new_object (h : Listed pc lists) (holder : Option Nat) :
    some pc.objects.length ∉ lists holder := by
  intro hmem
  obtain ⟨span, hd⟩ := h.exists_of_mem hmem
  exact Nat.lt_irrefl _ (deref_lt hd)

theorem Listed.fresh (h : Listed pc lists) (span : Span) :
    Listed { pc with objects := pc.objects ++ [some span] }
      (update lists none (some pc.objects.length :: lists none)) := by
  have hother : ∀ holder p, p ∈ lists holder →
      deref { pc with objects := pc.objects ++ [some span] } p = pc.deref p := by
    intro holder p hp
    refine deref_append_other ?_ span
    rintro rfl
    exact h.new_object holder hp
  have hfree : ∀ k : Nat, update lists none (some pc.objects.length :: lists none) (some k) =
      lists (some k) := fun k => update_of_ne (Option.some_ne_none k) ..
  have hout : update lists none (some pc.objects.length :: lists none) none =
      some pc.objects.length :: lists none := update_self ..
  refine ⟨h.sorted, fun k => ?_, fun k p hp => ?_, fun p hp => ?_, h.apart.set ?_ ?_, ?_⟩
  · rw [hfree]
    exact (h.chain k).frame fun p hp => link_congr (hother _ p hp)
  · rw [hfree] at hp
    rw [place_congr (hother _ p hp)]
    exact h.sized k p hp
  · rw [hout] at hp
    rcases List.mem_cons.mp hp with rfl | hp
    · exact ⟨_, _, place_eq (deref_append_same pc span)⟩
    · rw [place_congr (hother _ p hp)]
      exact h.out p hp
  · exact List.nodup_cons.mpr ⟨h.new_object none, h.apart.nodup none⟩
  · intro p hp
    rcases List.mem_cons.mp hp with rfl | hp
    · exact .inr h.new_object
    · exact .inl hp
  · intro p a n hp
    by_cases hnew : p = some pc.objects.length
    · exact ⟨none, by simp [hnew]⟩
    · rw [place_congr (deref_append_other hnew span)] at hp
      obtain ⟨holder, hmem⟩ := h.all p a n hp
      cases holder with
      | none => exact ⟨none, by rw [hout]; exact List.mem_cons_of_mem _ hmem⟩
      | some k => exact ⟨some k, by rwa [hfree]⟩

theorem Listed.delete (h : Listed pc lists) (hi : some i ∈ lists none) :
    Listed (pc.setSpan i none) (update lists none ((lists none).erase (some i))) := by
  have hfree : ∀ k : Nat, update lists none ((lists none).erase (some i)) (some k) =
      lists (some k) := fun k => update_of_ne (Option.some_ne_none k) ..
  have hout : update lists none ((lists none).erase (some i)) none = (lists none).erase (some i) :=
    update_self ..
  have hne : ∀ k p, p ∈ lists (some k) → p ≠ some i := by
    rintro k p hp rfl
    cases h.apart.once _ _ _ hi hp
  have hmem : ∀ p, p ∈ (lists none).erase (some i) ↔ p ≠ some i ∧ p ∈ lists none := fun p =>
    (h.apart.nodup none).mem_erase_iff
  refine ⟨h.sorted, fun k => ?_, fun k p hp => ?_, fun p hp => ?_, h.apart.set ?_ ?_, ?_⟩
  · rw [hfree]
    exact (h.chain k).frame fun p hp => link_congr (deref_setSpan_other (hne k p hp) _)
  · rw [hfree] at hp
    rw [place_congr (deref_setSpan_other (hne k p hp) _)]
    exact h.sized k p hp
  · rw [hout, hmem] at hp
    rw [place_congr (deref_setSpan_other hp.1 _)]
    exact h.out p hp.2
  · exact (h.apart.nodup none).erase _
  · exact fun p hp => .inl ((hmem p).mp hp).2
  · intro p a n hp
    have hpi : p ≠ some i := by
      rintro rfl
      obtain ⟨span, hd, -⟩ := place_some hp
      exact deref_deleted pc i hd
    rw [place_congr (deref_setSpan_other hpi _)] at hp
    obtain ⟨holder, hheld⟩ := h.all p a n hp
    cases holder with
    | none => exact ⟨none, by rw [hout, hmem]; exact ⟨hpi, hheld⟩⟩
    | some k => exact ⟨some k, by rwa [hfree]⟩

-- ---------------------------------------------------------------------------
-- Taking a span out of its list
-- ---------------------------------------------------------------------------

theorem link_setSpan (hlt : j < pc.objects.length) (span : Span) :
    (pc.setSpan j (some span)).link = update pc.link (some j) span.next := by
  funext p
  by_cases hp : p = some j
  · rw [hp, update_self]
    exact link_eq (deref_setSpan_same hlt span)
  · rw [update_of_ne hp]
    exact link_congr (deref_setSpan_other hp _)

theorem place_setSpan {old : Span} (hd : pc.deref (some j) = .ok old) (span : Span)
    (ha : span.pageAddr = old.pageAddr) (hn : span.numPages = old.numPages) :
    (pc.setSpan j (some span)).place = pc.place := by
  funext p
  by_cases hp : p = some j
  · rw [hp, place_eq (deref_setSpan_same (deref_lt hd) span), place_eq hd, ha, hn]
  · exact place_congr (deref_setSpan_other hp _)

theorem findPrev_ok {rounds : Nat} (hchain : Chain pc.link none (some j) l)
    (hok : ∀ p ∈ l, ∃ span, pc.deref p = .ok span) (hlen : l.length ≤ rounds) (i : Nat) :
    ∃ r, pc.findPrev i rounds j = .ok r ∧ match r with
      | none => some i ∉ l.tail
      | some prev => ∃ l₁ l₂, l = l₁ ++ some prev :: some i :: l₂ := by
  induction rounds generalizing j l with
  | zero =>
    obtain rfl := List.length_eq_zero_iff.mp (Nat.le_zero.mp hlen)
    cases hchain
  | succ rounds ih =>
    obtain ⟨rest, rfl, hrest⟩ := hchain.cons_of_ne nofun
    obtain ⟨span, hd⟩ := hok _ List.mem_cons_self
    rw [link_eq hd] at hrest
    have hstep : pc.findPrev i (rounds + 1) j = match span.next with
        | none => .ok none
        | some next => if next = i then .ok (some j) else pc.findPrev i rounds next := by
      rw [findPrev, hd]
      rfl
    cases hnext : span.next with
    | none =>
      rw [hnext] at hrest hstep
      exact ⟨none, hstep, by simp [hrest.of_nil]⟩
    | some next =>
      rw [hnext] at hrest hstep
      simp only at hstep
      obtain ⟨l₂, rfl, -⟩ := hrest.cons_of_ne nofun
      by_cases hi : next = i
      · rw [if_pos hi] at hstep
        exact ⟨some j, hstep, [], l₂, by rw [hi]; rfl⟩
      · rw [if_neg hi] at hstep
        obtain ⟨r, hr, hspec⟩ := ih hrest (fun p hp => hok p (List.mem_cons_of_mem _ hp))
          (Nat.le_of_succ_le_succ hlen)
        refine ⟨r, hstep.trans hr, ?_⟩
        cases r with
        | none =>
          intro hmem
          rcases List.mem_cons.mp hmem with hmem | hmem
          · exact hi (Option.some.inj hmem).symm
          · exact hspec hmem
        | some prev =>
          obtain ⟨l₁, l₂, hl⟩ := hspec
          exact ⟨some j :: l₁, l₂, congrArg _ hl⟩

theorem Listed.length_le (h : Listed pc lists) (holder : Option Nat) :
    (lists holder).length ≤ pc.objects.length := by
  have hsub : lists holder ⊆ (List.range pc.objects.length).map some := by
    intro p hp
    obtain ⟨span, hd⟩ := h.exists_of_mem hp
    obtain ⟨i, rfl, hlt⟩ := deref_ok hd
    exact List.mem_map.mpr ⟨i, List.mem_range.mpr hlt, rfl⟩
  have hlen := (List.subperm_of_subset (h.apart.nodup holder) hsub).length_le
  simpa using hlen

/-- The span in front of it is linked to the one behind it. -/
theorem Listed.bypass (h : Listed pc lists) (hl : lists (some k) = l₁ ++ some j :: some i :: l₂)
    (hj : pc.deref (some j) = .ok prevSpan) (hi : pc.deref (some i) = .ok span) :
    Listed (pc.setSpan j (some { prevSpan with next := span.next }))
      (Lib.moved lists none (some i :: lists none) (some k) (l₁ ++ some j :: l₂)) := by
  have hplaces := place_setSpan hj { prevSpan with next := span.next } rfl rfl
  have hlink := link_setSpan (deref_lt hj) { prevSpan with next := span.next }
  have hne : (none : Option Nat) ≠ some k := nofun
  have hnodup := hl ▸ h.apart.nodup (some k)
  obtain ⟨hfront, htail, hapart⟩ := List.nodup_append.mp hnodup
  have hj₁ : some j ∉ l₁ := fun hmem => hapart _ hmem _ List.mem_cons_self rfl
  have hj₂ : some j ∉ l₂ := fun hmem =>
    (List.nodup_cons.mp htail).1 (List.mem_cons_of_mem _ hmem)
  have hmem : some j ∈ lists (some k) := hl ▸ by simp
  have hperm : ((some i :: lists none) ++ (l₁ ++ some j :: l₂)).Perm
      (lists none ++ lists (some k)) := by
    rw [hl]
    refine (List.perm_middle.symm).trans (List.Perm.append_left _ ?_)
    have hswap : (some i :: some j :: l₂).Perm (some j :: some i :: l₂) := List.Perm.swap ..
    exact List.perm_middle.symm.trans (hswap.append_left _)
  refine ⟨h.sorted, fun k' => ?_, fun k' p hp => ?_, fun p hp => ?_, h.apart.share hne hperm, ?_⟩
  · rw [hlink]
    by_cases hk : k' = k
    · subst hk
      rw [Lib.moved_right]
      have hchain := h.chain k'
      rw [hl, List.append_cons] at hchain
      rw [List.append_cons]
      obtain ⟨mid, hleft, hright⟩ := segment_append.mp hchain
      obtain ⟨rfl, -, hright⟩ := hright
      rw [link_eq hi] at hright
      refine segment_append.mpr ⟨span.next, hleft.relink hj₁ span.next, hright.frame fun p hp => ?_⟩
      refine update_of_ne ?_ _ _
      rintro rfl
      exact hj₂ hp
    · rw [Lib.moved_other (Option.some_ne_none k') (fun hkk => hk (Option.some.inj hkk))]
      refine (h.chain k').frame fun p hp => update_of_ne ?_ _ _
      rintro rfl
      exact hk (Option.some.inj (h.apart.once _ _ _ hp hmem))
  · rw [hplaces]
    by_cases hk : k' = k
    · subst hk
      rw [Lib.moved_right] at hp
      refine h.sized k' p (hl ▸ ?_)
      simp only [List.mem_append, List.mem_cons] at hp ⊢
      tauto
    · rw [Lib.moved_other (Option.some_ne_none k') (fun hkk => hk (Option.some.inj hkk))] at hp
      exact h.sized k' p hp
  · rw [hplaces]
    rw [Lib.moved_left hne] at hp
    rcases List.mem_cons.mp hp with rfl | hp
    · exact ⟨_, _, place_eq hi⟩
    · exact h.out p hp
  · intro p a n hp
    rw [hplaces] at hp
    refine Lib.held_moved hne (fun hheld => ?_) (h.all p a n hp)
    exact List.mem_append.mp (hperm.mem_iff.mpr (List.mem_append.mpr hheld))

/-- `unlink` finds a span exactly if it is free, and faults nowhere. -/
theorem Listed.unlink (h : Listed pc lists) (hd : pc.deref (some i) = .ok span) :
    ∃ pc' found, pc.unlink i = .ok (pc', found) ∧ pc'.place = pc.place ∧
      pc'.spanMap = pc.spanMap ∧ pc'.mapped = pc.mapped ∧
      match found with
      | true => some i ∈ lists (some span.numPages) ∧ ∃ l,
        Listed pc' (Lib.moved lists none (some i :: lists none) (some span.numPages) l)
      | false => some i ∈ lists none ∧ Listed pc' lists := by
  have hchain := h.chain span.numPages
  have hout : some i ∉ lists (some span.numPages) → some i ∈ lists none :=
    (h.holder hd).resolve_right
  cases hhead : pc.head span.numPages with
  | none =>
    rw [hhead] at hchain
    have hempty : lists (some span.numPages) = [] := hchain.of_nil
    refine ⟨pc.setHead span.numPages none, false, ?_, rfl, rfl, rfl, hout (by simp [hempty]), ?_⟩
    · simp only [PageCache.unlink, hd, bind, Except.bind, hhead]
      rfl
    · refine ⟨setList_sorted h.sorted _ _, fun k => ?_, h.sized, h.out, h.apart, h.all⟩
      rw [head_setHead]
      split
      · rename_i hk
        rw [hk]
        exact hchain
      · exact h.chain k
  | some j =>
    obtain ⟨rest, hl, hrest⟩ := (hhead ▸ hchain : Chain _ none (some j) _).cons_of_ne nofun
    by_cases hji : j = i
    · subst hji
      refine ⟨pc.setHead span.numPages span.next, true, ?_, rfl, rfl, rfl, by simp [hl], rest, ?_⟩
      · simp only [PageCache.unlink, hd, bind, Except.bind, hhead, if_true]
        rfl
      · refine h.relist rfl (setList_sorted h.sorted _ _) (.inr (by simp [hl])) (place_eq hd) ?_ ?_ ?_ ?_
        · rw [hl]
          exact List.perm_middle.symm
        · rw [head_setHead, if_pos rfl, ← link_eq hd]
          exact hrest
        · intro k hk
          rw [head_setHead, if_neg hk]
        · intro q hq
          exact .inl (hl ▸ List.mem_cons_of_mem _ hq)
    · have hok : ∀ p ∈ lists (some span.numPages), ∃ span, pc.deref p = .ok span :=
        fun p hp => h.exists_of_mem hp
      obtain ⟨r, hr, hspec⟩ := findPrev_ok (hhead ▸ hchain) hok (h.length_le _) i
      cases r with
      | none =>
        refine ⟨pc, false, ?_, rfl, rfl, rfl, hout fun hmem => ?_, h⟩
        · simp only [PageCache.unlink, hd, bind, Except.bind, hhead, if_neg hji, hr]
          rfl
        · rw [hl] at hmem hspec
          rcases List.mem_cons.mp hmem with hmem | hmem
          · exact hji (Option.some.inj hmem).symm
          · exact hspec hmem
      | some prev =>
        obtain ⟨l₁, l₂, hl⟩ := hspec
        have hmem : some prev ∈ lists (some span.numPages) := hl ▸ by simp
        obtain ⟨prevSpan, hprev⟩ := h.exists_of_mem hmem
        refine ⟨pc.setSpan prev (some { prevSpan with next := span.next }), true, ?_,
          place_setSpan hprev _ rfl rfl, rfl, rfl, hl ▸ by simp, _, h.bypass hl hprev hd⟩
        simp only [PageCache.unlink, hd, bind, Except.bind, hhead, if_neg hji, hr, hprev]
        rfl

end MudouHttp.PageCache
