import MudouHttp.Pool.SpanRuns

/-!
# Lists of the page cache without a span

`freeSpans_[key]` makes an entry where there is none. An entry that stays null
is found by `lower_bound` and dereferenced; `lists_usable_iff` says which calls
leave one.
-/

namespace MudouHttp

open Lib (Chain)

namespace PageCache

variable {pc : PageCache} {lists : Option Nat → List (Option Nat)}

def NoNull (pc : PageCache) : Prop := ∀ k, (k, none) ∉ pc.freeSpans

-- ---------------------------------------------------------------------------
-- Entries
-- ---------------------------------------------------------------------------

theorem mem_setList {entries : List (Nat × Option Nat)} {first : Option Nat}
    (hs : (entries.map Prod.fst).Pairwise (· < ·)) :
    (k, p) ∈ setList key first entries ↔ (k = key ∧ p = first) ∨ (k ≠ key ∧ (k, p) ∈ entries) := by
  induction entries with
  | nil => simp [setList]
  | cons entry entries ih =>
    obtain ⟨k', h⟩ := entry
    obtain ⟨hlt, htail⟩ := List.pairwise_cons.mp hs
    have hne : ∀ q, (k', q) ∉ entries := fun q hq =>
      Nat.lt_irrefl _ (hlt k' (List.mem_map.mpr ⟨_, hq, rfl⟩))
    simp only [setList]
    split
    · rename_i hkey
      rw [List.mem_cons, ih htail, List.mem_cons]
      constructor
      · rintro (heq | hset | ⟨hk, hmem⟩)
        · cases heq
          exact .inr ⟨Nat.ne_of_lt hkey, .inl rfl⟩
        · exact .inl hset
        · exact .inr ⟨hk, .inr hmem⟩
      · rintro (hset | ⟨hk, heq | hmem⟩)
        · exact .inr (.inl hset)
        · exact .inl heq
        · exact .inr (.inr ⟨hk, hmem⟩)
    · split
      · rename_i hkey
        subst hkey
        rw [List.mem_cons, List.mem_cons, Prod.mk.injEq, Prod.mk.injEq]
        constructor
        · rintro (hset | hmem)
          · exact .inl hset
          · refine .inr ⟨?_, .inr hmem⟩
            rintro rfl
            exact hne _ hmem
        · rintro (hset | ⟨hk, ⟨rfl, -⟩ | hmem⟩)
          · exact .inl hset
          · exact absurd rfl hk
          · exact .inr hmem
      · rename_i hge hkey
        have hgt : ∀ q, (key, q) ∉ (k', h) :: entries := by
          intro q hq
          rcases List.mem_cons.mp hq with heq | hq
          · cases heq
            exact hkey rfl
          · have := hlt key (List.mem_map.mpr ⟨_, hq, rfl⟩)
            omega
        rw [List.mem_cons, Prod.mk.injEq]
        refine or_congr_right ⟨fun hmem => ⟨?_, hmem⟩, fun hmem => hmem.2⟩
        rintro rfl
        exact hgt _ hmem

theorem mem_eraseList {entries : List (Nat × Option Nat)} :
    (k, p) ∈ eraseList key entries ↔ k ≠ key ∧ (k, p) ∈ entries := by
  rw [eraseList, List.mem_filter, and_comm]
  simp

theorem NoNull.head_ne (h : NoNull pc) (hmem : (k, p) ∈ pc.freeSpans) : ∃ i, p = some i := by
  cases p with
  | none => exact absurd hmem (h k)
  | some i => exact ⟨i, rfl⟩

theorem noNull_setList {entries : List (Nat × Option Nat)}
    (hs : (entries.map Prod.fst).Pairwise (· < ·)) (h : ∀ k, (k, none) ∉ entries) :
    ∀ k, (k, none) ∉ setList key (some i) entries := by
  intro k hmem
  rcases (mem_setList hs).mp hmem with ⟨-, hnone⟩ | ⟨-, hmem⟩
  · cases hnone
  · exact h k hmem

theorem rest_sorted (hs : (pc.freeSpans.map Prod.fst).Pairwise (· < ·)) (key : Nat) (span : Span) :
    ((pc.rest key span).map Prod.fst).Pairwise (· < ·) := by
  unfold rest
  split
  · exact setList_sorted hs _ _
  · exact eraseList_sorted hs _

theorem NoNull.taken (h : NoNull pc) (hs : (pc.freeSpans.map Prod.fst).Pairwise (· < ·))
    (key i : Nat) (span : Span) (n : Nat) : NoNull (pc.taken key i span n) := by
  have hrest : ∀ k, (k, none) ∉ pc.rest key span := by
    unfold rest
    split
    · exact noNull_setList hs h
    · exact fun k hmem => h k (mem_eraseList.mp hmem).2
  unfold PageCache.taken
  split
  · exact noNull_setList (rest_sorted hs key span) hrest
  · exact hrest

theorem taken_mapped (pc : PageCache) (key i : Nat) (span : Span) (n : Nat) :
    (pc.taken key i span n).mapped = pc.mapped := by
  unfold taken
  split <;> rfl

-- ---------------------------------------------------------------------------
-- Service
-- ---------------------------------------------------------------------------

theorem Listed.mem_free (h : Listed pc lists) :
    span ∈ pc.free ↔ ∃ p k, p ∈ lists (some k) ∧ pc.deref p = .ok span := by
  have hmap : span ∈ pc.free ↔ Except.ok span ∈ pc.free.map (Except.ok (ε := Fault)) := by
    rw [List.mem_map]
    exact ⟨fun hmem => ⟨span, hmem, rfl⟩, fun ⟨other, hmem, heq⟩ => Except.ok.inj heq ▸ hmem⟩
  rw [hmap, h.free_spans, List.mem_map]
  constructor
  · rintro ⟨p, hp, hd⟩
    obtain ⟨k, hk⟩ := h.mem_freeIn.mp hp
    exact ⟨p, k, hk, hd⟩
  · rintro ⟨p, k, hk, hd⟩
    exact ⟨p, h.mem_freeIn.mpr ⟨k, hk⟩, hd⟩

theorem Listed.numPages_eq (h : Listed pc lists) (hp : p ∈ lists (some k))
    (hd : pc.deref p = .ok span) : span.numPages = k := by
  obtain ⟨a, ha⟩ := h.sized k p hp
  rw [place_eq hd] at ha
  cases ha
  rfl

def Holds (pc : PageCache) (key : Nat) (p : Option Nat) : Prop :=
  p ≠ none ∧ ∃ l, Chain pc.link none p l ∧ l.Nodup ∧
    ∀ q ∈ l, ∃ span, pc.deref q = .ok span ∧ span.numPages = key

theorem Listed.holds (h : Listed pc lists) (hn : NoNull pc) (hmem : (k, p) ∈ pc.freeSpans) :
    pc.Holds k p := by
  obtain ⟨i, rfl⟩ := hn.head_ne hmem
  refine ⟨nofun, lists (some k), head_of_mem h.sorted hmem ▸ h.chain k, h.apart.nodup _,
    fun q hq => ?_⟩
  obtain ⟨span, hd⟩ := h.exists_of_mem hq
  exact ⟨span, hd, h.numPages_eq hq hd⟩

structure BestFit (pc : PageCache) (n : Nat) (best : Span) : Prop where
  free : best ∈ pc.free
  enough : n ≤ best.numPages
  least : ∀ span ∈ pc.free, n ≤ span.numPages → best.numPages ≤ span.numPages

theorem Listed.serves (h : Listed pc lists) (hn : NoNull pc) (mem : Memory) (n : Nat)
    (memory : Option Addr) :
    ∃ mem' pc' ptr, pc.allocateSpan mem n memory = .ok (mem', pc', ptr) ∧
      ((∃ span ∈ pc.free, n ≤ span.numPages) →
        ∃ best, BestFit pc n best ∧ ptr = some best.pageAddr ∧ pc'.mapped = pc.mapped) := by
  have hserves := allocateSpan_serves h mem n memory
  have hnone : ∀ {span}, span ∈ pc.free → pc.head span.numPages ≠ none := by
    intro span hfree
    obtain ⟨p, k, hp, hd⟩ := h.mem_free.mp hfree
    rw [h.numPages_eq hp hd]
    exact Lib.Chain.head_ne (h.chain k) (List.ne_nil_of_mem hp)
  generalize pc.allocateSpan mem n memory = result at hserves
  cases hserves with
  | null _ hmem => exact absurd hmem (hn _)
  | @reuse key i span _ hle hhead hleast hd =>
    refine ⟨_, _, _, rfl, fun _ => ⟨span, ⟨?_, ?_, fun other hother hfit => ?_⟩, rfl,
      taken_mapped pc key i span n⟩⟩
    all_goals
      obtain ⟨rest, hl, hkey, -⟩ := h.pop hhead hd rfl
    · exact h.mem_free.mpr ⟨some i, key, hl ▸ List.mem_cons_self, hd⟩
    · exact hkey ▸ hle
    · refine Nat.le_of_not_lt fun hlt => hnone hother (hleast _ hfit ?_)
      exact hkey ▸ hlt
  | exhausted hempty =>
    exact ⟨_, _, _, rfl, fun ⟨span, hfree, hfit⟩ => absurd (hempty _ hfit) (hnone hfree)⟩
  | system hempty =>
    exact ⟨_, _, _, rfl, fun ⟨span, hfree, hfit⟩ => absurd (hempty _ hfit) (hnone hfree)⟩

-- ---------------------------------------------------------------------------
-- Calls that leave a null list
-- ---------------------------------------------------------------------------

/-- The span behind a freed one of `n` pages is neither a live span whose size
has no list, unless the freed one starts that list, nor the only span of its
list. -/
def Tidy (pc : PageCache) (n : Nat) (behind : Option Nat) : Prop :=
  ∀ next span, behind = some next → pc.deref (some next) = .ok span →
    match pc.head span.numPages with
    | none => span.numPages = n
    | some first => first = next → span.next ≠ none

theorem tidy_iff (hd : pc.deref (some j) = .ok span) : pc.Tidy n (some j) ↔
    match pc.head span.numPages with
    | none => span.numPages = n
    | some first => first = j → span.next ≠ none := by
  constructor
  · intro h
    exact h j span rfl hd
  · rintro h next other hnext hother
    obtain rfl := Option.some.inj hnext
    rw [hd] at hother
    obtain rfl := Except.ok.inj hother
    exact h

/-- Before the freed span goes to its list the look-up has set another one. -/
theorem noNull_setList_twice (hs : (pc.freeSpans.map Prod.fst).Pairwise (· < ·)) (hn : NoNull pc) :
    (∀ k, (k, none) ∉ setList m (some i) (setList key p pc.freeSpans)) ↔ key = m ∨ p ≠ none := by
  have hs' := setList_sorted hs key p
  constructor
  · intro h
    refine or_iff_not_imp_left.mpr fun hkey hp => ?_
    exact h key ((mem_setList hs').mpr (.inr ⟨hkey, (mem_setList hs).mpr (.inl ⟨rfl, hp.symm⟩)⟩))
  · intro h k hmem
    rcases (mem_setList hs').mp hmem with ⟨-, hnone⟩ | ⟨hk, hmem⟩
    · cases hnone
    · rcases (mem_setList hs).mp hmem with ⟨hkey, hp⟩ | ⟨-, hmem⟩
      · exact h.elim (fun hm => hk (hkey.trans hm)) (fun hne => hne hp.symm)
      · exact hn k hmem

theorem Looked.noNull_iff (h : Looked pc n behind entries m)
    (hs : (pc.freeSpans.map Prod.fst).Pairwise (· < ·)) (hn : NoNull pc) (hpos : 1 ≤ n) :
    (∀ k, (k, none) ∉ setList m (some i) entries) ↔ pc.Tidy n behind := by
  cases h with
  | nothing =>
    refine iff_of_true (noNull_setList hs hn) ?_
    rintro next span hnext
    cases hnext
  | unlisted hd hhead =>
    rw [noNull_setList_twice hs hn, tidy_iff hd, hhead]
    exact or_iff_left (fun hne => hne rfl)
  | @first j next hd hhead =>
    have hlonger : next.numPages ≠ n + next.numPages := by omega
    rw [noNull_setList_twice hs hn, tidy_iff hd, hhead]
    exact (or_iff_right hlonger).trans ⟨fun h _ => h, fun h => h rfl⟩
  | further hd hhead hne =>
    rw [tidy_iff hd, hhead]
    exact iff_of_true (noNull_setList hs hn) fun heq => absurd heq hne

end PageCache

namespace SpanHeap

open PageCache (spanSize NoNull Holds BestFit setList)

/-- Every list has a span, no call finds a null one, and what is free is used
before the system is asked. -/
structure Usable (s : SpanHeap) : Prop where
  holds : ∀ k p, (k, p) ∈ s.pageCache.freeSpans → s.pageCache.Holds k p
  serves : ∀ n memory, 1 ≤ n →
    ∃ mem pc ptr, s.pageCache.allocateSpan s.mem n memory = .ok (mem, pc, ptr) ∧
      ((∃ span ∈ s.pageCache.free, n ≤ span.numPages) → ∃ best, BestFit s.pageCache n best ∧
        ptr = some best.pageAddr ∧ pc.mapped = s.pageCache.mapped)

theorem Kept.usable_iff (h : Kept s lists) : Usable s ↔ NoNull s.pageCache := by
  constructor
  · intro hu k hmem
    exact (hu.holds k none hmem).1 rfl
  · intro hn
    exact ⟨fun k p hmem => h.cache.listed.holds hn hmem,
      fun n memory _ => h.cache.listed.serves hn s.mem n memory⟩

/-- A call that leaves every list a span. -/
def Tidy (s : SpanHeap) : SpanEvent → Prop
  | .allocate _ _ => True
  | .deallocate ptr numPages => s.pageCache.Tidy numPages
    (s.pageCache.spanMap ((ptr + spanSize numPages) % 2 ^ 64))

theorem Kept.live_pos (h : Kept s lists) (ha : (ptr, n) ∈ s.live) : 1 ≤ n := by
  obtain ⟨p, -, hplace⟩ := h.held ha
  exact (h.cache.tiles.shape p ptr n hplace).1

theorem Kept.noNull_allocate (h : Kept s lists) (hn : NoNull s.pageCache)
    (hs : s.step (.allocate n memory) = .ok s') : NoNull s'.pageCache := by
  obtain ⟨mem, pc, ptr, hserves, rfl⟩ := h.allocate_ok hs
  cases hserves with
  | @reuse key i span _ _ _ _ _ => exact hn.taken h.cache.listed.sorted key i span n
  | exhausted _ => exact hn
  | system _ => exact hn

theorem Kept.usable_step (h : Kept s lists) (hn : NoNull s.pageCache) (ha : Admits s e)
    (hf : Fits e) : ∃ s' lists', s.step e = .ok s' ∧ Kept s' lists' ∧
      (NoNull s'.pageCache ↔ Tidy s e) := by
  cases e with
  | allocate n memory =>
    obtain ⟨mem, pc, ptr, hok, -⟩ := h.cache.listed.serves hn s.mem n memory
    rcases h.allocate ha hf with hfault | ⟨s', lists', hs, hkept⟩
    · simp only [SpanHeap.step, hok] at hfault
      cases hfault
    · exact ⟨s', lists', hs, hkept, iff_of_true (h.noNull_allocate hn hs) trivial⟩
  | deallocate ptr n =>
    obtain ⟨s', lists', hs, hkept, i, entries, m, hlooked, hentries⟩ := h.deallocate ha
    refine ⟨s', lists', hs, hkept, ?_⟩
    rw [NoNull, hentries]
    exact hlooked.noNull_iff h.cache.listed.sorted hn (h.live_pos ha)

def Careful (s : SpanHeap) (e : SpanEvent) : Prop := Admits s e ∧ Fits e ∧ Tidy s e

/-- In a run of tidy calls the lists are usable in every state and no call
faults; a call that is not tidy leaves a null list. -/
theorem lists_usable_iff (s : SpanHeap) (h : Lib.Reach step Careful new s) :
    Usable s ∧ ∀ e, Admits s e → Fits e → ∃ s', s.step e = .ok s' ∧ (Usable s' ↔ Tidy s e) := by
  have hkept : ∃ lists, Kept s lists ∧ NoNull s.pageCache := by
    refine h.invariant (P := fun s => ∃ lists, Kept s lists ∧ NoNull s.pageCache)
      (fun s e s' hk hc hs => ?_) ⟨_, new_kept, nofun⟩
    obtain ⟨lists, hk, hn⟩ := hk
    obtain ⟨ha, hf, ht⟩ := hc
    obtain ⟨t, lists', hstep, hkept, hiff⟩ := hk.usable_step hn ha hf
    rw [hs] at hstep
    obtain rfl := Except.ok.inj hstep
    exact ⟨lists', hkept, hiff.mpr ht⟩
  obtain ⟨lists, hk, hn⟩ := hkept
  refine ⟨hk.usable_iff.mpr hn, fun e ha hf => ?_⟩
  obtain ⟨s', lists', hs, hkept, hiff⟩ := hk.usable_step hn ha hf
  exact ⟨s', hs, hkept.usable_iff.trans hiff⟩

/-- Three pages come, go, and are cut in two. -/
theorem lists_usable_iff_example :
    ∃ s, Lib.Reach step Careful new s ∧ s.live = [(8192, 2), (4096, 1)] ∧ Usable s := by
  have hrun : ∃ s, Lib.runs step new
      [.allocate 3 (some 4096), .deallocate 4096 3, .allocate 1 none, .allocate 2 none] = .ok s ∧
      s.live = [(8192, 2), (4096, 1)] := ⟨_, rfl, rfl⟩
  obtain ⟨s, hs, hlive⟩ := hrun
  have hfirst : Admits new (.allocate 3 (some 4096)) :=
    admits_first (by decide) (by decide) (by decide)
  have hcareful : Lib.AllMeet step Careful new
      [.allocate 3 (some 4096), .deallocate 4096 3, .allocate 1 none, .allocate 2 none] :=
    ⟨⟨hfirst, fun _ => by decide, trivial⟩,
      ⟨List.mem_singleton_self _, trivial, fun _ _ hnext => nomatch hnext⟩,
      ⟨⟨by decide, nofun⟩, fun h => absurd rfl h, trivial⟩,
      ⟨⟨by decide, nofun⟩, fun h => absurd rfl h, trivial⟩, trivial⟩
  have hreach := Lib.Reach.start.runs _ hcareful hs
  exact ⟨s, hreach, hlive, (lists_usable_iff s hreach).1⟩

/-- A page is freed in front of two live ones; their size has no list. -/
theorem null_list : ¬∀ s, Lib.Reach step Admits new s → Usable s := by
  intro h
  have hfirst : Admits new (.allocate 3 (some 4096)) :=
    admits_first (by decide) (by decide) (by decide)
  have hadmits : Lib.AllMeet step Admits new [.allocate 3 (some 4096), .deallocate 4096 3,
      .allocate 1 none, .allocate 2 none, .deallocate 4096 1] :=
    ⟨hfirst, List.mem_singleton_self _, ⟨by decide, nofun⟩, ⟨by decide, nofun⟩,
      List.mem_cons_of_mem _ (List.mem_singleton_self _), trivial⟩
  have hrun : ∃ s, Lib.runs step new [.allocate 3 (some 4096), .deallocate 4096 3,
      .allocate 1 none, .allocate 2 none, .deallocate 4096 1] = .ok s ∧
      (s.pageCache.allocateSpan s.mem 2 none) = .error .nullPointer := ⟨_, rfl, rfl⟩
  obtain ⟨s, hs, hfault⟩ := hrun
  obtain ⟨mem, pc, ptr, hok, -⟩ := (h s (Lib.Reach.start.runs _ hadmits hs)).serves 2 none (by decide)
  rw [hfault] at hok
  cases hok

end SpanHeap

end MudouHttp
