import MudouHttp.Pool.Conservation

/-!
# What the pool writes to

The pool keeps its links in the blocks themselves. It writes to those in its lists and to
new spans, and so never to a block that a caller has.
-/

namespace MudouHttp

open Function (update update_self update_of_ne)

def SameInside (e : Extent) (mem mem' : Memory) : Prop :=
  ∀ a, Extent.Within ⟨a, 8⟩ e → mem' a = mem a

namespace SameInside

variable {e f : Extent} {mem mem' mem'' : Memory}

theorem refl (e : Extent) (mem : Memory) : SameInside e mem mem := fun _ _ => rfl

theorem trans (h : SameInside e mem mem') (h' : SameInside e mem' mem'') : SameInside e mem mem'' :=
  fun a ha => (h' a ha).trans (h a ha)

theorem update {x : Addr} (hx : Extent.Apart ⟨x, 8⟩ e) (mem : Memory) (v : Addr) :
    SameInside e mem (update mem x v) := by
  intro a ha
  refine update_of_ne ?_ _ _
  rintro rfl
  unfold Extent.Apart Extent.Within Extent.stop at *
  dsimp only at *
  omega

theorem of_outside (hapart : e.Apart f) (h : SameOutside f mem mem') : SameInside e mem mem' :=
  fun a ha => h a (hapart.within ha)

end SameInside

namespace MemoryPool

variable {T : Type} [DecidableEq T] {s s' : MemoryPool T} {lists : Place T → List Addr} {t : T}

omit [DecidableEq T] in
theorem Inv.blocks_apart (h : s.Inv lists) (hb : b ∈ s.live) (hc : c ∈ s.live) (hne : b ≠ c) :
    b.region.Apart c.region := by
  have : Std.Symm fun b c : Extent => b.region.Apart c.region := ⟨fun _ _ hab => hab.symm⟩
  exact h.safe.apart.forall hb hc hne

omit [DecidableEq T] in
theorem Inv.fresh_apart (h : s.Inv lists) (hb : b ∈ s.live) (hfresh : s.Fresh e) :
    b.region.Apart e := by
  obtain ⟨-, r, hr, hin⟩ := h.safe.inside b hb
  exact (hfresh.2 r hr).symm.within hin

theorem fetchStep_inside (h : s.Inv lists) (hb : b ∈ s.live) (hindex : index < freeListSizeMax)
    (hfresh : ∀ start ∈ memory, s.Fresh (Central.spanFor start ((index + 1) * alignment)))
    (hs : s.fetchStep t size index memory = .ok s') :
    SameInside b.region s.central.mem s'.central.mem := by
  obtain ⟨⟨central, start, realIncrease⟩, hfetch, hs⟩ := bind_ok hs
  have hcentral : s'.central = central := by
    dsimp only at hs
    by_cases hstart : start = 0
    · rw [if_pos hstart] at hs
      cases hs
      rfl
    · rw [if_neg hstart] at hs
      cases hs
      rfl
  rw [hcentral]
  have hbatch := getBatchNum_pos ((index + 1) * alignment)
  by_cases hlist : s.central.freeList index = 0
  · cases memory with
    | none =>
      rw [Central.fetchRange_none hlist h.layout.noSpans] at hfetch
      cases hfetch
      exact .refl _ _
    | some start₁ =>
      obtain ⟨hpos, happart⟩ := hfresh start₁ rfl
      obtain ⟨c', head, i, n, real, hrun, -, -, -, -, -, -, -, hframe⟩ :=
        Central.fetchRange_fresh hlist h.layout.noSpans hbatch hindex hpos
      cases hfetch.symm.trans hrun
      exact .of_outside (h.fresh_apart hb ⟨hpos, happart⟩) hframe
  · have hchain := h.holds.chain (.central index) (by simp)
    obtain ⟨last, next, hrun, hlast, -⟩ :=
      Central.fetchRange_list hchain hlist (h.apart.nodup _) hbatch hindex memory
    cases hfetch.symm.trans hrun
    exact .update (h.live_apart (p := .central index) hb (by simp) hlast) _ _

theorem allocate_inside (h : s.Inv lists) (hb : b ∈ s.live) (ha : s.Admits (.allocate t size memory))
    (hs : s.allocateStep t size memory = .ok s') :
    SameInside b.region s.central.mem s'.central.mem := by
  unfold allocateStep at hs
  split at hs
  · cases hs
    cases memory <;> exact .refl _ _
  · rename_i hsmall
    dsimp only at hs
    split at hs
    · cases hs
      exact .refl _ _
    · refine fetchStep_inside h hb (class_lt_max (Nat.le_of_not_lt hsmall)) (fun start hstart => ?_) hs
      have hfresh := ha start hstart
      rwa [asked, if_neg hsmall] at hfresh

theorem deallocate_inside (h : s.Inv lists) (hidle : s.phase t = .idle) (hb : b ∈ s.live)
    (hc : c ∈ s.live) (hne : b.start ≠ c.start) (hsize : size ≤ c.size) :
    SameInside b.region s.central.mem (s.deallocateStep t c.start size).central.mem := by
  unfold deallocateStep
  split
  · exact .refl _ _
  · rename_i hsmall
    have hpush := push_ok h hidle hc hsize (Nat.le_of_not_lt hsmall)
    have hword : Extent.Apart ⟨c.start, 8⟩ b.region := by
      refine (h.blocks_apart hc hb ?_).shorten rfl (Nat.le_max_right _ _)
      rintro rfl
      exact hne rfl
    have hlink := SameInside.update hword s.central.mem ((s.cache t).freeList (getIndex size))
    dsimp only
    split
    · have hleft : b ∈ s.released c.start := List.mem_filter.mpr ⟨hb, decide_eq_true hne⟩
      have hchain := hpush.1.holds.chain (.thread t (getIndex size)) (by simp)
      rw [head] at hchain
      dsimp only at hchain
      rw [update_self, show ((s.cache t).push (getIndex size) c.start).freeList (getIndex size) = c.start
        from update_self ..] at hchain
      obtain ⟨hsame, -⟩ | ⟨l₁, l₂, node, tc, phase, hcut, hlist, -⟩ :=
        @ThreadCache.split_ok _ _ ((s.cache t).push (getIndex size) c.start) _ hchain
          (h.safe.inside c hc).1 (hpush.1.apart.nodup _) size
      · rw [hsame]
        exact hlink
      · rw [hcut]
        refine hlink.trans (.update (hpush.1.live_apart
          (p := .thread t (getIndex size)) hleft (by simp) ?_) _ _)
        rw [hlist]
        exact List.mem_append_left _ (List.mem_append_right _ List.mem_cons_self)
    · exact hlink

omit [DecidableEq T] in
theorem returnRange_inside (h : s.Inv lists) (hb : b ∈ s.live)
    (hphase : s.phase t = .returning start size index) :
    SameInside b.region s.central.mem (s.central.returnRange start size index).mem := by
  have hok := h.phases t
  rw [hphase] at hok
  have hchain := h.holds.chain (.handed t index) (by simp)
  rw [head, hphase, Phase.chain, if_pos rfl] at hchain
  obtain ⟨last, hlast, hrun, -⟩ := Central.returnRange_ok hchain hok.1 (h.apart.nodup _)
    (h.holds.chain (.central index) (by simp)) (fun a ha ha' => by
      cases h.apart.once (.handed t index) (.central index) a ha ha') hok.2 size
  rw [hrun]
  exact .update (h.live_apart (p := .handed t index) hb (by simp) hlast) _ _

/-- What a caller has, only it writes to. -/
theorem step_inside (h : s.Inv lists) (ha : s.Admits e) (hs : s.step e = .ok s') (hb : b ∈ s.live)
    (hb' : b ∈ s'.live) (hwrite : ∀ mem, e ≠ .write b mem) :
    SameInside b.region s.central.mem s'.central.mem := by
  cases e with
  | allocate t size memory =>
    obtain ⟨s₁, hstep⟩ : ∃ s₁, s.allocateStep t size memory = .ok s₁ := by
      cases hstep : s.allocateStep t size memory with
      | ok s₁ => exact ⟨s₁, rfl⟩
      | error f => cases hphase : s.phase t <;> simp only [step, hphase, hstep, reduceCtorEq] at hs
    have hinside := allocate_inside h hb ha hstep
    cases hphase : s.phase t with
    | fetched | returning => simp only [step, hphase, reduceCtorEq] at hs
    | idle =>
      simp only [step, hphase, hstep, Except.ok.injEq] at hs
      exact hs ▸ hinside
  | store t =>
    cases hphase : s.phase t with
    | idle | returning => simp only [step, hphase, reduceCtorEq] at hs
    | fetched =>
      simp only [step, hphase, Except.ok.injEq] at hs
      subst hs
      exact .refl _ _
  | deallocate t ptr size =>
    cases hphase : s.phase t with
    | fetched | returning => simp only [step, hphase, reduceCtorEq] at hs
    | idle =>
      simp only [step, hphase, Except.ok.injEq] at hs
      subst hs
      obtain ⟨c, hc, rfl, hsize⟩ := ha
      have hne : b.start ≠ c.start := by
        have hleft : b ∈ s.released c.start := by
          unfold deallocateStep at hb'
          split at hb' <;> exact hb'
        exact of_decide_eq_true (List.mem_filter.mp hleft).2
      exact deallocate_inside h hphase hb hc hne hsize
  | returnRange t =>
    cases hphase : s.phase t with
    | idle | fetched => simp only [step, hphase, reduceCtorEq] at hs
    | returning start size index =>
      simp only [step, hphase, Except.ok.injEq] at hs
      subst hs
      exact returnRange_inside h hb hphase
  | write block mem =>
    simp only [step, Except.ok.injEq] at hs
    subst hs
    refine .of_outside (h.blocks_apart hb ha.1 ?_) ha.2
    rintro rfl
    exact hwrite mem rfl

end MemoryPool

end MudouHttp
