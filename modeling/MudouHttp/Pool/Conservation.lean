import MudouHttp.Pool.Steps

/-!
# Safety and conservation of the memory pool

In every run the blocks that callers hold are large enough and apart from each
other. No block carved out of a span is lost, or in two places, as long as
`returnRange` reaches the end of its chains; its bound is a number of bytes,
which is zero for blocks given back as empty.
-/

namespace MudouHttp

namespace MemoryPool

variable {T : Type} [DecidableEq T] {s : MemoryPool T} {lists : Place T → List Addr}

theorem le_atLeastOne (size : Nat) : max size alignment ≤ max (atLeastOne size) alignment := by
  unfold atLeastOne
  split
  · rename_i hzero
    rw [hzero]
    decide
  · exact Nat.le_refl _

theorem totalBlocks_pos (size : Nat) :
    0 < Central.totalBlocks ((getIndex size + 1) * alignment) ↔
      size ≤ spanPages * PageCache.pageSize := by
  unfold Central.totalBlocks
  rw [Nat.div_pos_iff]
  unfold getIndex alignment spanPages PageCache.pageSize
  omega

theorem Effect.same {s' : MemoryPool T} (hcache : s'.cache = s.cache)
    (hphase : s'.phase = s.phase) : s.Effect lists e s' lists := by
  have hcallers : s.Effect lists e s' (Function.update lists .live (lists .live)) :=
    .callers hcache hphase
  rwa [Function.update_eq_self] at hcallers

omit [DecidableEq T] in
theorem getBatchNum_le (size : Nat) : ThreadCache.getBatchNum size ≤ 64 := by
  refine Nat.max_le.mpr ⟨by decide, Nat.le_trans (Nat.min_le_right _ _) ?_⟩
  split_ifs <;> decide

/-- A fresh span gives as many blocks as it says, unless it is one block. -/
theorem fresh_effect {s' : MemoryPool T} {handed : List Addr} (hlarge : size ≤ maxByte)
    (hempty : (s.cache t).freeList (getIndex size) = 0)
    (hcentral : s.central.freeList (getIndex size) = 0)
    (hr : s.Refills lists t size (getIndex size) handed realIncrease s')
    (hle : handed.length ≤ ThreadCache.getBatchNum ((getIndex size + 1) * alignment))
    (hreal : realIncrease = min (ThreadCache.getBatchNum ((getIndex size + 1) * alignment))
      (Central.totalBlocks ((getIndex size + 1) * alignment)))
    (hmax : handed.length = max 1 realIncrease) :
    ∃ lists', s.Moves lists s' lists' ∧
      s.Effect lists (.allocate t size (some start)) s' lists' := by
  obtain ⟨kept, hmoves⟩ := hr.moves
  obtain ⟨first, hphase⟩ := hr.phase
  refine ⟨_, hmoves, .refilled hr.cache hphase (Nat.le_trans hle (getBatchNum_le _)) ?_⟩
  have hbatch := getBatchNum_pos ((getIndex size + 1) * alignment)
  by_cases hsmall : size ≤ spanPages * PageCache.pageSize
  · have hpos := (totalBlocks_pos size).mpr hsmall
    exact .inl ⟨.inl hsmall, by omega⟩
  · have hzero : ¬0 < Central.totalBlocks ((getIndex size + 1) * alignment) :=
      fun hpos => hsmall ((totalBlocks_pos size).mp hpos)
    refine .inr ⟨?_, by omega, by omega⟩
    rintro (hfits | hmore | hthread | hlist | hnone)
    · exact hsmall hfits
    · exact Nat.not_lt_of_le hlarge hmore
    · exact hthread hempty
    · exact hlist hcentral
    · cases hnone

theorem allocateStep_ok (h : s.Inv lists) (hidle : s.phase t = .idle)
    (ha : s.Admits (.allocate t size memory)) :
    ∃ s' lists', s.allocateStep t size memory = .ok s' ∧ s.Moves lists s' lists' ∧
      s.Effect lists (.allocate t size memory) s' lists' := by
  unfold allocateStep
  split
  · rename_i hlarge
    refine ⟨_, memory.elim lists fun start => Function.update lists .live (start :: lists .live),
      rfl, ?_⟩
    cases memory with
    | none => exact ⟨⟨h, id⟩, .same rfl rfl⟩
    | some start =>
      have hfresh := ha start rfl
      rw [asked, if_pos hlarge] at hfresh
      refine ⟨malloc_ok h hfresh ?_, .callers rfl rfl⟩
      unfold atLeastOne at hlarge
      split at hlarge
      · exact absurd hlarge (by decide)
      · exact hlarge
  · rename_i hsmall
    have hle := Nat.le_trans (le_atLeastOne size) (class_fits (atLeastOne size))
    have hclass := class_lt_max (Nat.le_of_not_lt hsmall)
    have hmax : size ≤ maxByte := by
      unfold atLeastOne at hsmall
      split at hsmall <;> omega
    rw [getIndex_atLeastOne] at hle hclass ⊢
    dsimp only
    split
    · rename_i hne
      obtain ⟨rest, hlist, hmoves⟩ := pop_ok h hidle hne hle
      exact ⟨_, _, rfl, hmoves, .popped hlist rfl rfl⟩
    · rename_i hempty
      have hw : s.Wanted t size (getIndex size) := ⟨hidle, not_not.mp hempty, hle, hclass⟩
      by_cases hlist : s.central.freeList (getIndex size) = 0
      · cases memory with
        | none => exact ⟨s, lists, fetchNone_ok h hlist t size, ⟨h, id⟩, .same rfl rfl⟩
        | some start =>
          have hfresh := ha start rfl
          rw [asked, if_neg hsmall, getIndex_atLeastOne] at hfresh
          obtain ⟨s', handed, realIncrease, hs, hr, hbound, hreal, hlength⟩ :=
            fetchFresh_ok h hw hlist hfresh
          obtain ⟨lists', hmoves, heffect⟩ := fresh_effect hmax hw.empty hlist hr hbound hreal hlength
          exact ⟨s', lists', hs, hmoves, heffect⟩
      · obtain ⟨s', handed, hs, hr, hbound⟩ := fetchList_ok h hw hlist memory
        obtain ⟨kept, hmoves⟩ := hr.moves
        obtain ⟨first, hphase⟩ := hr.phase
        have hsized : s.Sized (.allocate t size memory) := .inr (.inr (.inr (.inl hlist)))
        exact ⟨s', _, hs, hmoves, .refilled hr.cache hphase (Nat.le_trans hbound (getBatchNum_le _))
          (.inl ⟨hsized, rfl⟩)⟩

/-- Every step keeps the invariant, and no step but `returnRange` loses a block. -/
theorem step_ok (h : s.Inv lists) (ha : s.Admits e) (hs : s.step e = .ok s') :
    ∃ lists', s'.Inv lists' ∧ s.Effect lists e s' lists' ∧ (s'.Covered lists' → s.Meets e) ∧
      (s.Covered lists → s.Meets e → s'.Covered lists') := by
  have hkeeps : (∃ lists', s.Moves lists s' lists' ∧ s.Effect lists e s' lists') → s.Meets e →
      ∃ lists', s'.Inv lists' ∧ s.Effect lists e s' lists' ∧ (s'.Covered lists' → s.Meets e) ∧
        (s.Covered lists → s.Meets e → s'.Covered lists') := by
    rintro ⟨lists', ⟨hinv, hcovered⟩, heffect⟩ hmeets
    exact ⟨lists', hinv, heffect, fun _ => hmeets, fun hc _ => hcovered hc⟩
  cases e with
  | allocate t size memory =>
    cases hphase : s.phase t with
    | idle =>
      obtain ⟨s₁, lists₁, hstep, hkeep⟩ := allocateStep_ok h hphase ha
      simp only [step, hphase, hstep, Except.ok.injEq] at hs
      exact hkeeps ⟨lists₁, hs ▸ hkeep⟩ trivial
    | fetched | returning => simp only [step, hphase, reduceCtorEq] at hs
  | store t =>
    cases hphase : s.phase t with
    | fetched index batchNum realIncrease start size =>
      simp only [step, hphase, Except.ok.injEq] at hs
      obtain ⟨rest, hhanded, hthread, hmoves⟩ := store_ok h hphase
      rw [hs] at hmoves
      exact hkeeps ⟨_, hmoves, .stored hphase hhanded hthread (hs ▸ rfl) (hs ▸ rfl)⟩ trivial
    | idle | returning => simp only [step, hphase, reduceCtorEq] at hs
  | deallocate t ptr size =>
    cases hphase : s.phase t with
    | idle =>
      obtain ⟨b, hb, rfl, hsize⟩ := ha
      simp only [step, hphase, Except.ok.injEq] at hs
      exact hkeeps (hs ▸ deallocate_ok h hphase hb hsize) trivial
    | fetched | returning => simp only [step, hphase, reduceCtorEq] at hs
  | returnRange t =>
    cases hphase : s.phase t with
    | returning start size index =>
      simp only [step, hphase, Except.ok.injEq] at hs
      subst hs
      obtain ⟨lists', heffect, hinv, hmeets, hkeep⟩ := returnRange_ok h hphase
      exact ⟨lists', hinv, heffect, hmeets, hkeep⟩
    | idle | fetched => simp only [step, hphase, reduceCtorEq] at hs
  | write block mem =>
    simp only [step, Except.ok.injEq] at hs
    exact hkeeps ⟨lists, hs ▸ write_ok h ha.1 ha.2, hs ▸ .same rfl rfl⟩ trivial

omit [DecidableEq T] in
theorem new_ok : (new : MemoryPool T).Inv (fun _ => []) := by
  refine ⟨⟨rfl, fun p hp => ?_⟩, ⟨fun _ => List.nodup_nil, nofun⟩, nofun, nofun,
    ⟨List.Pairwise.nil, nofun, nofun, List.Pairwise.nil, rfl⟩, fun _ => trivial⟩
  cases p with
  | live => exact absurd rfl hp
  | thread | central | handed => rfl

theorem inv_of_reach (h : Lib.Reach step Admits new s) : ∃ lists, s.Inv lists := by
  refine h.invariant (P := fun s => ∃ lists, s.Inv lists) (fun s e s' hs ha hstep => ?_) ⟨_, new_ok⟩
  obtain ⟨lists, hinv⟩ := hs
  obtain ⟨lists', hinv', -⟩ := step_ok hinv ha hstep
  exact ⟨lists', hinv'⟩

theorem covered_of_reach (h : Lib.Reach step (fun s e => s.Admits e ∧ s.Meets e) new s) :
    ∃ lists, s.Inv lists ∧ s.Covered lists := by
  refine h.invariant (P := fun s => ∃ lists, s.Inv lists ∧ s.Covered lists)
    (fun s e s' hs hm hstep => ?_) ⟨_, new_ok, nofun⟩
  obtain ⟨lists, hinv, hcovered⟩ := hs
  obtain ⟨lists', hinv', -, -, hkeep⟩ := step_ok hinv hm.1 hstep
  exact ⟨lists', hinv', hkeep hcovered hm.2⟩

theorem meets_of_conserved (h : Lib.Reach step Admits new s) (ha : s.Admits e)
    (hs : s.step e = .ok s') (hc : s'.Conserved) : s.Meets e := by
  obtain ⟨lists, hinv⟩ := inv_of_reach h
  obtain ⟨lists', hinv', -, hmeets, -⟩ := step_ok hinv ha hs
  exact hmeets (hinv'.conserved_iff.mp hc)

/-- In every run callers have room enough and to themselves. Blocks are conserved
in every run in which `returnRange` reaches the end of its chain, and such a run
loses one with the first step that does not. -/
theorem safe_and_conserved_iff :
    (Lib.Reach step Admits new s → s.Safe) ∧
    (Lib.Reach step (fun s e => s.Admits e ∧ s.Meets e) new s →
      s.Conserved ∧ ∀ e s', s.Admits e → s.step e = .ok s' → (s'.Conserved ↔ s.Meets e)) := by
  refine ⟨fun h => ?_, fun h => ?_⟩
  · obtain ⟨lists, hinv⟩ := inv_of_reach h
    exact hinv.safe
  · obtain ⟨lists, hinv, hcovered⟩ := covered_of_reach h
    refine ⟨hinv.conserved_iff.mpr hcovered, fun e s' ha hstep => ?_⟩
    obtain ⟨lists', hinv', -, hmeets, hkeep⟩ := step_ok hinv ha hstep
    rw [hinv'.conserved_iff]
    exact ⟨hmeets, hkeep hcovered⟩

-- ---------------------------------------------------------------------------
-- Sixty-five buffers
-- ---------------------------------------------------------------------------

omit [DecidableEq T] in
instance (s : MemoryPool T) (e : Extent) : Decidable (s.Fresh e) :=
  inferInstanceAs (Decidable (_ ∧ _))

/-- What `Admits` says, but for writes. -/
def admitted (s : MemoryPool T) : PoolEvent T → Bool
  | .allocate _ size memory => memory.all fun start => s.Fresh ⟨start, asked size⟩
  | .deallocate _ ptr size => s.live.any fun b => b.start = ptr ∧ size ≤ b.size
  | .write _ _ => false
  | _ => true

def reachesEnd (s : MemoryPool T) : PoolEvent T → Bool
  | .returnRange t =>
    match s.phase t with
    | .returning start size _ => (Central.take s.central.mem (max 1 size) 0 start 0).2.1 = 0
    | _ => true
  | _ => true

omit [DecidableEq T] in
theorem admits_of_admitted (h : s.admitted e = true) : s.Admits e := by
  cases e with
  | allocate t size memory =>
    cases memory with
    | none => exact nofun
    | some start =>
      rintro _ ⟨⟩
      exact of_decide_eq_true h
  | deallocate t ptr size =>
    obtain ⟨b, hb, hfit⟩ := List.any_eq_true.mp h
    exact ⟨b, hb, of_decide_eq_true hfit⟩
  | store | returnRange => trivial
  | write => cases h

omit [DecidableEq T] in
theorem meets_of_reachesEnd (h : s.reachesEnd e = true) : s.Meets e := by
  cases e with
  | returnRange t =>
    rw [Meets]
    rw [reachesEnd] at h
    cases hphase : s.phase t with
    | idle | fetched => trivial
    | returning start size index =>
      simp only [hphase] at h ⊢
      intro l hl b _ hb
      obtain ⟨next, htake, -, hrest⟩ := Central.take_ok hl (max 1 size) 0 0
      rw [htake] at h
      obtain rfl : next = 0 := of_decide_eq_true h
      rw [hrest.of_nil] at hb
      cases hb
  | allocate | store | deallocate | write => trivial

def block (i : Nat) : Addr := (i / 16 + 1) * 65536 + i % 16 * 2048

/-- Sixty-five buffers are made, and deleted when they hold `size` bytes. -/
def buffers (size : Nat) : List (PoolEvent Unit) :=
  ((List.range 65).flatMap fun i =>
    [.allocate () 2048 (if i % 16 = 0 then some (block i) else none), .store ()]) ++
  (List.range 65).map fun i => .deallocate () (block i) size

theorem filled_buffers_conserved : ∃ s : MemoryPool Unit,
    Lib.checked step (fun s e => s.admitted e && s.reachesEnd e) new
      (buffers 2048 ++ [.returnRange ()]) = some s ∧
    s.carved.length = 80 ∧ s.Safe ∧ s.Conserved := by
  have hrun : (Lib.checked step (fun s e => s.admitted e && s.reachesEnd e) new
      (buffers 2048 ++ [.returnRange ()])).map (fun s => s.carved.length) = some 80 := by
    decide +kernel
  obtain ⟨s, hs, hcarved⟩ := Option.map_eq_some_iff.mp hrun
  have hreach : Lib.Reach step (fun s e => s.Admits e ∧ s.Meets e) new s := by
    refine Lib.Reach.start.checked _ (fun s e he => ?_) hs
    obtain ⟨ha, hm⟩ := Bool.and_eq_true_iff.mp he
    exact ⟨admits_of_admitted ha, meets_of_reachesEnd hm⟩
  obtain ⟨hsafe, hconserved⟩ := safe_and_conserved_iff (s := s)
  exact ⟨s, hs, hcarved, hsafe (hreach.mono fun _ _ h => h.1), (hconserved hreach).1⟩

/-- Of empty ones the first sixteen stay with the thread, and one of the others
gets to the central cache. -/
theorem empty_buffers_lost : ∃ s s' : MemoryPool Unit,
    Lib.checked step admitted new (buffers 0) = some s ∧ s.step (.returnRange ()) = .ok s' ∧
    Lib.Reach step Admits new s' ∧ ¬s'.Conserved := by
  have hrun : (Lib.checked step admitted new (buffers 0)).map (fun s =>
      (s.phase (), s.central.mem (block 48), s.carved.any fun b => b.start = block 47)) =
      some (.returning (block 48) 0 0, block 47, true) := by
    decide +kernel
  obtain ⟨s, hs, hstate⟩ := Option.map_eq_some_iff.mp hrun
  simp only [Prod.mk.injEq] at hstate
  obtain ⟨hphase, hnext, hany⟩ := hstate
  have hreach : Lib.Reach step Admits new s :=
    Lib.Reach.start.checked _ (fun _ _ => admits_of_admitted) hs
  have hstep : ∃ s', s.step (.returnRange ()) = .ok s' := by
    simp only [step, hphase]
    exact ⟨_, rfl⟩
  obtain ⟨s', hs'⟩ := hstep
  have hadmits : s.Admits (.returnRange ()) := trivial
  refine ⟨s, s', hs, hs', hreach.next hadmits hs', fun hconserved => ?_⟩
  obtain ⟨lists, hinv⟩ := inv_of_reach hreach
  have hmeets := (meets_iff hinv hphase).mp (meets_of_conserved hreach hadmits hs' hconserved)
  have hchain := hinv.holds.chain (.handed () 0) nofun
  rw [head, hphase, Phase.chain, if_pos rfl] at hchain
  obtain ⟨rest, hlist, hrest⟩ := hchain.cons_of_ne (by decide)
  rw [hnext] at hrest
  obtain ⟨rest', hlist', -⟩ := hrest.cons_of_ne (by decide)
  obtain ⟨b, hb, hstart⟩ := List.any_eq_true.mp hany
  refine hmeets b hb ?_
  rw [of_decide_eq_true hstart, hlist, hlist']
  exact List.mem_cons_self

end MemoryPool

end MudouHttp
