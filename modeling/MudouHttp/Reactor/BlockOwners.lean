import MudouHttp.Lib.Chain
import MudouHttp.Reactor.Releases

/-!
# Who owns the memory of the buffers

The memory an `allocate` call returns goes to one block of one buffer, and is that
buffer's until it is given back. Nothing is lost, held twice or given back twice, and
nothing is given back with more than its size (`owned_once`).
-/

namespace MudouHttp

/-- The `allocate` calls between two states of the log that returned memory. -/
def PoolLog.fresh (grants : Nat → Bool) (log log' : PoolLog) : List Nat :=
  (List.range' log.requests.length (log'.requests.length - log.requests.length)).filter grants

def PoolBlock.pointers (blocks : List PoolBlock) : List Nat := blocks.filterMap PoolBlock.memory

namespace PooledBuffer

open PoolBlock (pointers emplaceBack_eq destroyAll)
open PoolLog (fresh)

variable {grants : Nat → Bool} {log log' log'' : PoolLog} {b b' : PooledBuffer}

-- ---------------------------------------------------------------------------
-- What an operation takes and gives
-- ---------------------------------------------------------------------------

theorem fresh_of_length (h : log'.requests.length = log.requests.length) : fresh grants log log' = [] := by
  simp [fresh, h]

theorem fresh_append (h : log.requests <+: log'.requests) (h' : log'.requests <+: log''.requests) :
    fresh grants log log'' = fresh grants log log' ++ fresh grants log' log'' := by
  obtain ⟨more, hmore⟩ := h
  obtain ⟨more', hmore'⟩ := h'
  have hlen : log'.requests.length = log.requests.length + more.length := by
    rw [← hmore, List.length_append]
  have hlen' : log''.requests.length = log.requests.length + more.length + more'.length := by
    rw [← hmore', List.length_append, hlen]
  unfold fresh
  rw [hlen', hlen, ← List.filter_append, Nat.add_assoc, Nat.add_sub_cancel_left,
    Nat.add_sub_cancel_left, ← Nat.add_assoc, Nat.add_sub_cancel_left, List.range'_append_1]

theorem new_fresh (cap : Nat) (log : PoolLog) :
    (PoolBlock.new grants cap log).1.memory.toList = fresh grants log (PoolBlock.new grants cap log).2 := by
  have hone : (PoolBlock.new grants cap log).2.requests.length - log.requests.length = 1 := by
    show (log.requests ++ [cap]).length - log.requests.length = 1
    simp
  rw [fresh, hone]
  cases hg : grants log.requests.length <;> simp [PoolBlock.new, hg]

/-- Blocks are destroyed at the front, and those allocated come behind the others. -/
def Trades (grants : Nat → Bool) (log : PoolLog) (blocks : List PoolBlock) (log' : PoolLog)
    (blocks' : List PoolBlock) : Prop :=
  ∃ gone left, blocks = gone ++ left ∧ Gives log gone log' ∧
    pointers blocks' = pointers left ++ fresh grants log log'

theorem Trades.refl (log : PoolLog) (blocks : List PoolBlock) : Trades grants log blocks log blocks :=
  ⟨[], blocks, rfl, (Grows.refl log).gives, by rw [fresh_of_length rfl, List.append_nil]⟩

theorem Trades.grow {blocks blocks' : List PoolBlock} (h : Trades grants log blocks log' blocks')
    (hg : Grows log' log'') (hp : pointers blocks'' = pointers blocks' ++ fresh grants log' log'') :
    Trades grants log blocks log'' blocks'' := by
  obtain ⟨gone, left, hsplit, hgives, hpointers⟩ := h
  refine ⟨gone, left, hsplit, hgives.grows hg, ?_⟩
  rw [hp, hpointers, List.append_assoc, ← fresh_append hgives.requests hg.requests]

theorem Trades.same {blocks blocks' : List PoolBlock} (h : Trades grants log blocks log' blocks')
    (hp : pointers blocks'' = pointers blocks') : Trades grants log blocks log' blocks'' := by
  obtain ⟨gone, left, hsplit, hgives, hpointers⟩ := h
  exact ⟨gone, left, hsplit, hgives, hp.trans hpointers⟩

theorem Trades.new {blocks blocks' : List PoolBlock} (h : Trades grants log blocks log' blocks')
    (cap : Nat) : Trades grants log blocks (PoolBlock.new grants cap log').2
      (blocks' ++ [(PoolBlock.new grants cap log').1]) := by
  refine h.grow (new_grows grants cap log') ?_
  rw [← new_fresh, pointers, List.filterMap_append]
  cases hmemory : (PoolBlock.new grants cap log').1.memory <;> simp [pointers, hmemory]

theorem destroyAll_trades (gone left : List PoolBlock) (log : PoolLog) :
    Trades grants log (gone ++ left) (destroyAll gone log) left := by
  refine ⟨gone, left, rfl, destroyAll_gives gone log, ?_⟩
  rw [PoolBlock.destroyAll_eq, fresh_of_length, List.append_nil]
  rfl

-- ---------------------------------------------------------------------------
-- Operations
-- ---------------------------------------------------------------------------

theorem construct_trades {blocks : List PoolBlock} (h : Trades grants log blocks log' [])
    (hrun : construct grants log' = (b, log'')) : Trades grants log blocks log'' b.blocks := by
  obtain ⟨b₁, hb, hblocks, -⟩ := construct_eq grants log'
  cases hrun.symm.trans hb
  rw [hblocks]
  exact h.new BufferBlock.initialBlockSize

theorem fill_pointers (h : b.fill src = .ok b') : pointers b'.blocks = pointers b.blocks := by
  obtain ⟨init, last, last', hblocks, hblocks', hmemory, -⟩ := fill_ok h
  rw [hblocks, hblocks', pointers, pointers, List.filterMap_append, List.filterMap_append,
    List.filterMap_cons, List.filterMap_cons, hmemory]

theorem appendLoop_trades {blocks : List PoolBlock} (h : Trades grants log blocks log' b.blocks)
    (hrun : appendLoop grants size fuel b src log' = .ok (b', log'')) :
    Trades grants log blocks log'' b'.blocks := by
  induction fuel generalizing b src log' with
  | zero =>
    cases src with
    | nil =>
      cases hrun
      exact h
    | cons c src => cases hrun
  | succ fuel ih =>
    cases src with
    | nil =>
      cases hrun
      exact h
    | cons c src =>
      rw [appendLoop] at hrun
      · cases hlast : b.blocks.getLast? with
        | none => simp only [hlast, reduceCtorEq] at hrun
        | some current =>
          simp only [hlast] at hrun
          by_cases hfull : sizeSub current.block.capacity b.writePos = 0
          · simp only [hfull, if_true] at hrun
            obtain ⟨b₁, cap, hgrow, hblocks, -⟩ := grow_eq b grants size current.block log'
            rw [hgrow] at hrun
            obtain ⟨b₂, hfill, hrun⟩ := bind_ok hrun
            refine ih (Trades.same ?_ (fill_pointers hfill)) hrun
            rw [hblocks]
            exact h.new cap
          · simp only [hfull, if_false] at hrun
            obtain ⟨b₂, hfill, hrun⟩ := bind_ok hrun
            exact ih (h.same (fill_pointers hfill)) hrun
      · exact fun hnil => List.cons_ne_nil c src hnil

theorem append_trades (hrun : b.append grants data log = .ok (b', log')) :
    Trades grants log b.blocks log' b'.blocks := by
  unfold append at hrun
  split at hrun
  · cases hrun
    exact .refl log b.blocks
  · by_cases hempty : b.blocks.isEmpty
    · have hb : b.blocks = [] := List.isEmpty_iff.mp hempty
      simp only [hb, emplaceBack_eq, List.nil_append] at hrun
      refine appendLoop_trades ?_ hrun
      rw [hb]
      exact (Trades.refl log []).new BufferBlock.initialBlockSize
    · simp only [hempty] at hrun
      exact appendLoop_trades (.refl log b.blocks) hrun

theorem consumeBytes_trades (h : Kept b log) (hrun : b.consumeBytes n log = .ok (b', log')) :
    Trades grants log b.blocks log' b'.blocks := by
  obtain ⟨gone, b₁, hsplit, hrun', -⟩ := consumeBytes_kept h n
  cases hrun.symm.trans hrun'
  rw [hsplit]
  exact destroyAll_trades gone b'.blocks log

theorem clear_trades (hrun : b.clear grants log = (b', log')) :
    Trades grants log b.blocks log' b'.blocks := by
  refine construct_trades ?_ hrun
  have hall : Trades grants log (b.blocks ++ []) (destroyAll b.blocks log) [] :=
    destroyAll_trades b.blocks [] log
  rwa [List.append_nil] at hall

theorem erase_trades (h : Kept b log) (hrun : b.erase grants len log = .ok (b', log')) :
    Trades grants log b.blocks log' b'.blocks := by
  by_cases hall : toSize len.toInt = b.totalSize
  · unfold erase at hrun
    by_cases hneg : len ≤ 0
    · simp only [hneg, true_or, if_true] at hrun
      cases hrun
      exact .refl log b.blocks
    · simp only [hneg, hall, gt_iff_lt, Nat.lt_irrefl, or_self, if_false, if_true] at hrun
      exact clear_trades (Except.ok.inj hrun)
  · obtain ⟨gone, b₁, hsplit, hrun', -⟩ := erase_kept h hall grants
    cases hrun.symm.trans hrun'
    rw [hsplit]
    exact destroyAll_trades gone b'.blocks log

end PooledBuffer

namespace BufferHeap

open PoolBlock (pointers)
open PooledBuffer (Trades fresh_of_length)
open PoolLog (fresh)

variable {grants : Nat → Bool} {s s' : BufferHeap} {log' : PoolLog} {gone left : List PoolBlock}

-- ---------------------------------------------------------------------------
-- Any number of buffers
-- ---------------------------------------------------------------------------

def blocksOf (b : Option PooledBuffer) : List PoolBlock := b.elim [] PooledBuffer.blocks

def holders (s : BufferHeap) : Option Nat → List Nat
  | some i => pointers (blocksOf (s.buffers i))
  | none => s.log.released.map Prod.fst

/-- All memory that has been allocated has one holder, and none has been given back with
more than its size. -/
structure Accounts (grants : Nat → Bool) (s : BufferHeap) : Prop where
  kept : ∀ i b, s.buffers i = some b → b.Kept s.log
  apart : Lib.Apart s.holders
  all : ∀ ptr, (∃ p, ptr ∈ s.holders p) ↔ ptr < s.log.requests.length ∧ grants ptr = true
  sizes : ∀ ptr size, (ptr, size) ∈ s.log.released →
    ∃ cap, s.log.requests[ptr]? = some cap ∧ size ≤ cap

theorem new_accounts : new.Accounts grants where
  kept := fun _ _ h => by cases h
  apart := ⟨fun p => by cases p <;> exact List.nodup_nil, fun p _ _ h => by cases p <;> cases h⟩
  all := fun ptr => by
    refine iff_of_false (fun h => ?_) fun h => absurd h.1 (Nat.not_lt_zero ptr)
    obtain ⟨p, hp⟩ := h
    cases p <;> cases hp
  sizes := fun _ _ h => by cases h

theorem mem_fresh {log log' : PoolLog} (h : log.requests <+: log'.requests) :
    ptr ∈ fresh grants log log' ↔
      (log.requests.length ≤ ptr ∧ ptr < log'.requests.length) ∧ grants ptr = true := by
  have hle := h.length_le
  rw [fresh, List.mem_filter, List.mem_range'_1]
  constructor
  · rintro ⟨⟨h1, h2⟩, h3⟩
    exact ⟨⟨h1, by omega⟩, h3⟩
  · rintro ⟨⟨h1, h2⟩, h3⟩
    exact ⟨⟨h1, by omega⟩, h3⟩

theorem releases_pointers (gone : List PoolBlock) :
    (gone.filterMap PoolBlock.release).map Prod.fst = pointers gone := by
  induction gone with
  | nil => rfl
  | cons b gone ih =>
    rw [pointers, List.filterMap_cons, List.filterMap_cons, PoolBlock.release]
    cases b.memory with
    | none => exact ih
    | some ptr => exact congrArg (ptr :: ·) ih

theorem trade_holders {entry : Option PooledBuffer} (hgives : PooledBuffer.Gives s.log gone log')
    (hpointers : pointers (blocksOf entry) = pointers left ++ fresh grants s.log log') :
    BufferHeap.holders { buffers := Function.update s.buffers i entry, log := log' } =
      Lib.moved s.holders (some i) (pointers left ++ fresh grants s.log log') none
        (s.holders none ++ pointers gone) := by
  funext p
  cases p with
  | none =>
    rw [Lib.moved_right, holders, hgives.released, List.map_append, releases_pointers]
    rfl
  | some j =>
    by_cases hj : j = i
    · subst hj
      rw [Lib.moved_left (by simp), ← hpointers]
      exact congrArg (fun b => pointers (blocksOf b)) (Function.update_self ..)
    · rw [Lib.moved_other (by simpa using hj) (by simp)]
      exact congrArg (fun b => pointers (blocksOf b)) (Function.update_of_ne hj ..)

theorem Accounts.fresh_unheld (h : s.Accounts grants) (hg : s.log.requests <+: log'.requests)
    (hptr : ptr ∈ fresh grants s.log log') (p : Option Nat) : ptr ∉ s.holders p := by
  intro hp
  have hlt := ((h.all ptr).mp ⟨p, hp⟩).1
  have hge := ((mem_fresh hg).mp hptr).1.1
  omega

/-- What a buffer keeps and takes and what the pool gets and has got: no pointer twice. -/
theorem Accounts.trade_nodup (h : s.Accounts grants) (hg : s.log.requests <+: log'.requests)
    (hmine : s.holders (some i) = pointers gone ++ pointers left) :
    ((pointers left ++ fresh grants s.log log') ++ (s.holders none ++ pointers gone)).Nodup := by
  have hperm : ((pointers left ++ fresh grants s.log log') ++ (s.holders none ++ pointers gone)).Perm
      ((s.holders none ++ s.holders (some i)) ++ fresh grants s.log log') := by
    rw [hmine, List.perm_iff_count]
    intro ptr
    simp only [List.count_append]
    omega
  have hheld : (s.holders none ++ s.holders (some i)).Nodup := by
    refine List.nodup_append.mpr ⟨h.apart.nodup none, h.apart.nodup (some i), ?_⟩
    rintro a ha b hb rfl
    cases h.apart.once _ _ a ha hb
  refine hperm.nodup_iff.mpr (List.nodup_append.mpr ⟨hheld, (List.nodup_range' ..).filter _, ?_⟩)
  rintro a ha b hb rfl
  rcases List.mem_append.mp ha with ha | ha
  · exact h.fresh_unheld hg hb none ha
  · exact h.fresh_unheld hg hb (some i) ha

theorem Accounts.gone_sizes (h : s.Accounts grants) (hg : s.log.requests <+: log'.requests)
    (hgone : ∀ blk ∈ gone, blk ∈ blocksOf (s.buffers i))
    (hmem : (ptr, size) ∈ gone.filterMap PoolBlock.release) :
    ∃ cap, log'.requests[ptr]? = some cap ∧ size ≤ cap := by
  obtain ⟨blk, hblk, hrelease⟩ := List.mem_filterMap.mp hmem
  obtain ⟨ptr', hptr, heq⟩ := Option.map_eq_some_iff.mp hrelease
  cases heq
  have hin := hgone blk hblk
  cases hb : s.buffers i with
  | none =>
    rw [hb] at hin
    cases hin
  | some b =>
    rw [hb] at hin
    have hkept := h.kept i b hb
    exact ⟨blk.block.capacity, PooledBuffer.getElem_grown hg (hkept.owned blk hin ptr hptr),
      hkept.valid.sizes blk.block (List.mem_map_of_mem hin)⟩

theorem Accounts.trade {entry : Option PooledBuffer} (h : s.Accounts grants)
    (ht : Trades grants s.log (blocksOf (s.buffers i)) log' (blocksOf entry))
    (hkept : ∀ b ∈ entry, b.Kept log') :
    Accounts grants { buffers := Function.update s.buffers i entry, log := log' } := by
  obtain ⟨gone, left, hsplit, hgives, hpointers⟩ := ht
  have hg := hgives.requests
  have hlists := trade_holders (i := i) hgives hpointers
  have hmine : s.holders (some i) = pointers gone ++ pointers left := by
    rw [holders, hsplit]
    exact List.filterMap_append
  refine ⟨fun j b hj => ?_, ?_, fun ptr => ?_, fun ptr size hmem => ?_⟩
  · dsimp only at hj
    by_cases hij : j = i
    · subst hij
      rw [Function.update_self] at hj
      exact hkept b hj
    · rw [Function.update_of_ne hij] at hj
      exact (h.kept j b hj).mono hg
  · rw [hlists]
    refine h.apart.move (by simp) (h.trade_nodup hg hmine) fun ptr hptr => ?_
    rcases List.mem_append.mp hptr with hptr | hptr
    · rcases List.mem_append.mp hptr with hptr | hptr
      · exact .inl (.inl (hmine ▸ List.mem_append_right _ hptr))
      · exact .inr (h.fresh_unheld hg hptr)
    · rcases List.mem_append.mp hptr with hptr | hptr
      · exact .inl (.inr hptr)
      · exact .inl (.inl (hmine ▸ List.mem_append_left _ hptr))
  · have hshare : ptr ∈ pointers left ++ fresh grants s.log log' ∨ ptr ∈ s.holders none ++ pointers gone ↔
        (ptr ∈ s.holders (some i) ∨ ptr ∈ s.holders none) ∨ ptr ∈ fresh grants s.log log' := by
      rw [hmine]
      simp only [List.mem_append]
      tauto
    have hle := hg.length_le
    rw [hlists, Lib.held_taken_iff (by simp) hshare, h.all, mem_fresh hg, ← or_and_right]
    refine and_congr_left fun _ => ?_
    dsimp only
    omega
  · rw [hgives.released] at hmem
    rcases List.mem_append.mp hmem with hmem | hmem
    · obtain ⟨cap, hcap, hsize⟩ := h.sizes ptr size hmem
      exact ⟨cap, PooledBuffer.getElem_grown hg hcap, hsize⟩
    · exact h.gone_sizes hg (fun blk hblk => hsplit ▸ List.mem_append_left _ hblk) hmem

structure Trade (grants : Nat → Bool) (s : BufferHeap) (i : Nat) (entry : Option PooledBuffer)
    (log' : PoolLog) : Prop where
  trades : Trades grants s.log (blocksOf (s.buffers i)) log' (blocksOf entry)
  kept : ∀ b ∈ entry, b.Kept log'

theorem update_trade (h : s.Accounts grants) (hs : s.update i op = .ok s')
    (hop : ∀ b b' log', b.Kept s.log → op b s.log = .ok (b', log') →
      b'.Kept log' ∧ Trades grants s.log b.blocks log' b'.blocks) :
    ∃ entry log', s' = { buffers := Function.update s.buffers i entry, log := log' } ∧
      s.Trade grants i entry log' := by
  cases hb : s.buffers i with
  | none =>
    simp only [BufferHeap.update, hb] at hs
    refine ⟨s.buffers i, s.log, ?_, .refl _ _, fun b hentry => h.kept i b hentry⟩
    rw [Function.update_eq_self]
    exact (Except.ok.inj hs).symm
  | some b =>
    simp only [BufferHeap.update, hb] at hs
    obtain ⟨⟨b', log'⟩, hrun, hs⟩ := bind_ok hs
    cases hs
    obtain ⟨hkept, ht⟩ := hop b b' log' (h.kept i b hb) hrun
    refine ⟨some b', log', rfl, ?_, fun b'' hb'' => ?_⟩
    · rw [hb]
      exact ht
    · exact Option.some.inj hb'' ▸ hkept

/-- A step is an operation on one buffer, or the first or last of it. -/
theorem step_trade (h : s.Accounts grants) (ha : s.Admits e) (hs : s.step grants e = .ok s') :
    ∃ i entry log', s' = { buffers := Function.update s.buffers i entry, log := log' } ∧
      s.Trade grants i entry log' := by
  cases e with
  | construct i =>
    obtain ⟨b, log', hrun, hkept, -⟩ := PooledBuffer.construct_kept grants s.log
    simp only [BufferHeap.step, hrun] at hs
    cases hs
    refine ⟨i, some b, log', rfl, ?_, fun b' hb' => Option.some.inj hb' ▸ hkept⟩
    rw [show s.buffers i = none from ha]
    exact PooledBuffer.construct_trades (.refl s.log []) hrun
  | append i data =>
    refine ⟨i, update_trade h hs fun b b' log' hb hrun => ?_⟩
    exact ⟨(PooledBuffer.append_kept hb hrun).1, PooledBuffer.append_trades hrun⟩
  | consumeBytes i n =>
    refine ⟨i, update_trade h hs fun b b' log' hb hrun => ⟨?_, PooledBuffer.consumeBytes_trades hb hrun⟩⟩
    obtain ⟨b'', log'', hrun', -, hkept, -⟩ := PooledBuffer.consumeBytes_ends hb n
    cases hrun.symm.trans hrun'
    exact hkept
  | erase i len =>
    refine ⟨i, update_trade h hs fun b b' log' hb hrun => ⟨?_, PooledBuffer.erase_trades hb hrun⟩⟩
    obtain ⟨b'', log'', hrun', -, hkept, -⟩ := PooledBuffer.erase_ends hb len grants
    cases hrun.symm.trans hrun'
    exact hkept
  | clear i =>
    have hclear : s.update i (fun b log => .ok (b.clear grants log)) = .ok s' := hs
    refine ⟨i, update_trade h hclear fun b b' log' hb hrun => ?_⟩
    replace hrun := Except.ok.inj hrun
    refine ⟨?_, PooledBuffer.clear_trades hrun⟩
    obtain ⟨b'', log'', hrun', -, hkept, -⟩ := PooledBuffer.clear_ends hb grants
    cases hrun.symm.trans hrun'
    exact hkept
  | destruct i =>
    refine ⟨i, ?_⟩
    simp only [BufferHeap.step] at hs
    cases hb : s.buffers i with
    | none =>
      simp only [hb] at hs
      refine ⟨s.buffers i, s.log, ?_, .refl _ _, fun b hentry => h.kept i b hentry⟩
      rw [Function.update_eq_self]
      exact (Except.ok.inj hs).symm
    | some b =>
      simp only [hb] at hs
      refine ⟨none, _, (Except.ok.inj hs).symm, ?_, by rintro _ ⟨⟩⟩
      rw [hb]
      have hall : Trades grants s.log (b.blocks ++ []) (PoolBlock.destroyAll b.blocks s.log) [] :=
        PooledBuffer.destroyAll_trades b.blocks [] s.log
      rwa [List.append_nil] at hall

theorem Accounts.step (h : s.Accounts grants) (ha : s.Admits e) (hs : s.step grants e = .ok s') :
    s'.Accounts grants := by
  obtain ⟨i, entry, log', rfl, ht⟩ := step_trade h ha hs
  exact h.trade ht.trades ht.kept

theorem step_log (h : s.Accounts grants) (ha : s.Admits e) (hs : s.step grants e = .ok s') :
    s.log.requests <+: s'.log.requests ∧ s.log.released <+: s'.log.released := by
  obtain ⟨i, entry, log', rfl, ht⟩ := step_trade h ha hs
  obtain ⟨gone, left, -, hgives, -⟩ := ht.trades
  refine ⟨hgives.requests, ?_⟩
  rw [hgives.released]
  exact List.prefix_append ..

theorem accounts_of_reach (h : Lib.Reach (step grants) Admits new s) : s.Accounts grants :=
  h.invariant (fun _ _ _ h ha hs => h.step ha hs) new_accounts

/-- Whatever is done with any number of buffers: memory is given back once at most, with
no more than the size it was allocated with, and until then one block of one buffer has
it; when there is no buffer left, all of it has been given back. -/
theorem owned_once (h : Lib.Reach (step grants) Admits new s) :
    (s.log.released.map Prod.fst).Nodup ∧
    (∀ ptr size, (ptr, size) ∈ s.log.released →
      grants ptr = true ∧ ∃ cap, s.log.requests[ptr]? = some cap ∧ size ≤ cap) ∧
    (∀ i b ptr, s.buffers i = some b → ptr ∈ pointers b.blocks →
      (pointers b.blocks).count ptr = 1 ∧ (∀ size, (ptr, size) ∉ s.log.released) ∧
        ∀ j c, s.buffers j = some c → ptr ∈ pointers c.blocks → j = i) ∧
    ∀ ptr cap, s.log.requests[ptr]? = some cap → grants ptr = true →
      (∃ size, (ptr, size) ∈ s.log.released) ∨ ∃ i b, s.buffers i = some b ∧ ptr ∈ pointers b.blocks := by
  have ha := accounts_of_reach h
  have hholds : ∀ {i b ptr}, s.buffers i = some b → ptr ∈ pointers b.blocks → ptr ∈ s.holders (some i) := by
    intro i b ptr hb hptr
    rw [holders, hb]
    exact hptr
  refine ⟨ha.apart.nodup none, fun ptr size hmem => ?_, fun i b ptr hb hptr => ⟨?_, fun size hmem => ?_,
    fun j c hc hptr' => ?_⟩, fun ptr cap hcap hgrants => ?_⟩
  · exact ⟨((ha.all ptr).mp ⟨none, List.mem_map_of_mem hmem⟩).2, ha.sizes ptr size hmem⟩
  · have hnodup := ha.apart.nodup (some i)
    rw [holders, hb] at hnodup
    exact List.count_eq_one_of_mem hnodup hptr
  · cases ha.apart.once none (some i) ptr (List.mem_map_of_mem hmem) (hholds hb hptr)
  · exact Option.some.inj (ha.apart.once _ _ ptr (hholds hc hptr') (hholds hb hptr))
  · obtain ⟨p, hp⟩ := (ha.all ptr).mpr ⟨(List.getElem?_eq_some_iff.mp hcap).1, hgrants⟩
    cases p with
    | none =>
      obtain ⟨⟨ptr', size⟩, hmem, rfl⟩ := List.mem_map.mp hp
      exact .inl ⟨size, hmem⟩
    | some i =>
      rw [holders] at hp
      cases hb : s.buffers i with
      | none =>
        rw [hb] at hp
        cases hp
      | some b =>
        rw [hb] at hp
        exact .inr ⟨i, b, hb, hp⟩

/-- The first of two blocks is read and gone. -/
theorem owned_once_example : ∃ s, Lib.Reach (step fun _ => true) Admits new s ∧
    s.log.released = [(0, 2048)] ∧ ∃ i b, s.buffers i = some b ∧ 1 ∈ pointers b.blocks := by
  have hrun : (Lib.checked (step fun _ => true) (fun s e => s.Admits e) new
      [.construct 0, .append 0 (List.replicate 2048 65), .append 0 [66], .consumeBytes 0 2048]).map
      (fun s => (s.log.released, s.log.requests)) = some ([(0, 2048)], [2048, 4096]) := by
    decide +kernel
  obtain ⟨s, hs, hlog⟩ := Option.map_eq_some_iff.mp hrun
  obtain ⟨hreleased, hrequests⟩ := Prod.mk.inj hlog
  have hreach : Lib.Reach (step fun _ => true) Admits new s :=
    Lib.Reach.start.checked _ (fun s e he => of_decide_eq_true he) hs
  obtain ⟨-, -, -, hall⟩ := owned_once hreach
  refine ⟨s, hreach, hreleased, ?_⟩
  rcases hall 1 4096 (by rw [hrequests]; rfl) rfl with ⟨size, hmem⟩ | hheld
  · rw [hreleased] at hmem
    simp at hmem
  · exact hheld

end BufferHeap

end MudouHttp
