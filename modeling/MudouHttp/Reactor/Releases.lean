import MudouHttp.Pool.Chains
import MudouHttp.Reactor.BufferLaws
import MudouHttp.Reactor.PooledBuffer

/-!
# What the blocks of a BufferBlock give back to the pool

A block is given back with its fill level, not with the capacity it was
allocated with. All blocks but the last are full, so that only a last block can
go to another size class: `memory_returns_iff`.
-/

namespace MudouHttp

-- ---------------------------------------------------------------------------
-- The vector
-- ---------------------------------------------------------------------------

namespace PoolBlock

def release (b : PoolBlock) : Option (Nat × Nat) := b.memory.map fun ptr => (ptr, b.block.size)

theorem destroy_eq (b : PoolBlock) (log : PoolLog) :
    b.destroy log = { log with released := log.released ++ b.release.toList } := by
  unfold destroy release
  cases b.memory with
  | none => simp
  | some ptr => rfl

theorem destroy_moved (log : PoolLog) : moved.destroy log = log := rfl

theorem shift_eq (b : PoolBlock) (rest : List PoolBlock) (log : PoolLog) :
    b.shift rest log = (rest, b.destroy log) := by
  induction rest generalizing b log with
  | nil => rfl
  | cons next rest ih => rw [shift, ih, destroy_moved]

/-- The block that is erased is the only one that gives memory back. -/
theorem eraseBegin_cons (b : PoolBlock) (rest : List PoolBlock) (log : PoolLog) :
    eraseBegin (b :: rest) log = (rest, b.destroy log) := shift_eq b rest log

theorem destroyAll_eq (blocks : List PoolBlock) (log : PoolLog) :
    destroyAll blocks log =
      { log with released := log.released ++ blocks.filterMap release } := by
  induction blocks generalizing log with
  | nil => simp [destroyAll]
  | cons b blocks ih =>
    have hcons : destroyAll (b :: blocks) log = destroyAll blocks (b.destroy log) := rfl
    rw [hcons, ih, destroy_eq, List.filterMap_cons]
    cases b.release <;> simp

theorem destroyAll_append (gone left : List PoolBlock) (log : PoolLog) :
    destroyAll (gone ++ left) log = destroyAll left (destroyAll gone log) := List.foldl_append

theorem emplaceBack_eq (grants : Nat → Bool) (blocks : List PoolBlock) (cap : Nat)
    (log : PoolLog) : emplaceBack grants blocks cap log =
      (blocks ++ [(new grants cap log).1], (new grants cap log).2) := by
  have hmoved : ∀ log, destroyAll (blocks.map fun _ => moved) log = log := by
    intro log
    rw [destroyAll_eq, List.filterMap_map]
    have hnone : (release ∘ fun _ => moved) = fun _ : PoolBlock => none := rfl
    rw [hnone, List.filterMap_none, List.append_nil]
  exact congrArg _ (hmoved _)

end PoolBlock

namespace PooledBuffer

open BufferBlock (Valid Fits frontSize advance queued)
open PoolBlock (destroyAll destroyAll_append eraseBegin_cons emplaceBack_eq)

-- ---------------------------------------------------------------------------
-- The operations are those of the buffer without pointers
-- ---------------------------------------------------------------------------

theorem consumeLoop_ok {blocks : List PoolBlock} (hp : pos ≤ frontSize (blocks.map PoolBlock.block))
    (hrounds : blocks.length + 2 ≤ rounds) (size consumed : Nat) (log : PoolLog) :
    ∃ gone left pos' consumed', blocks = gone ++ left ∧
      consumeLoop size rounds blocks pos consumed log =
        .ok (left, pos', consumed', destroyAll gone log) ∧
      BufferBlock.consumeLoop size (blocks.map PoolBlock.block) pos consumed =
        (left.map PoolBlock.block, pos', consumed') := by
  induction blocks generalizing rounds pos consumed log with
  | nil =>
    obtain ⟨rounds, rfl⟩ := Nat.exists_eq_add_of_le' (Nat.le_of_succ_le hrounds)
    exact ⟨[], [], pos, consumed, rfl, rfl, rfl⟩
  | cons current rest ih =>
    obtain ⟨rounds, rfl⟩ := Nat.exists_eq_add_of_le' (Nat.le_trans (by decide : 1 ≤ 2)
      (Nat.le_trans (Nat.le_add_left 2 _) hrounds))
    replace hp : pos ≤ current.block.size := hp
    rw [List.length_cons] at hrounds
    rw [List.map_cons, consumeLoop, BufferBlock.consumeLoop, sizeSub_of_le hp]
    by_cases hlt : consumed < size
    · simp only [hlt, if_true]
      by_cases hall : pos + min (size - consumed) (current.block.size - pos) = current.block.size
      · simp only [hall, if_true, eraseBegin_cons]
        have hrest : rest.length + 2 ≤ rounds := by omega
        obtain ⟨gone, left, pos', consumed', hsplit, hloop, hbuffer⟩ := ih (Nat.zero_le _) hrest
          (consumed + min (size - consumed) (current.block.size - pos)) (current.destroy log)
        exact ⟨current :: gone, left, pos', consumed', by rw [hsplit]; rfl, hloop, hbuffer⟩
      · -- what is left of the block is more than is asked for, and the loop ends
        have hend : consumed + min (size - consumed) (current.block.size - pos) = size := by omega
        obtain ⟨rounds, rfl⟩ := Nat.exists_eq_add_of_le' (show 1 ≤ rounds by omega)
        simp only [hall, if_false, hend]
        rw [consumeLoop, if_neg (Nat.lt_irrefl size)]
        exact ⟨[], current :: rest, _, _, rfl, rfl, rfl⟩
    · simp only [hlt, if_false]
      exact ⟨[], current :: rest, pos, consumed, rfl, rfl, rfl⟩

theorem eraseLoop_ok {blocks : List PoolBlock} (hp : pos ≤ frontSize (blocks.map PoolBlock.block))
    (hrounds : blocks.length + 1 ≤ rounds) (length : Nat) (log : PoolLog) :
    ∃ gone left pos', blocks = gone ++ left ∧
      eraseLoop rounds blocks pos length log = .ok (left, pos', destroyAll gone log) ∧
      BufferBlock.eraseLoop (blocks.map PoolBlock.block) pos length =
        (left.map PoolBlock.block, pos') := by
  induction blocks generalizing rounds pos length log with
  | nil =>
    obtain ⟨rounds, rfl⟩ := Nat.exists_eq_add_of_le' hrounds
    exact ⟨[], [], pos, rfl, rfl, rfl⟩
  | cons current rest ih =>
    obtain ⟨rounds, rfl⟩ := Nat.exists_eq_add_of_le' (Nat.le_trans (Nat.le_add_left 1 _) hrounds)
    replace hp : pos ≤ current.block.size := hp
    rw [List.length_cons] at hrounds
    rw [List.map_cons, eraseLoop, BufferBlock.eraseLoop, sizeSub_of_le hp]
    by_cases hpos : length > 0
    · simp only [hpos, if_true]
      by_cases hall : current.block.size - pos ≤ length
      · simp only [hall, if_true, eraseBegin_cons]
        have hrest : rest.length + 1 ≤ rounds := by omega
        obtain ⟨gone, left, pos', hsplit, hloop, hbuffer⟩ := ih (Nat.zero_le _) hrest
          (length - (current.block.size - pos)) (current.destroy log)
        exact ⟨current :: gone, left, pos', by rw [hsplit]; rfl, hloop, hbuffer⟩
      · simp only [hall, if_false]
        exact ⟨[], current :: rest, _, rfl, rfl, rfl⟩
    · simp only [hpos, if_false]
      exact ⟨[], current :: rest, pos, rfl, rfl, rfl⟩

theorem consumeBytes_ok {b : PooledBuffer} (hp : b.readPos ≤ frontSize (b.blocks.map PoolBlock.block))
    (n : Nat) (log : PoolLog) :
    ∃ gone b', b.blocks = gone ++ b'.blocks ∧ b.consumeBytes n log = .ok (b', destroyAll gone log) ∧
      b.buffer.consumeBytes n = b'.buffer := by
  unfold consumeBytes BufferBlock.consumeBytes
  by_cases hn : n = 0
  · simp only [hn, if_true]
    exact ⟨[], b, rfl, rfl, rfl⟩
  · obtain ⟨gone, left, pos', consumed', hsplit, hloop, hbuffer⟩ :=
      consumeLoop_ok hp (Nat.le_refl _) n 0 log
    have hbuffer' : BufferBlock.consumeLoop n b.buffer.blocks b.buffer.readPos 0 = _ := hbuffer
    simp only [hn, if_false, hloop, hbuffer']
    exact ⟨gone, _, hsplit, rfl, rfl⟩

theorem erase_ok {b : PooledBuffer} (hp : b.readPos ≤ frontSize (b.blocks.map PoolBlock.block))
    (hall : toSize len.toInt ≠ b.totalSize) (grants : Nat → Bool) (log : PoolLog) :
    ∃ gone b', b.blocks = gone ++ b'.blocks ∧
      b.erase grants len log = .ok (b', destroyAll gone log) ∧ b.buffer.erase len = b'.buffer := by
  unfold erase BufferBlock.erase
  have hall' : toSize len.toInt ≠ b.buffer.totalSize := hall
  by_cases hout : len ≤ 0 ∨ toSize len.toInt > b.totalSize
  · have hout' : len ≤ 0 ∨ toSize len.toInt > b.buffer.totalSize := hout
    simp only [hout, hout', if_true]
    exact ⟨[], b, rfl, rfl, rfl⟩
  · have hout' : ¬(len ≤ 0 ∨ toSize len.toInt > b.buffer.totalSize) := hout
    obtain ⟨gone, left, pos', hsplit, hloop, hbuffer⟩ :=
      eraseLoop_ok hp (Nat.le_refl _) (toSize len.toInt) log
    have hbuffer' : BufferBlock.eraseLoop b.buffer.blocks b.buffer.readPos (toSize len.toInt) = _ :=
      hbuffer
    simp only [hout, hout', hall, hall', if_false, hloop, hbuffer']
    exact ⟨gone, _, hsplit, rfl, rfl⟩

theorem construct_eq (grants : Nat → Bool) (log : PoolLog) :
    ∃ b, construct grants log = (b, (PoolBlock.new grants BufferBlock.initialBlockSize log).2) ∧
      b.blocks = [(PoolBlock.new grants BufferBlock.initialBlockSize log).1] ∧
      b.buffer = BufferBlock.fresh := by
  simp only [construct, emplaceBack_eq]
  exact ⟨_, rfl, rfl, rfl⟩

theorem write_inv {blk blk' : Block} (h : blk.write pos src = .ok blk') :
    blk'.capacity = blk.capacity ∧ pos + src.length ≤ blk.capacity := by
  unfold Block.write at h
  split at h
  · rename_i hroom
    cases h
    exact ⟨rfl, hroom⟩
  · cases h

theorem fill_ok {b b' : PooledBuffer} (h : b.fill src = .ok b') :
    ∃ init last last', b.blocks = init ++ [last] ∧ b'.blocks = init ++ [last'] ∧
      last'.memory = last.memory ∧ last'.block.capacity = last.block.capacity ∧
      last'.block.size = b.writePos + src.length ∧
      b.writePos + src.length ≤ last.block.capacity ∧ b.buffer.fill src = .ok b'.buffer := by
  unfold fill at h
  cases hlast : b.blocks.getLast? with
  | none => simp only [hlast, reduceCtorEq] at h
  | some last =>
    obtain ⟨init, hinit⟩ := List.getLast?_eq_some_iff.mp hlast
    have hbuffer : b.buffer.blocks.getLast? = some last.block := by
      show (b.blocks.map PoolBlock.block).getLast? = _
      rw [List.getLast?_map, hlast]
      rfl
    simp only [hlast] at h
    split at h
    · cases h
    · obtain ⟨blk, hwrite, h⟩ := bind_ok h
      cases h
      obtain ⟨hcapacity, hroom⟩ := write_inv hwrite
      refine ⟨init, last, { last with block := { blk with size := b.writePos + src.length } }, hinit,
        ?_, rfl, hcapacity, rfl, hroom, ?_⟩
      · simp only [hinit, List.dropLast_concat]
      · unfold BufferBlock.fill
        rw [hbuffer]
        simp only [buffer, hwrite, bind, Except.bind, pure, Except.pure, List.map_append,
          List.map_dropLast, List.map_cons, List.map_nil]

theorem grow_eq (b : PooledBuffer) (grants : Nat → Bool) (size : Nat) (current : Block)
    (log : PoolLog) :
    ∃ b' cap, b.grow grants size current log = (b', (PoolBlock.new grants cap log).2) ∧
      b'.blocks = b.blocks ++ [(PoolBlock.new grants cap log).1] ∧
      b'.buffer = b.buffer.grow size current := by
  simp only [grow, emplaceBack_eq]
  refine ⟨_, _, rfl, rfl, ?_⟩
  simp only [buffer, BufferBlock.grow, List.map_append]
  rfl

-- ---------------------------------------------------------------------------
-- All blocks but the last are full
-- ---------------------------------------------------------------------------

structure Kept (b : PooledBuffer) (log : PoolLog) : Prop where
  valid : Valid b.buffer
  full : ∀ blk ∈ b.blocks.dropLast, blk.block.size = blk.block.capacity
  used : ∀ blk ∈ b.blocks.tail, 0 < blk.block.size
  owned : ∀ blk ∈ b.blocks, ∀ ptr, blk.memory = some ptr →
    log.requests[ptr]? = some blk.block.capacity

structure Grows (log log' : PoolLog) : Prop where
  requests : log.requests <+: log'.requests
  released : log'.released = log.released

theorem Grows.refl (log : PoolLog) : Grows log log := ⟨List.prefix_refl _, rfl⟩

theorem Grows.trans {log log' log'' : PoolLog} (h : Grows log log') (h' : Grows log' log'') :
    Grows log log'' := ⟨h.requests.trans h'.requests, h'.released.trans h.released⟩

theorem new_grows (grants : Nat → Bool) (cap : Nat) (log : PoolLog) :
    Grows log (PoolBlock.new grants cap log).2 := ⟨List.prefix_append _ _, rfl⟩

theorem getElem_grown {requests requests' : List Nat} {ptr cap : Nat}
    (h : requests <+: requests') (hget : requests[ptr]? = some cap) :
    requests'[ptr]? = some cap := by
  obtain ⟨more, rfl⟩ := h
  rw [List.getElem?_append_left (List.getElem?_eq_some_iff.mp hget).1]
  exact hget

theorem Kept.mono {b : PooledBuffer} {log log' : PoolLog} (h : Kept b log)
    (hg : log.requests <+: log'.requests) : Kept b log' :=
  ⟨h.valid, h.full, h.used, fun blk hb ptr hptr => getElem_grown hg (h.owned blk hb ptr hptr)⟩

theorem new_owned (grants : Nat → Bool) (cap : Nat) (log : PoolLog) :
    ∀ ptr, (PoolBlock.new grants cap log).1.memory = some ptr →
      (PoolBlock.new grants cap log).2.requests[ptr]? = some cap := by
  intro ptr hptr
  have hlast : ptr = log.requests.length := by
    unfold PoolBlock.new at hptr
    dsimp only at hptr
    split at hptr
    · exact (Option.some.inj hptr).symm
    · cases hptr
  rw [hlast]
  exact List.getElem?_concat_length

theorem construct_kept (grants : Nat → Bool) (log : PoolLog) :
    ∃ b log', construct grants log = (b, log') ∧ Kept b log' ∧ Grows log log' := by
  obtain ⟨b, hb, hblocks, hbuffer⟩ := construct_eq grants log
  refine ⟨b, _, hb, ⟨hbuffer ▸ BufferBlock.fresh_valid, ?_, ?_, ?_⟩, new_grows ..⟩
  · rw [hblocks]
    nofun
  · rw [hblocks]
    nofun
  · intro blk hmem
    rw [hblocks, List.mem_singleton] at hmem
    rw [hmem]
    exact new_owned grants _ log

theorem fill_kept {b b' : PooledBuffer} {log : PoolLog} (hvalid : Valid b.buffer)
    (hfull : ∀ blk ∈ b.blocks.dropLast, blk.block.size = blk.block.capacity)
    (hused : ∀ blk ∈ b.blocks.dropLast.tail, 0 < blk.block.size)
    (howned : ∀ blk ∈ b.blocks, ∀ ptr, blk.memory = some ptr →
      log.requests[ptr]? = some blk.block.capacity)
    (hsrc : 0 < src.length) (h : b.fill src = .ok b') : Kept b' log := by
  obtain ⟨init, last, last', hblocks, hblocks', hmemory, hcapacity, hsize, hroom, hfill⟩ := fill_ok h
  have hlast : b.buffer.blocks.getLast? = some last.block := by
    show (b.blocks.map PoolBlock.block).getLast? = _
    rw [hblocks, List.map_append]
    exact List.getLast?_concat
  have hwrite : b.writePos = last.block.size := hvalid.write _ hlast
  obtain ⟨b'', hb'', hvalid', -⟩ := BufferBlock.fill_ok hvalid hlast src (hwrite ▸ hroom)
  rw [hfill] at hb''
  obtain rfl := Except.ok.inj hb''
  rw [hblocks, List.dropLast_concat] at hfull hused
  refine ⟨hvalid', ?_, fun blk hmem => ?_, fun blk hmem ptr hptr => ?_⟩
  · rw [hblocks', List.dropLast_concat]
    exact hfull
  · rw [hblocks'] at hmem
    cases init with
    | nil => cases hmem
    | cons front rest =>
      rcases List.mem_append.mp hmem with hmem | hmem
      · exact hused blk hmem
      · rw [List.mem_singleton.mp hmem, hsize]
        exact Nat.add_pos_right _ hsrc
  · rw [hblocks'] at hmem
    rcases List.mem_append.mp hmem with hmem | hmem
    · exact howned blk (hblocks ▸ List.mem_append_left _ hmem) ptr hptr
    · rw [List.mem_singleton.mp hmem] at hptr ⊢
      rw [hcapacity]
      exact howned last (hblocks ▸ List.mem_append_right _ List.mem_cons_self) ptr (hmemory ▸ hptr)

theorem last_block {b : PooledBuffer} (hlast : b.blocks.getLast? = some last) :
    b.buffer.blocks.getLast? = some last.block := by
  show (b.blocks.map PoolBlock.block).getLast? = _
  rw [List.getLast?_map, hlast]
  rfl

/-- The last block has no room: bytes go to a new one. -/
theorem grow_fill_kept {b b₁ b' : PooledBuffer} {log log₁ : PoolLog} (h : Kept b log)
    (hlast : b.blocks.getLast? = some last) (hfull : last.block.size = last.block.capacity)
    (hgrow : b.grow grants size current log = (b₁, log₁)) (hsrc : 0 < src.length)
    (hfill : b₁.fill src = .ok b') : Kept b' log₁ ∧ Grows log log₁ := by
  obtain ⟨init, hinit⟩ := List.getLast?_eq_some_iff.mp hlast
  obtain ⟨b₂, cap, hgrow', hblocks, hbuffer⟩ := grow_eq b grants size current log
  rw [hgrow] at hgrow'
  cases hgrow'
  have hne : b.buffer.blocks ≠ [] := List.ne_nil_of_mem (List.mem_of_getLast? (last_block hlast))
  have hg := new_grows grants cap log
  refine ⟨fill_kept ?_ ?_ ?_ ?_ hsrc hfill, hg⟩
  · rw [hbuffer]
    exact (BufferBlock.grow_ok h.valid hne size current).1
  · rw [hblocks, List.dropLast_concat]
    intro blk hmem
    rw [hinit] at hmem
    rcases List.mem_append.mp hmem with hmem | hmem
    · exact h.full blk (by rwa [hinit, List.dropLast_concat])
    · rw [List.mem_singleton.mp hmem]
      exact hfull
  · rw [hblocks, List.dropLast_concat]
    exact h.used
  · rw [hblocks]
    intro blk hmem ptr hptr
    rcases List.mem_append.mp hmem with hmem | hmem
    · exact getElem_grown hg.requests (h.owned blk hmem ptr hptr)
    · rw [List.mem_singleton.mp hmem] at hptr ⊢
      exact new_owned grants cap log ptr hptr

theorem fill_last_kept {b b' : PooledBuffer} {log : PoolLog} (h : Kept b log)
    (hsrc : 0 < src.length) (hfill : b.fill src = .ok b') : Kept b' log :=
  fill_kept h.valid h.full
    (fun blk hmem => h.used blk ((List.dropLast_sublist _).tail.subset hmem)) h.owned hsrc hfill

theorem appendLoop_kept {b b' : PooledBuffer} {log log' : PoolLog} (h : Kept b log)
    (hsize : src.length ≤ size) (hrun : appendLoop grants size fuel b src log = .ok (b', log')) :
    Kept b' log' ∧ Grows log log' := by
  induction fuel generalizing b src log with
  | zero =>
    cases src with
    | nil =>
      cases hrun
      exact ⟨h, .refl _⟩
    | cons c src => cases hrun
  | succ fuel ih =>
    cases src with
    | nil =>
      cases hrun
      exact ⟨h, .refl _⟩
    | cons c src =>
      rw [appendLoop] at hrun
      · cases hlast : b.blocks.getLast? with
        | none => simp only [hlast, reduceCtorEq] at hrun
        | some current =>
          simp only [hlast] at hrun
          have hwrite : b.writePos = current.block.size := h.valid.write _ (last_block hlast)
          have hcap : current.block.size ≤ current.block.capacity :=
            h.valid.sizes _ (List.mem_of_getLast? (last_block hlast))
          rw [hwrite, sizeSub_of_le hcap] at hrun
          by_cases hfull : current.block.capacity - current.block.size = 0
          · simp only [hfull, if_true] at hrun
            generalize hgrow : b.grow grants size current.block log = grown at hrun
            obtain ⟨b₁, log₁⟩ := grown
            obtain ⟨b₂, hfill, hrun⟩ := bind_ok hrun
            obtain ⟨hkept, hg⟩ := grow_fill_kept h hlast (by omega) hgrow (by
              rw [List.length_take, List.length_cons]
              rw [List.length_cons] at hsize
              omega) hfill
            obtain ⟨hkept', hg'⟩ := ih hkept (by rw [List.length_drop]; omega) hrun
            exact ⟨hkept', hg.trans hg'⟩
          · simp only [hfull, if_false] at hrun
            obtain ⟨b₂, hfill, hrun⟩ := bind_ok hrun
            have hkept := fill_last_kept h (by
              rw [List.length_take, List.length_cons]
              omega) hfill
            exact ih hkept (by rw [List.length_drop]; omega) hrun
      · nofun

theorem reopened_kept {b : PooledBuffer} {log : PoolLog} (h : Kept b log) (hb : b.blocks = [])
    (grants : Nat → Bool) : Kept { b with
      blocks := [(PoolBlock.new grants BufferBlock.initialBlockSize log).1], writePos := 0 }
      (PoolBlock.new grants BufferBlock.initialBlockSize log).2 := by
  have hempty : b.buffer.blocks = [] := by
    show b.blocks.map PoolBlock.block = []
    rw [hb]
    rfl
  refine ⟨(BufferBlock.reopened_ok h.valid hempty).1, nofun, nofun, fun blk hmem => ?_⟩
  rw [List.mem_singleton.mp hmem]
  exact new_owned grants _ log

theorem append_kept {b b' : PooledBuffer} {log log' : PoolLog} (h : Kept b log)
    (hrun : b.append grants data log = .ok (b', log')) : Kept b' log' ∧ Grows log log' := by
  unfold append at hrun
  split at hrun
  · cases hrun
    exact ⟨h, .refl _⟩
  · by_cases hempty : b.blocks.isEmpty
    · have hb : b.blocks = [] := List.isEmpty_iff.mp hempty
      simp only [hb, emplaceBack_eq, List.nil_append] at hrun
      obtain ⟨hkept, hg⟩ := appendLoop_kept (reopened_kept h hb grants) (Nat.le_refl _) hrun
      exact ⟨hkept, (new_grows ..).trans hg⟩
    · simp only [hempty] at hrun
      exact appendLoop_kept h (Nat.le_refl _) hrun

-- ---------------------------------------------------------------------------
-- The blocks that go
-- ---------------------------------------------------------------------------

/-- Every byte taken, and no block is left; there is no block without a byte
behind the first one. -/
theorem advance_nil {blk : Block} {rest : List Block} (hf : Fits (blk :: rest))
    (hused : ∀ x ∈ rest, 0 < x.size) (hp : pos ≤ blk.size) (n : Nat) :
    (advance (blk :: rest) pos n).1 = [] ↔ n ≠ 0 ∧ (queued (blk :: rest) pos).length ≤ n := by
  induction rest generalizing blk pos n with
  | nil =>
    rw [BufferBlock.queued_length hf, advance]
    by_cases hn : n = 0
    · simp [hn]
    · by_cases hall : blk.size - pos ≤ n
      · simp [hn, hall, advance, queued]
      · simp [hn, hall, queued]
  | cons next rest ih =>
    have hpos := hused next List.mem_cons_self
    rw [BufferBlock.queued_length hf, advance]
    by_cases hn : n = 0
    · simp [hn]
    · by_cases hall : blk.size - pos ≤ n
      · rw [if_neg hn, if_pos hall, ih hf.tail (fun x hx => hused x (List.mem_cons_of_mem _ hx))
          (Nat.zero_le _), BufferBlock.queued_length hf.tail]
        omega
      · rw [if_neg hn, if_neg hall]
        simp only [reduceCtorEq, false_iff]
        omega

theorem Kept.left {b : PooledBuffer} {log : PoolLog} {left : PooledBuffer} (h : Kept b log)
    (hsplit : b.blocks = gone ++ left.blocks) (hvalid : Valid left.buffer) :
    Kept left (destroyAll gone log) := by
  rw [PoolBlock.destroyAll_eq]
  refine ⟨hvalid, fun blk hmem => h.full blk ?_, fun blk hmem => h.used blk ?_,
    fun blk hmem => h.owned blk (hsplit ▸ List.mem_append_right _ hmem)⟩
  · rw [hsplit, List.dropLast_append_of_ne_nil]
    · exact List.mem_append_right _ hmem
    · intro hnil
      rw [hnil] at hmem
      cases hmem
  · rw [hsplit]
    cases gone with
    | nil => exact hmem
    | cons b gone => exact List.mem_append_right _ (List.mem_of_mem_tail hmem)

theorem Kept.emptied_iff {b : PooledBuffer} {log : PoolLog} (h : Kept b log) (n : Nat) :
    (advance b.buffer.blocks b.readPos n).1 = [] ↔ b.blocks = [] ∨ n ≠ 0 ∧ b.totalSize ≤ n := by
  have htotal : b.totalSize = (queued b.buffer.blocks b.readPos).length := h.valid.total
  have hsizes := h.valid.sizes
  have hread : b.readPos ≤ frontSize b.buffer.blocks := h.valid.read
  have hused := h.used
  have hmap : b.buffer.blocks = b.blocks.map PoolBlock.block := rfl
  rw [htotal]
  cases hblocks : b.blocks with
  | nil =>
    rw [hmap, hblocks]
    exact iff_of_true rfl (.inl rfl)
  | cons front rest =>
    rw [hblocks, List.map_cons] at hmap
    rw [hblocks] at hused
    rw [hmap] at hsizes hread ⊢
    rw [advance_nil hsizes (fun x hx => ?_) hread]
    · simp only [reduceCtorEq, false_or]
    · obtain ⟨blk, hmem, rfl⟩ := List.mem_map.mp hx
      exact hused blk hmem

theorem consumeBytes_kept {b : PooledBuffer} {log : PoolLog} (h : Kept b log) (n : Nat) :
    ∃ gone b', b.blocks = gone ++ b'.blocks ∧ b.consumeBytes n log = .ok (b', destroyAll gone log) ∧
      Kept b' (destroyAll gone log) ∧
      (b'.blocks = [] ↔ b.blocks = [] ∨ n ≠ 0 ∧ b.totalSize ≤ n) := by
  obtain ⟨gone, b', hsplit, hrun, hbuffer⟩ := consumeBytes_ok h.valid.read n log
  refine ⟨gone, b', hsplit, hrun, h.left hsplit ?_, ?_⟩
  · rw [← hbuffer]
    exact BufferBlock.consumeBytes_valid h.valid n
  · have hblocks : b'.blocks.map PoolBlock.block =
        (advance b.buffer.blocks b.readPos n).1 := by
      have hdrops := hbuffer.symm.trans (BufferBlock.consumeBytes_eq h.valid.toRepr n)
      exact congrArg BufferBlock.blocks hdrops
    rw [← List.map_eq_nil_iff (f := PoolBlock.block), hblocks]
    exact h.emptied_iff n

theorem Kept.erase_left {b : PooledBuffer} {log : PoolLog} (h : Kept b log)
    (hall : toSize len.toInt ≠ b.totalSize) (hnil : (b.buffer.erase len).blocks = []) :
    b.blocks = [] := by
  have hall' : toSize len.toInt ≠ b.buffer.totalSize := hall
  unfold BufferBlock.erase at hnil
  by_cases hout : len ≤ 0 ∨ toSize len.toInt > b.buffer.totalSize
  · simp only [hout, if_true] at hnil
    exact List.map_eq_nil_iff.mp hnil
  · simp only [hout, hall', if_false] at hnil
    rw [BufferBlock.eraseLoop_ok h.valid.sizes h.valid.read] at hnil
    rcases (h.emptied_iff _).mp hnil with hb | ⟨-, hle⟩
    · exact hb
    · have hge : toSize len.toInt ≤ b.totalSize := Nat.le_of_not_lt fun hgt => hout (.inr hgt)
      exact absurd (Nat.le_antisymm hge hle) hall

theorem erase_kept {b : PooledBuffer} {log : PoolLog} (h : Kept b log)
    (hall : toSize len.toInt ≠ b.totalSize) (grants : Nat → Bool) :
    ∃ gone b', b.blocks = gone ++ b'.blocks ∧
      b.erase grants len log = .ok (b', destroyAll gone log) ∧ Kept b' (destroyAll gone log) ∧
      (b'.blocks = [] → b.blocks = []) := by
  obtain ⟨gone, b', hsplit, hrun, hbuffer⟩ := erase_ok h.valid.read hall grants log
  refine ⟨gone, b', hsplit, hrun, h.left hsplit ?_, fun hnil => h.erase_left hall ?_⟩
  · rw [← hbuffer]
    exact (BufferBlock.erase_ok h.valid len).1
  · rw [hbuffer]
    show b'.blocks.map PoolBlock.block = []
    rw [hnil]
    rfl

end PooledBuffer

-- ---------------------------------------------------------------------------
-- Size classes
-- ---------------------------------------------------------------------------

/-- The list of the thread cache a size belongs to, or `malloc`. -/
inductive SizeClass
  | list (index : Nat)
  | malloc
  deriving DecidableEq

def sizeClass (size : Nat) : SizeClass :=
  if size > maxByte then .malloc else .list (getIndex size)

def PoolLog.Matched (log : PoolLog) : Prop :=
  ∀ ptr size, (ptr, size) ∈ log.released →
    ∃ cap, log.requests[ptr]? = some cap ∧ sizeClass size = sizeClass cap

/-- A block of `cap` bytes that is given back as one of `size` bytes goes to
`free`, or is the next one its thread gets for `cap` bytes. -/
def GoesBack (cap size : Nat) : Prop :=
  ∀ (T : Type) [DecidableEq T] (s : MemoryPool T) (t : T) (ptr : Addr),
    (maxByte < cap →
      (s.deallocateStep t ptr size).mallocs = s.mallocs.filter fun b => b.start ≠ ptr) ∧
    (cap ≤ maxByte → ptr ≠ 0 → ∀ central memory, ∃ s',
      { s.deallocateStep t ptr size with central := central }.allocateStep t cap memory = .ok s' ∧
        s'.live = ⟨ptr, cap⟩ :: s.released ptr)

theorem split_head {tc : ThreadCache} (mem : Memory)
    (hhead : tc.freeList (getIndex size) = start) :
    (tc.split mem start size).2.1.freeList (getIndex size) = start := by
  unfold ThreadCache.split
  simp only
  split
  · exact hhead
  · split
    · exact hhead
    · exact Function.update_self ..

theorem deallocate_head {T : Type} [DecidableEq T] (s : MemoryPool T) (t : T) (ptr : Addr)
    (hsize : ¬size > maxByte) :
    ((s.deallocateStep t ptr size).cache t).freeList (getIndex size) = ptr := by
  have hpush : ((s.cache t).push (getIndex size) ptr).freeList (getIndex size) = ptr :=
    Function.update_self ..
  unfold MemoryPool.deallocateStep
  simp only [hsize, if_false, Function.update_self]
  split
  · exact split_head _ hpush
  · exact hpush

theorem deallocate_live {T : Type} [DecidableEq T] (s : MemoryPool T) (t : T) (ptr : Addr)
    (size : Nat) : (s.deallocateStep t ptr size).live = s.released ptr := by
  unfold MemoryPool.deallocateStep
  split <;> rfl

theorem goesBack (hclass : sizeClass size = sizeClass cap) : GoesBack cap size := by
  intro T _ s t ptr
  unfold sizeClass at hclass
  refine ⟨fun hlarge => ?_, fun hsmall hptr central memory => ?_⟩
  · have hsize : size > maxByte := by
      by_contra hsize
      simp only [hsize, hlarge, if_true, if_false, reduceCtorEq] at hclass
    unfold MemoryPool.deallocateStep
    rw [if_pos hsize]
  · have hcap : ¬cap > maxByte := Nat.not_lt.mpr hsmall
    have hsize : ¬size > maxByte := by
      intro hsize
      simp only [hsize, hcap, if_true, if_false, reduceCtorEq] at hclass
    simp only [hsize, hcap, if_false, SizeClass.list.injEq] at hclass
    have hhead := deallocate_head s t ptr hsize
    have hone : ¬MemoryPool.atLeastOne cap > maxByte := by
      unfold MemoryPool.atLeastOne
      split
      · decide
      · exact hcap
    unfold MemoryPool.allocateStep
    rw [if_neg hone, MemoryPool.getIndex_atLeastOne, ← hclass]
    simp only [hhead, hptr, ne_eq, not_false_eq_true, if_true]
    exact ⟨_, rfl, congrArg _ (deallocate_live s t ptr size)⟩

def PoolBlock.Whole (b : PoolBlock) : Prop :=
  b.memory ≠ none → sizeClass b.block.size = sizeClass b.block.capacity

namespace PooledBuffer

open PoolBlock (destroyAll)

/-- The pool got back the memory of some blocks, and may have been asked for more. -/
structure Gives (log : PoolLog) (gone : List PoolBlock) (log' : PoolLog) : Prop where
  requests : log.requests <+: log'.requests
  released : log'.released = log.released ++ gone.filterMap PoolBlock.release

theorem Grows.gives {log log' : PoolLog} (h : Grows log log') : Gives log [] log' :=
  ⟨h.requests, h.released.trans (List.append_nil _).symm⟩

theorem destroyAll_gives (gone : List PoolBlock) (log : PoolLog) :
    Gives log gone (destroyAll gone log) := by
  rw [PoolBlock.destroyAll_eq]
  exact ⟨List.prefix_refl _, rfl⟩

theorem Gives.grows {gone : List PoolBlock} {log log' log'' : PoolLog} (h : Gives log gone log')
    (hg : Grows log' log'') : Gives log gone log'' :=
  ⟨h.requests.trans hg.requests, hg.released.trans h.released⟩

theorem Gives.matched_iff {gone : List PoolBlock} {log log' : PoolLog} (h : Gives log gone log')
    (hm : log.Matched) (howned : ∀ blk ∈ gone, ∀ ptr, blk.memory = some ptr →
      log.requests[ptr]? = some blk.block.capacity) :
    log'.Matched ↔ ∀ blk ∈ gone, blk.Whole := by
  unfold PoolLog.Matched
  rw [h.released]
  constructor
  · intro hall blk hmem hptr
    obtain ⟨ptr, hptr⟩ := Option.ne_none_iff_exists'.mp hptr
    have hrelease : (ptr, blk.block.size) ∈ log.released ++ gone.filterMap PoolBlock.release := by
      refine List.mem_append_right _ (List.mem_filterMap.mpr ⟨blk, hmem, ?_⟩)
      rw [PoolBlock.release, hptr]
      rfl
    obtain ⟨cap, hcap, hclass⟩ := hall ptr blk.block.size hrelease
    have hsame := hcap.symm.trans (getElem_grown h.requests (howned blk hmem ptr hptr))
    rw [hclass, Option.some.inj hsame]
  · intro hwhole ptr size hmem
    rcases List.mem_append.mp hmem with hmem | hmem
    · obtain ⟨cap, hcap, hclass⟩ := hm ptr size hmem
      exact ⟨cap, getElem_grown h.requests hcap, hclass⟩
    · obtain ⟨blk, hblk, hrelease⟩ := List.mem_filterMap.mp hmem
      obtain ⟨ptr', hptr, heq⟩ := Option.map_eq_some_iff.mp hrelease
      cases heq
      refine ⟨blk.block.capacity, getElem_grown h.requests (howned blk hblk ptr hptr),
        hwhole blk hblk ?_⟩
      rw [hptr]
      nofun

/-- The last block, which is filled up to `writePos`, would go back to its class. -/
def LastWhole (b : PooledBuffer) : Prop :=
  ∀ last ∈ b.blocks.getLast?, last.memory ≠ none →
    sizeClass b.writePos = sizeClass last.block.capacity

instance (b : PooledBuffer) : Decidable b.LastWhole :=
  inferInstanceAs (Decidable (∀ last ∈ b.blocks.getLast?, last.memory ≠ none →
    sizeClass b.writePos = sizeClass last.block.capacity))

theorem Kept.whole {b : PooledBuffer} {log : PoolLog} (h : Kept b log)
    (hmem : blk ∈ b.blocks.dropLast) : blk.Whole := by
  intro _
  rw [h.full blk hmem]

theorem Kept.all_whole_iff {b : PooledBuffer} {log : PoolLog} (h : Kept b log) :
    (∀ blk ∈ b.blocks, blk.Whole) ↔ b.LastWhole := by
  have hwrite : ∀ last, b.blocks.getLast? = some last → b.writePos = last.block.size :=
    fun last hlast => h.valid.write _ (last_block hlast)
  constructor
  · intro hall last hlast hptr
    rw [hwrite last hlast]
    exact hall last (List.mem_of_getLast? hlast) hptr
  · intro hlast blk hmem
    cases hl : b.blocks.getLast? with
    | none =>
      rw [List.getLast?_eq_none_iff.mp hl] at hmem
      cases hmem
    | some last =>
      obtain ⟨init, hinit⟩ := List.getLast?_eq_some_iff.mp hl
      rw [hinit] at hmem
      rcases List.mem_append.mp hmem with hmem | hmem
      · exact h.whole (by rwa [hinit, List.dropLast_concat])
      · rw [List.mem_singleton.mp hmem]
        intro hptr
        rw [← hwrite last hl]
        exact hlast last hl hptr

/-- Blocks that go while one stays are all full. -/
theorem Kept.front_whole {b : PooledBuffer} {log : PoolLog} {left : List PoolBlock} (h : Kept b log)
    (hsplit : b.blocks = gone ++ left) (hleft : left ≠ []) : ∀ blk ∈ gone, blk.Whole := by
  intro blk hmem
  refine h.whole ?_
  rw [hsplit, List.dropLast_append_of_ne_nil hleft]
  exact List.mem_append_left _ hmem

-- ---------------------------------------------------------------------------
-- Operations
-- ---------------------------------------------------------------------------

/-- An operation that keeps the buffer in order, and gives back blocks that go to
their classes exactly under a condition. -/
def Ends (b : PooledBuffer) (log : PoolLog) (b' : PooledBuffer) (log' : PoolLog) (c : Prop) :
    Prop :=
  ∃ gone, Kept b' log' ∧ Gives log gone log' ∧ (∀ blk ∈ gone, blk ∈ b.blocks) ∧
    ((∀ blk ∈ gone, blk.Whole) ↔ c)

theorem Grows.ends {b b' : PooledBuffer} {log log' : PoolLog} {c : Prop} (h : Kept b' log')
    (hg : Grows log log') (hc : c) : Ends b log b' log' c :=
  ⟨[], h, hg.gives, nofun, iff_of_true nofun hc⟩

theorem consumeBytes_ends {b : PooledBuffer} {log : PoolLog} (h : Kept b log) (n : Nat) :
    ∃ b' log', b.consumeBytes n log = .ok (b', log') ∧
      Ends b log b' log' (n ≠ 0 → b.totalSize ≤ n → b.LastWhole) := by
  obtain ⟨gone, b', hsplit, hrun, hkept, hnil⟩ := consumeBytes_kept h n
  refine ⟨b', _, hrun, gone, hkept, destroyAll_gives gone log,
    fun blk hmem => hsplit ▸ List.mem_append_left _ hmem, ?_⟩
  by_cases hleft : b'.blocks = []
  · rw [hleft, List.append_nil] at hsplit
    rw [← hsplit, h.all_whole_iff]
    refine ⟨fun hlast _ _ => hlast, fun hc => ?_⟩
    rcases hnil.mp hleft with hb | ⟨hn, hle⟩
    · intro last hlast
      rw [hb] at hlast
      cases hlast
    · exact hc hn hle
  · refine iff_of_true (h.front_whole hsplit hleft) fun hn hle => ?_
    exact absurd (hnil.mpr (.inr ⟨hn, hle⟩)) hleft

theorem clear_ends {b : PooledBuffer} {log : PoolLog} (h : Kept b log) (grants : Nat → Bool) :
    ∃ b' log', b.clear grants log = (b', log') ∧ Ends b log b' log' b.LastWhole := by
  obtain ⟨b', log', hrun, hkept, hg⟩ := construct_kept grants (destroyAll b.blocks log)
  exact ⟨b', log', hrun, b.blocks, hkept, (destroyAll_gives b.blocks log).grows hg,
    fun _ hmem => hmem, h.all_whole_iff⟩

theorem erase_ends {b : PooledBuffer} {log : PoolLog} (h : Kept b log) (len : Int32)
    (grants : Nat → Bool) :
    ∃ b' log', b.erase grants len log = .ok (b', log') ∧
      Ends b log b' log' (0 < len.toInt → toSize len.toInt = b.totalSize → b.LastWhole) := by
  by_cases hall : toSize len.toInt = b.totalSize
  · by_cases hneg : len ≤ 0
    · refine ⟨b, log, ?_, Grows.ends h (.refl log) fun hpos => ?_⟩
      · unfold erase
        simp only [hneg, true_or, if_true]
      · rw [Int32.le_iff_toInt_le] at hneg
        exact absurd hpos (by simpa using hneg)
    · obtain ⟨b', log', hrun, hends⟩ := clear_ends h grants
      refine ⟨b', log', ?_, ?_⟩
      · unfold erase
        simp only [hneg, hall, gt_iff_lt, Nat.lt_irrefl, or_self, if_false, if_true, hrun]
      · obtain ⟨hpos, -⟩ := BufferBlock.toSize_int32 hneg
        obtain ⟨gone, hkept, hgives, hsub, hiff⟩ := hends
        exact ⟨gone, hkept, hgives, hsub, hiff.trans ⟨fun hlast _ _ => hlast, fun hc => hc hpos hall⟩⟩
  · obtain ⟨gone, b', hsplit, hrun, hkept, hnil⟩ := erase_kept h hall grants
    refine ⟨b', _, hrun, gone, hkept, destroyAll_gives gone log,
      fun blk hmem => hsplit ▸ List.mem_append_left _ hmem, iff_of_true ?_ fun _ heq => absurd heq hall⟩
    by_cases hleft : b'.blocks = []
    · rw [hnil hleft] at hsplit
      rw [(List.append_eq_nil_iff.mp hsplit.symm).1]
      nofun
    · exact h.front_whole hsplit hleft

end PooledBuffer

namespace BufferHeap

open PooledBuffer (Ends LastWhole)

variable {grants : Nat → Bool}

structure Kept (s : BufferHeap) : Prop where
  buffers : ∀ i b, s.buffers i = some b → b.Kept s.log
  matched : s.log.Matched

/-- What is left of a buffer's blocks is not given back with a smaller size. -/
def Returns (s : BufferHeap) : BufferEvent → Prop
  | .construct _ | .append _ _ => True
  | .consumeBytes i n => ∀ b ∈ s.buffers i, n ≠ 0 → b.totalSize ≤ n → b.LastWhole
  | .erase i len => ∀ b ∈ s.buffers i, 0 < len.toInt → toSize len.toInt = b.totalSize → b.LastWhole
  | .clear i | .destruct i => ∀ b ∈ s.buffers i, b.LastWhole

theorem Kept.change {s : BufferHeap} {log' : PoolLog} (h : s.Kept)
    (hb : ∀ b' ∈ entry, PooledBuffer.Kept b' log') (hg : s.log.requests <+: log'.requests) (j : Nat)
    (b : PooledBuffer) (hj : Function.update s.buffers i entry j = some b) :
    b.Kept log' := by
  by_cases hi : j = i
  · subst hi
    rw [Function.update_self] at hj
    exact hb b hj
  · rw [Function.update_of_ne hi] at hj
    exact (h.buffers j b hj).mono hg

theorem Kept.update {s s' : BufferHeap} {c : PooledBuffer → Prop} (h : s.Kept)
    (hs : s.update i op = .ok s') (hop : ∀ b b' log', b.Kept s.log → op b s.log = .ok (b', log') →
      Ends b s.log b' log' (c b)) :
    (∀ j b, s'.buffers j = some b → b.Kept s'.log) ∧
      (s'.log.Matched ↔ ∀ b ∈ s.buffers i, c b) := by
  cases hb : s.buffers i with
  | none =>
    simp only [BufferHeap.update, hb] at hs
    obtain rfl := Except.ok.inj hs
    exact ⟨h.buffers, iff_of_true h.matched nofun⟩
  | some b =>
    simp only [BufferHeap.update, hb] at hs
    obtain ⟨⟨b', log'⟩, hrun, hs⟩ := bind_ok hs
    cases hs
    have hbuffer := h.buffers i b hb
    obtain ⟨gone, hkept, hgives, hsub, hiff⟩ := hop b b' log' hbuffer hrun
    refine ⟨h.change (fun b'' hb'' => ?_) hgives.requests, ?_⟩
    · obtain rfl := Option.some.inj hb''
      exact hkept
    · rw [hgives.matched_iff h.matched fun blk hmem => hbuffer.owned blk (hsub blk hmem), hiff]
      simp only [Option.mem_def, Option.some.injEq, forall_eq']

theorem Kept.step {s s' : BufferHeap} (h : s.Kept) (hs : s.step grants e = .ok s') :
    (∀ j b, s'.buffers j = some b → b.Kept s'.log) ∧ (s'.log.Matched ↔ s.Returns e) := by
  cases e with
  | construct i =>
    obtain ⟨b, log', hrun, hkept, hg⟩ := PooledBuffer.construct_kept grants s.log
    simp only [BufferHeap.step, hrun] at hs
    cases hs
    refine ⟨h.change (fun b' hb' => ?_) hg.requests, ?_⟩
    · obtain rfl := Option.some.inj hb'
      exact hkept
    · exact (hg.gives.matched_iff h.matched (by simp)).trans (iff_of_true (by simp) trivial)
  | append i data =>
    obtain ⟨hbuffers, hiff⟩ := h.update (c := fun _ => True) hs fun b b' log' hb hrun => by
      obtain ⟨hkept, hg⟩ := PooledBuffer.append_kept hb hrun
      exact hg.ends hkept trivial
    exact ⟨hbuffers, hiff.trans (iff_of_true (fun _ _ => trivial) trivial)⟩
  | consumeBytes i n =>
    refine h.update hs fun b b' log' hb hrun => ?_
    obtain ⟨b'', log'', hrun', hends⟩ := PooledBuffer.consumeBytes_ends hb n
    cases hrun.symm.trans hrun'
    exact hends
  | erase i len =>
    refine h.update hs fun b b' log' hb hrun => ?_
    obtain ⟨b'', log'', hrun', hends⟩ := PooledBuffer.erase_ends hb len grants
    cases hrun.symm.trans hrun'
    exact hends
  | clear i =>
    have hclear : s.update i (fun b log => .ok (b.clear grants log)) = .ok s' := hs
    refine h.update hclear fun b b' log' hb hrun => ?_
    obtain ⟨b'', log'', hrun', hends⟩ := PooledBuffer.clear_ends hb grants
    cases (Except.ok.inj hrun).symm.trans hrun'
    exact hends
  | destruct i =>
    simp only [BufferHeap.step] at hs
    cases hb : s.buffers i with
    | none =>
      simp only [hb] at hs
      obtain rfl := Except.ok.inj hs
      exact ⟨h.buffers, iff_of_true h.matched (by simp [Returns, hb])⟩
    | some b =>
      simp only [hb] at hs
      cases hs
      have hgives := PooledBuffer.destroyAll_gives b.blocks s.log
      refine ⟨h.change (by rintro _ ⟨⟩) hgives.requests, ?_⟩
      rw [hgives.matched_iff h.matched (h.buffers i b hb).owned, (h.buffers i b hb).all_whole_iff]
      simp only [Returns, hb, Option.mem_def, Option.some.injEq, forall_eq']

theorem new_kept : new.Kept := ⟨nofun, nofun⟩

theorem kept_of_reach (h : Lib.Reach (step grants) (fun s e => s.Admits e ∧ s.Returns e) new s) :
    s.Kept := by
  refine h.invariant (fun s e s' hk hm hs => ?_) new_kept
  obtain ⟨hbuffers, hmatched⟩ := hk.step hs
  exact ⟨hbuffers, hmatched.mpr hm.2⟩

/-- As long as a last block is only destroyed when its fill level is of the class of
its capacity, all memory returns to where it was allocated from; the first
other one does not. -/
theorem memory_returns_iff (grants : Nat → Bool) (s : BufferHeap)
    (h : Lib.Reach (step grants) (fun s e => s.Admits e ∧ s.Returns e) new s) :
    s.log.Matched ∧
    (∀ ptr size, (ptr, size) ∈ s.log.released →
      ∃ cap, s.log.requests[ptr]? = some cap ∧ GoesBack cap size) ∧
    ∀ e s', s.Admits e → s.step grants e = .ok s' → (s'.log.Matched ↔ s.Returns e) := by
  have hkept := kept_of_reach h
  refine ⟨hkept.matched, fun ptr size hmem => ?_, fun e s' _ hs => (hkept.step hs).2⟩
  obtain ⟨cap, hcap, hclass⟩ := hkept.matched ptr size hmem
  exact ⟨cap, hcap, goesBack hclass⟩

instance (s : BufferHeap) : (e : BufferEvent) → Decidable (s.Admits e)
  | .construct i => inferInstanceAs (Decidable (s.buffers i = none))
  | .append .. | .consumeBytes .. | .erase .. | .clear _ | .destruct _ => .isTrue trivial

instance (s : BufferHeap) : (e : BufferEvent) → Decidable (s.Returns e)
  | .construct _ | .append .. => .isTrue trivial
  | .consumeBytes i n => inferInstanceAs (Decidable (∀ b ∈ s.buffers i, n ≠ 0 → b.totalSize ≤ n →
      b.LastWhole))
  | .erase i len => inferInstanceAs (Decidable (∀ b ∈ s.buffers i, 0 < len.toInt →
      toSize len.toInt = b.totalSize → b.LastWhole))
  | .clear i | .destruct i => inferInstanceAs (Decidable (∀ b ∈ s.buffers i, b.LastWhole))

/-- A buffer that is full when it is destroyed. -/
theorem memory_returns_iff_example : ∃ s,
    Lib.Reach (step fun _ => true) (fun s e => s.Admits e ∧ s.Returns e) new s ∧
    s.log.released = [(0, 2048)] ∧ s.log.Matched := by
  have hrun : (Lib.checked (step fun _ => true) (fun s e => s.Admits e ∧ s.Returns e) new
      [.construct 0, .append 0 (List.replicate 2048 65), .destruct 0]).map
      (fun s => s.log.released) = some [(0, 2048)] := by
    decide +kernel
  obtain ⟨s, hs, hreleased⟩ := Option.map_eq_some_iff.mp hrun
  have hreach := Lib.Reach.start.checked _ (fun s e he => of_decide_eq_true he) hs
  exact ⟨s, hreach, hreleased, (memory_returns_iff _ s hreach).1⟩

/-- A buffer that holds 70 of its 2048 bytes. -/
theorem fill_level_given_back : ∃ s,
    Lib.Reach (step fun _ => true) Admits new s ∧ s.log.requests = [2048] ∧
    s.log.released = [(0, 70)] ∧ ¬s.log.Matched := by
  have hrun : (Lib.checked (step fun _ => true) (fun s e => s.Admits e) new
      [.construct 0, .append 0 (List.replicate 70 65), .destruct 0]).map
      (fun s => (s.log.requests, s.log.released)) = some ([2048], [(0, 70)]) := by
    decide +kernel
  obtain ⟨s, hs, hlog⟩ := Option.map_eq_some_iff.mp hrun
  obtain ⟨hrequests, hreleased⟩ := Prod.mk.inj hlog
  have hreach := Lib.Reach.start.checked _ (fun s e he => of_decide_eq_true he) hs
  refine ⟨s, hreach, hrequests, hreleased, fun hmatched => ?_⟩
  obtain ⟨cap, hcap, hclass⟩ := hmatched 0 70 (by rw [hreleased]; exact List.mem_cons_self)
  rw [hrequests] at hcap
  cases hcap
  exact absurd hclass (by decide)

end BufferHeap

end MudouHttp
