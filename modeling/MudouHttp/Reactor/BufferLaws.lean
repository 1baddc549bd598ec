import MudouHttp.Reactor.Buffer
import MudouHttp.Lib.Refine

/-!
# What the operations of a BufferBlock do

`content` is what is left to read: the front block from `readPos` on, then
the later blocks. A well-formed buffer (`Repr`) counts it right; one that is
also written at the end of its last block (`Valid`) can be appended to. Each
loop has one lemma, by induction on the blocks it walks; each operation has
one lemma about `content`.
-/

namespace MudouHttp

theorem Block.bytes_length {blk : Block} (h : blk.size ≤ blk.capacity) :
    blk.bytes.length = blk.size := by
  simp [Block.bytes, blk.room, h]

theorem Block.read_ok {blk : Block} {pos n : Nat} (h : blk.size ≤ blk.capacity)
    (hn : pos + n ≤ blk.size) : blk.read pos n = .ok ((blk.bytes.drop pos).take n) := by
  rw [Block.read, if_pos (by omega), Block.bytes, List.drop_take, List.take_take,
    Nat.min_eq_left (by omega)]

theorem Block.bytes_new : (Block.new cap).bytes = [] := by
  simp [Block.bytes, Block.new]

theorem Block.write_ok {blk : Block} (h : blk.size + src.length ≤ blk.capacity) :
    ∃ blk', blk.write blk.size src = .ok blk' ∧ blk'.capacity = blk.capacity ∧
      ({ blk' with size := blk.size + src.length } : Block).bytes = blk.bytes ++ src := by
  refine ⟨_, dif_pos h, rfl, ?_⟩
  have hl : (blk.data.take blk.size ++ src).length = blk.size + src.length := by
    simp [blk.room]
    omega
  show (blk.data.take blk.size ++ src ++ _).take (blk.size + src.length) = _
  rw [← hl, List.take_left]
  rfl

namespace BufferBlock

/-- The bytes from `pos` of the first block to the end of the last. -/
def queued : List Block → Nat → Bytes
  | [], _ => []
  | front :: rest, pos => front.bytes.drop pos ++ rest.flatMap Block.bytes

def content (b : BufferBlock) : Bytes := queued b.blocks b.readPos

def frontSize : List Block → Nat
  | [] => 0
  | front :: _ => front.size

def Fits (blks : List Block) : Prop := ∀ blk ∈ blks, blk.size ≤ blk.capacity

structure Repr (b : BufferBlock) : Prop where
  sizes : Fits b.blocks
  read : b.readPos ≤ frontSize b.blocks
  total : b.totalSize = b.content.length

/-- The next byte is written behind the last one. -/
structure Valid (b : BufferBlock) : Prop extends Repr b where
  write : ∀ blk, b.blocks.getLast? = some blk → b.writePos = blk.size

theorem Fits.tail (h : Fits (blk :: rest)) : Fits rest :=
  fun x hx => h x (List.mem_cons_of_mem _ hx)

theorem Fits.suffix (h : Fits blks) (hs : left <:+ blks) : Fits left :=
  fun x hx => h x (hs.subset hx)

theorem queued_zero (blks : List Block) : queued blks 0 = blks.flatMap Block.bytes := by
  cases blks <;> simp [queued]

theorem queued_cons (blk : Block) (rest : List Block) (pos : Nat) :
    queued (blk :: rest) pos = blk.bytes.drop pos ++ queued rest 0 := by
  rw [queued_zero]
  rfl

theorem queued_drop {blk : Block} {rest : List Block} {pos n : Nat} (hf : Fits (blk :: rest))
    (hn : pos + n ≤ blk.size) :
    (queued (blk :: rest) pos).drop n = queued (blk :: rest) (pos + n) := by
  have hl := Block.bytes_length (hf blk (by simp))
  simp only [queued]
  rw [List.drop_append_of_le_length (by rw [List.length_drop]; omega), List.drop_drop]

theorem queued_drop_front {blk : Block} {rest : List Block} {pos n : Nat}
    (hf : Fits (blk :: rest)) (hp : pos ≤ blk.size) (hn : blk.size - pos ≤ n) :
    (queued (blk :: rest) pos).drop n = (queued rest 0).drop (n - (blk.size - pos)) := by
  have hl := Block.bytes_length (hf blk (by simp))
  rw [queued_cons, List.drop_append, List.length_drop, hl,
    List.drop_of_length_le (by rw [List.length_drop]; omega), List.nil_append]

theorem queued_take_front {blk : Block} {rest : List Block} {pos n : Nat}
    (hf : Fits (blk :: rest)) (hp : pos ≤ blk.size) (hn : blk.size - pos ≤ n) :
    (queued (blk :: rest) pos).take n =
      blk.bytes.drop pos ++ (queued rest 0).take (n - (blk.size - pos)) := by
  have hl := Block.bytes_length (hf blk (by simp))
  rw [queued_cons, List.take_append, List.length_drop, hl,
    List.take_of_length_le (by rw [List.length_drop]; omega)]

theorem queued_take {blk : Block} {rest : List Block} {pos n : Nat}
    (hf : Fits (blk :: rest)) (hn : pos + n ≤ blk.size) :
    (queued (blk :: rest) pos).take n = (blk.bytes.drop pos).take n := by
  have hl := Block.bytes_length (hf blk (by simp))
  rw [queued_cons, List.take_append_of_le_length (by rw [List.length_drop]; omega)]

theorem queued_length {blk : Block} {rest : List Block} {pos : Nat} (hf : Fits (blk :: rest)) :
    (queued (blk :: rest) pos).length = (blk.size - pos) + (queued rest 0).length := by
  have hl := Block.bytes_length (hf blk (by simp))
  rw [queued_cons, List.length_append, List.length_drop, hl]

-- ---------------------------------------------------------------------------
-- Taking bytes from the front
-- ---------------------------------------------------------------------------

/-- The blocks and the read position once `n` bytes are taken off. Blocks that
are read to their end are gone; a block with bytes left stays. -/
def advance : List Block → Nat → Nat → List Block × Nat
  | [], pos, _ => ([], pos)
  | blk :: rest, pos, n =>
    if n = 0 then (blk :: rest, pos)
    else if blk.size - pos ≤ n then advance rest 0 (n - (blk.size - pos))
    else (blk :: rest, pos + n)

theorem advance_zero (blks : List Block) (pos : Nat) : advance blks pos 0 = (blks, pos) := by
  cases blks <;> simp [advance]

theorem advance_suffix (blks : List Block) (pos n : Nat) : (advance blks pos n).1 <:+ blks := by
  induction blks generalizing pos n with
  | nil => exact List.suffix_refl _
  | cons blk rest ih =>
    unfold advance
    split
    · exact List.suffix_refl _
    · split
      · exact (ih _ _).trans (List.suffix_cons _ _)
      · exact List.suffix_refl _

theorem advance_read (hp : pos ≤ frontSize blks) :
    (advance blks pos n).2 ≤ frontSize (advance blks pos n).1 := by
  induction blks generalizing pos n with
  | nil => exact hp
  | cons blk rest ih =>
    unfold advance
    split
    · exact hp
    · split
      · exact ih (Nat.zero_le _)
      · show pos + n ≤ blk.size
        omega

theorem advance_queued (hf : Fits blks) (hp : pos ≤ frontSize blks) :
    queued (advance blks pos n).1 (advance blks pos n).2 = (queued blks pos).drop n := by
  induction blks generalizing pos n with
  | nil => simp [advance, queued]
  | cons blk rest ih =>
    replace hp : pos ≤ blk.size := hp
    unfold advance
    split
    · subst n
      rfl
    · split
      · rename_i hall
        rw [ih hf.tail (Nat.zero_le _), queued_drop_front hf hp hall]
      · rename_i hsome
        exact (queued_drop hf (by omega)).symm

theorem advance_add (blks : List Block) (pos n k : Nat) :
    advance (advance blks pos n).1 (advance blks pos n).2 k = advance blks pos (n + k) := by
  induction blks generalizing pos n with
  | nil => rfl
  | cons blk rest ih =>
    by_cases hn : n = 0
    · rw [hn, advance_zero, Nat.zero_add]
    · by_cases hall : blk.size - pos ≤ n
      · have hnk : n + k - (blk.size - pos) = n - (blk.size - pos) + k := by omega
        simp only [advance, hn, if_false, hall, if_true, ih, Nat.add_eq_zero_iff, false_and,
          Nat.le_add_right_of_le hall, hnk]
      · by_cases hk : k = 0
        · rw [hk, advance_zero, Nat.add_zero]
        · have hpos : pos + n + k = pos + (n + k) := by omega
          have hend : blk.size - (pos + n) ≤ k ↔ blk.size - pos ≤ n + k := by omega
          have hrest : k - (blk.size - (pos + n)) = n + k - (blk.size - pos) := by omega
          simp only [advance, hn, hk, if_false, hall, Nat.add_eq_zero_iff, false_and, hpos, hend,
            hrest]

theorem consumeLoop_ok (hf : Fits blks) (hp : pos ≤ frontSize blks) (hc : consumed ≤ size) :
    consumeLoop size blks pos consumed =
      ((advance blks pos (size - consumed)).1, (advance blks pos (size - consumed)).2,
        consumed + min (size - consumed) (queued blks pos).length) := by
  induction blks generalizing pos consumed with
  | nil => simp [consumeLoop, advance, queued]
  | cons blk rest ih =>
    replace hp : pos ≤ blk.size := hp
    rw [queued_length hf, consumeLoop, sizeSub_of_le hp]
    by_cases hlt : consumed < size
    · have hn : size - consumed ≠ 0 := by omega
      simp only [hlt, if_true, advance, hn, if_false]
      by_cases hall : blk.size - pos ≤ size - consumed
      · -- the block is read to its end and erased
        have hadv : size - (consumed + (blk.size - pos)) = size - consumed - (blk.size - pos) := by
          omega
        rw [Nat.min_eq_right hall, if_pos (by omega), if_pos hall,
          ih hf.tail (Nat.zero_le _) (by omega), hadv]
        simp only [Prod.mk.injEq, true_and]
        omega
      · rw [Nat.min_eq_left (by omega), if_neg (by omega), if_neg hall]
        simp only [Prod.mk.injEq, true_and]
        omega
    · have hn : size - consumed = 0 := by omega
      simp only [hlt, if_false, hn, advance, if_true]
      simp

theorem readLoop_ok (hf : Fits blks) (hp : pos ≤ frontSize blks)
    (hn : n - copied.length ≤ (queued blks pos).length) (hc : copied.length ≤ n) :
    readLoop n blks pos copied =
      .ok ((advance blks pos (n - copied.length)).1, (advance blks pos (n - copied.length)).2,
        copied ++ (queued blks pos).take (n - copied.length)) := by
  induction blks generalizing pos copied with
  | nil =>
    have h0 : n - copied.length = 0 := by simpa [queued] using hn
    rw [readLoop, if_neg (by omega)]
    simp [queued, advance]
  | cons blk rest ih =>
    have hl := Block.bytes_length (hf blk (by simp))
    replace hp : pos ≤ blk.size := hp
    rw [queued_length hf] at hn
    rw [readLoop, sizeSub_of_le hp]
    by_cases hlt : copied.length < n
    · have hm : n - copied.length ≠ 0 := by omega
      simp only [hlt, if_true, advance, hm, if_false]
      by_cases hall : blk.size - pos ≤ n - copied.length
      · have hlen : (copied ++ (blk.bytes.drop pos).take (blk.size - pos)).length =
            copied.length + (blk.size - pos) := by simp [hl]
        have hrest : n - (copied ++ (blk.bytes.drop pos).take (blk.size - pos)).length ≤
            (queued rest 0).length := by omega
        rw [Nat.min_eq_right hall, Block.read_ok (hf blk (by simp)) (by omega)]
        simp only [bind, Except.bind]
        rw [if_pos (by omega), if_pos hall, ih hf.tail (Nat.zero_le _) hrest (by omega), hlen,
          queued_take_front hf hp hall, List.append_assoc,
          List.take_of_length_le (l := blk.bytes.drop pos) (by simp [hl]), Nat.sub_sub]
      · rw [Nat.min_eq_left (by omega), Block.read_ok (hf blk (by simp)) (by omega)]
        simp only [bind, Except.bind]
        rw [if_neg (by omega), if_neg hall, queued_take hf (by omega)]
    · have hm : n - copied.length = 0 := by omega
      simp only [hlt, if_false, hm, advance, if_true]
      simp

theorem eraseLoop_ok (hf : Fits blks) (hp : pos ≤ frontSize blks) :
    eraseLoop blks pos length = advance blks pos length := by
  induction blks generalizing pos length with
  | nil => rfl
  | cons blk rest ih =>
    replace hp : pos ≤ blk.size := hp
    rw [eraseLoop, advance, sizeSub_of_le hp]
    by_cases h0 : length = 0
    · simp [h0]
    · simp only [h0, if_false, gt_iff_lt, Nat.pos_of_ne_zero h0, if_true, ih hf.tail (Nat.zero_le _)]

theorem peekLoop_ok (hf : Fits blks) (hp : pos ≤ frontSize blks) :
    peekLoop n blks pos copied = .ok (copied ++ (queued blks pos).take (n - copied.length)) := by
  induction blks generalizing pos copied with
  | nil => simp [peekLoop, queued]
  | cons blk rest ih =>
    have hl := Block.bytes_length (hf blk (by simp))
    replace hp : pos ≤ blk.size := hp
    rw [peekLoop, sizeSub_of_le hp]
    by_cases hge : copied.length ≥ n
    · have h0 : n - copied.length = 0 := by omega
      simp [hge, h0]
    · simp only [hge, if_false]
      rw [Block.read_ok (hf blk (by simp)) (by omega)]
      simp only [bind, Except.bind]
      rw [ih hf.tail (Nat.zero_le _)]
      by_cases hall : blk.size - pos ≤ n - copied.length
      · rw [queued_take_front hf hp hall, Nat.min_eq_right hall,
          List.take_of_length_le (l := blk.bytes.drop pos) (by simp [hl])]
        simp only [List.length_append, List.length_drop, hl, List.append_assoc, Nat.sub_sub]
      · rw [queued_take hf (by omega), Nat.min_eq_left (by omega)]
        have h0 : n - (copied.length + min (n - copied.length) (blk.size - pos)) = 0 := by omega
        simp [hl, h0]

def drops (b : BufferBlock) (n check : Nat) : BufferBlock :=
  { b with
    blocks := (advance b.blocks b.readPos n).1
    readPos := (advance b.blocks b.readPos n).2
    totalSize := b.totalSize - min n b.content.length
    checkPos := check }

theorem drops_content {b : BufferBlock} (hr : Repr b) :
    (b.drops n check).content = b.content.drop n := advance_queued hr.sizes hr.read

theorem drops_repr {b : BufferBlock} (hr : Repr b) : Repr (b.drops n check) := by
  refine ⟨hr.sizes.suffix (advance_suffix _ _ _), advance_read hr.read, ?_⟩
  have hl := hr.total
  rw [drops_content hr, List.length_drop]
  show b.totalSize - _ = _
  omega

theorem drops_valid {b : BufferBlock} (hv : Valid b) : Valid (b.drops n check) := by
  refine ⟨drops_repr hv.toRepr, fun blk hb => hv.write blk ?_⟩
  obtain ⟨gone, hg⟩ := advance_suffix b.blocks b.readPos n
  rw [← hg, List.getLast?_append, show (advance b.blocks b.readPos n).1.getLast? = some blk from hb]
  rfl

theorem drops_zero (b : BufferBlock) : b.drops 0 b.checkPos = b := by
  simp [drops, advance_zero]

theorem consumeBytes_eq {b : BufferBlock} (hr : Repr b) (n : Nat) :
    b.consumeBytes n =
      b.drops n (if n = 0 then b.checkPos else (advance b.blocks b.readPos n).2) := by
  rw [consumeBytes, consumeLoop_ok hr.sizes hr.read (Nat.zero_le n)]
  by_cases h0 : n = 0
  · subst h0
    exact (drops_zero b).symm
  · have hc : min n (queued b.blocks b.readPos).length ≤ b.totalSize := by
      rw [hr.total]
      exact Nat.min_le_right _ _
    simp only [h0, if_false, Nat.zero_add, Nat.sub_zero, sizeSub_of_le hc]
    rfl

theorem consumeBytes_repr {b : BufferBlock} (hr : Repr b) (n : Nat) : Repr (b.consumeBytes n) :=
  consumeBytes_eq hr n ▸ drops_repr hr

theorem consumeBytes_valid {b : BufferBlock} (hv : Valid b) (n : Nat) : Valid (b.consumeBytes n) :=
  consumeBytes_eq hv.toRepr n ▸ drops_valid hv

theorem consumeBytes_content {b : BufferBlock} (hr : Repr b) (n : Nat) :
    (b.consumeBytes n).content = b.content.drop n := by
  rw [consumeBytes_eq hr, drops_content hr]

theorem consumeBytes_add {b : BufferBlock} (hr : Repr b) (n m : Nat) :
    (b.consumeBytes n).consumeBytes m = b.consumeBytes (n + m) := by
  have hl : b.totalSize - min n b.content.length - min m (b.content.length - n) =
      b.totalSize - min (n + m) b.content.length := by
    have := hr.total
    omega
  rw [consumeBytes_eq (consumeBytes_repr hr n), consumeBytes_eq hr, consumeBytes_eq hr]
  simp only [drops, advance_add, BufferBlock.mk.injEq, true_and]
  refine ⟨?_, ?_⟩
  · have hc : (b.drops n (if n = 0 then b.checkPos
        else (advance b.blocks b.readPos n).2)).content.length = b.content.length - n := by
      rw [drops_content hr, List.length_drop]
    exact (congrArg (fun l => b.totalSize - min n b.content.length - min m l) hc).trans hl
  · rcases Nat.eq_zero_or_pos m with rfl | hm
    · simp
    · have hm0 : m ≠ 0 := Nat.ne_of_gt hm
      simp [hm0]

theorem queued_length_le (hf : Fits blks) (pos : Nat) :
    (queued blks pos).length ≤ (blks.map Block.capacity).sum := by
  induction blks generalizing pos with
  | nil => exact Nat.le_refl 0
  | cons blk rest ih =>
    have hrest := ih hf.tail 0
    have hblk := hf blk List.mem_cons_self
    rw [queued_length hf, List.map_cons, List.sum_cons]
    omega

theorem readBytes_ok {b : BufferBlock} (hr : Repr b) (hn : n ≤ b.content.length) :
    ∃ check, b.readBytes n = .ok (b.drops n check, b.content.take n) := by
  rw [readBytes]
  by_cases h0 : n = 0
  · subst h0
    exact ⟨b.checkPos, by simp [drops_zero]⟩
  · have hc : n ≤ b.totalSize := hr.total ▸ hn
    rw [readLoop_ok hr.sizes hr.read (show n - ([] : Bytes).length ≤ _ from hn) (Nat.zero_le n)]
    refine ⟨(advance b.blocks b.readPos n).2, ?_⟩
    simp only [h0, if_false, bind, Except.bind, pure, Except.pure, sizeSub_of_le hc, drops,
      Nat.min_eq_left hn]
    rfl

theorem peekFromBlock_ok {b : BufferBlock} (hr : Repr b) (n : Nat) :
    b.peekFromBlock n = .ok (if n ≤ b.content.length then b.content.take n else []) := by
  rw [peekFromBlock, readableBytes, hr.total]
  by_cases h0 : n = 0
  · subst h0
    simp
  · by_cases hlt : b.content.length < n
    · simp [h0, hlt, Nat.not_le.mpr hlt]
    · simp only [h0, hlt, if_false, Nat.not_lt.mp hlt, if_true]
      rw [peekLoop_ok hr.sizes hr.read]
      rfl

theorem bufferToString_ok {b : BufferBlock} (hr : Repr b) :
    b.bufferToString = .ok b.content := by
  rw [bufferToString, readableBytes, hr.total, peekFromBlock_ok hr]
  simp [bind, Except.bind, pure, Except.pure]

theorem toSize_int32 {len : Int32} (h : ¬len ≤ 0) :
    0 < len.toInt ∧ (toSize len.toInt : Int) = len.toInt := by
  have h0 : 0 < len.toInt := by
    rw [Int32.not_le, Int32.lt_iff_toInt_lt] at h
    simpa using h
  have h1 := Int32.toInt_lt len
  refine ⟨h0, ?_⟩
  unfold toSize
  omega

theorem fresh_valid : Valid fresh := by
  refine ⟨⟨?_, Nat.le_refl 0, ?_⟩, ?_⟩
  · intro x hx
    rw [List.mem_singleton.mp hx]
    exact Nat.zero_le _
  · simp [content, fresh, queued, Block.bytes_new]
  · intro blk h
    cases h
    rfl

theorem fresh_content : fresh.content = [] := by
  simp [content, fresh, queued, Block.bytes_new]

/-- Within range `erase` drops its argument; otherwise it does nothing. -/
theorem erase_ok {b : BufferBlock} (hv : Valid b) (len : Int32) :
    Valid (b.erase len) ∧ (b.erase len).content =
      if 0 < len.toInt ∧ len.toInt ≤ b.content.length then b.content.drop (toSize len.toInt)
      else b.content := by
  have hl := hv.total
  rw [erase]
  by_cases h0 : len ≤ 0
  · have hneg : ¬0 < len.toInt := by
      rw [Int32.le_iff_toInt_le] at h0
      simpa using h0
    simp only [h0, true_or, if_true, hneg, false_and, if_false]
    exact ⟨hv, trivial⟩
  · obtain ⟨hpos, hsz⟩ := toSize_int32 h0
    by_cases hgt : toSize len.toInt > b.totalSize
    · have hout : ¬len.toInt ≤ b.content.length := by omega
      simp only [hgt, or_true, if_true, hout, and_false, if_false]
      exact ⟨hv, trivial⟩
    · have hin : len.toInt ≤ b.content.length := by omega
      simp only [h0, hgt, or_self, if_false, hpos, hin, and_self, if_true]
      by_cases hall : toSize len.toInt = b.totalSize
      · rw [if_pos hall, hall, hl, List.drop_length]
        exact ⟨fresh_valid, fresh_content⟩
      · have hd : ({ b with
            blocks := (advance b.blocks b.readPos (toSize len.toInt)).1
            readPos := (advance b.blocks b.readPos (toSize len.toInt)).2
            totalSize := sizeSub b.totalSize (toSize len.toInt)
            checkPos := (advance b.blocks b.readPos (toSize len.toInt)).2 } : BufferBlock) =
            b.drops (toSize len.toInt) (advance b.blocks b.readPos (toSize len.toInt)).2 := by
          rw [drops, sizeSub_of_le (by omega), Nat.min_eq_left (by omega)]
        rw [if_neg hall, eraseLoop_ok hv.sizes hv.read, hd]
        exact ⟨drops_valid hv, drops_content hv.toRepr⟩

-- ---------------------------------------------------------------------------
-- Writing bytes at the end
-- ---------------------------------------------------------------------------

theorem Fits.snoc (h : Fits blks) (hb : blk.size ≤ blk.capacity) : Fits (blks ++ [blk]) := by
  intro x hx
  rcases List.mem_append.mp hx with hx | hx
  · exact h x hx
  · rw [List.mem_singleton.mp hx]
    exact hb

theorem queued_snoc (init : List Block) (blk : Block) (pos : Nat) (hp : pos ≤ frontSize (init ++ [blk]))
    (hf : Fits (init ++ [blk])) (hb : blk'.bytes = blk.bytes ++ src) :
    queued (init ++ [blk']) pos = queued (init ++ [blk]) pos ++ src := by
  cases init with
  | nil =>
    replace hp : pos ≤ blk.size := hp
    have hl := Block.bytes_length (hf blk (by simp))
    simp only [List.nil_append, queued, List.flatMap_nil, List.append_nil, hb]
    rw [List.drop_append_of_le_length (by omega)]
  | cons front rest => simp [queued, hb]

theorem queued_new (hne : blks ≠ []) (cap pos : Nat) :
    queued (blks ++ [Block.new cap]) pos = queued blks pos := by
  cases blks with
  | nil => contradiction
  | cons front rest => simp [queued, Block.bytes_new]

theorem frontSize_snoc (hne : blks ≠ []) (blk : Block) :
    frontSize (blks ++ [blk]) = frontSize blks := by
  cases blks with
  | nil => contradiction
  | cons front rest => rfl

theorem fill_ok {b : BufferBlock} (hv : Valid b) (hl : b.blocks.getLast? = some last)
    (src : Bytes) (hroom : last.size + src.length ≤ last.capacity) :
    ∃ b', b.fill src = .ok b' ∧ Valid b' ∧ b'.blocks ≠ [] ∧ b'.content = b.content ++ src := by
  obtain ⟨blks, total, read, write, check⟩ := b
  obtain ⟨init, rfl⟩ := List.getLast?_eq_some_iff.mp hl
  obtain rfl : write = last.size := hv.write last hl
  obtain ⟨blk', hw, hcap, hbytes⟩ := Block.write_ok hroom
  have hq : queued (init ++ [{ blk' with size := last.size + src.length }]) read =
      queued (init ++ [last]) read ++ src := queued_snoc init last read hv.read hv.sizes hbytes
  have hfill : fill ⟨init ++ [last], total, read, last.size, check⟩ src =
      .ok ⟨init ++ [{ blk' with size := last.size + src.length }], total + src.length, read,
        last.size + src.length, check⟩ := by
    simp only [fill, hl, hw, bind, Except.bind, pure, Except.pure, List.dropLast_concat]
  refine ⟨_, hfill, ⟨⟨?_, ?_, ?_⟩, ?_⟩, by simp, hq⟩
  · exact Fits.snoc (fun x hx => hv.sizes x (List.mem_append_left _ hx)) (by simpa [hcap] using hroom)
  · have hr : read ≤ frontSize (init ++ [last]) := hv.read
    cases init with
    | nil => exact Nat.le_trans hr (Nat.le_add_right last.size src.length)
    | cons front rest => exact hr
  · have ht : total = (queued (init ++ [last]) read).length := hv.total
    rw [content, hq, List.length_append, ← ht]
  · intro blk hb
    rw [List.getLast?_concat, Option.some.injEq] at hb
    rw [← hb]

theorem grow_ok {b : BufferBlock} (hv : Valid b) (hne : b.blocks ≠ []) (size : Nat)
    (current : Block) : Valid (b.grow size current) ∧ (b.grow size current).content = b.content := by
  have hq := queued_new hne (max (min (current.capacity * 2) maxBlockSize) size) b.readPos
  refine ⟨⟨⟨?_, ?_, ?_⟩, ?_⟩, hq⟩
  · exact Fits.snoc hv.sizes (Nat.zero_le _)
  · exact (frontSize_snoc hne _).symm ▸ hv.read
  · show b.totalSize = _
    rw [hv.total, content, content, grow, hq]
  · intro blk hb
    rw [grow, List.getLast?_concat, Option.some.injEq] at hb
    rw [← hb]
    rfl

theorem appendLoop_ok (size fuel : Nat) (src : Bytes) {b : BufferBlock} (hv : Valid b)
    (hne : b.blocks ≠ []) (hfuel : src.length ≤ fuel) (hsize : src.length ≤ size) :
    ∃ b', appendLoop size fuel b src = .ok b' ∧ Valid b' ∧ b'.content = b.content ++ src := by
  induction fuel generalizing b src with
  | zero =>
    obtain rfl := List.eq_nil_of_length_eq_zero (Nat.le_zero.mp hfuel)
    exact ⟨b, rfl, hv, by simp⟩
  | succ fuel ih =>
    cases src with
    | nil => exact ⟨b, rfl, hv, by simp⟩
    | cons c src =>
      obtain ⟨current, hl⟩ := Option.ne_none_iff_exists'.mp (mt List.getLast?_eq_none_iff.mp hne)
      have hcap : current.size ≤ current.capacity := hv.sizes _ (List.mem_of_getLast? hl)
      -- the step: bytes go into `grown`, whose last block has room for `n` of them
      have hstep : ∀ (grown : BufferBlock) (last : Block) (n : Nat), Valid grown →
          grown.content = b.content → 0 < n → grown.blocks.getLast? = some last →
          last.size + n ≤ last.capacity →
          ∃ b', (grown.fill ((c :: src).take (min (c :: src).length n)) >>= fun b' =>
              appendLoop size fuel b' ((c :: src).drop (min (c :: src).length n))) = .ok b' ∧
            Valid b' ∧ b'.content = b.content ++ (c :: src) := by
        intro grown last n hgv hgc hn hgl hroom
        obtain ⟨b₁, hf, hv₁, hne₁, hc₁⟩ := fill_ok hgv hgl ((c :: src).take (min (c :: src).length n))
          (by rw [List.length_take]; omega)
        obtain ⟨b', hb, hv', hc'⟩ := ih ((c :: src).drop (min (c :: src).length n)) hv₁ hne₁
          (by rw [List.length_drop]; simp only [List.length_cons] at *; omega)
          (by rw [List.length_drop]; omega)
        refine ⟨b', by rw [hf]; exact hb, hv', ?_⟩
        rw [hc', hc₁, hgc, List.append_assoc, List.take_append_drop]
      rw [appendLoop]
      · simp only [hl, hv.write current hl, sizeSub_of_le hcap]
        by_cases hfull : current.capacity - current.size = 0
        · simp only [hfull, if_true]
          obtain ⟨hgv, hgc⟩ := grow_ok hv hne size current
          refine hstep _ _ _ hgv hgc ?_ List.getLast?_concat (Nat.le_of_eq (Nat.zero_add _))
          simp only [List.length_cons] at hsize
          omega
        · simp only [hfull, if_false]
          exact hstep b current _ hv rfl (by omega) hl (by omega)
      · simp

/-- The buffer `append` writes to when there is no block: one fresh block. -/
theorem reopened_ok {b : BufferBlock} (hv : Valid b) (hb : b.blocks = []) :
    Valid { b with blocks := [Block.new initialBlockSize], writePos := 0 } ∧
      ({ b with blocks := [Block.new initialBlockSize], writePos := 0 } : BufferBlock).content =
        b.content := by
  have hread : b.readPos = 0 := by
    have h := hv.read
    rw [hb] at h
    exact Nat.le_zero.mp h
  have hc : b.content = [] := by rw [content, hb, queued]
  have hq : queued [Block.new initialBlockSize] b.readPos = [] := by
    simp [queued, Block.bytes_new]
  refine ⟨⟨⟨?_, ?_, ?_⟩, ?_⟩, hq.trans hc.symm⟩
  · intro x hx
    rw [List.mem_singleton.mp hx]
    exact Nat.zero_le _
  · show b.readPos ≤ _
    rw [hread]
    exact Nat.zero_le _
  · exact hv.total.trans (by rw [hc, content, hq])
  · intro blk h
    cases h
    rfl

theorem append_ok {b : BufferBlock} (hv : Valid b) (data : Bytes) :
    ∃ b', b.append data = .ok b' ∧ Valid b' ∧ b'.content = b.content ++ data := by
  rw [append]
  by_cases h0 : data.length = 0
  · refine ⟨b, if_pos h0, hv, ?_⟩
    rw [List.eq_nil_of_length_eq_zero h0, List.append_nil]
  · simp only [h0, if_false]
    by_cases he : b.blocks.isEmpty
    · simp only [he, if_true]
      obtain ⟨hv', hc⟩ := reopened_ok hv (List.isEmpty_iff.mp he)
      rw [← hc]
      exact appendLoop_ok _ _ data hv' (by simp) (Nat.le_refl _) (Nat.le_refl _)
    · simp only [he]
      exact appendLoop_ok _ _ data hv (by simpa using he) (Nat.le_refl _) (Nat.le_refl _)

end BufferBlock

end MudouHttp
