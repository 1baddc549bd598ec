import MudouHttp.Reactor.BufferLaws

/-!
# A BufferBlock is a queue of bytes

`Queue` is what the buffer is for: bytes go in at the end and come out at the
front. `refines_queue`: every sequence of the buffer's operations runs without
a fault, returns what the queue returns, and leaves the queue's bytes as the
buffer's content, with all cursors in order.
-/

namespace MudouHttp

inductive BufferOp
  | append (data : Bytes)
  | consumeBytes (n : Nat)
  | readBytes (n : Nat)
  | erase (len : Int32)
  | clear
  | peekFromBlock (n : Nat)
  | bufferToString

def BufferBlock.apply (b : BufferBlock) : BufferOp → Except Fault (BufferBlock × Bytes)
  | .append data => do pure (← b.append data, [])
  | .consumeBytes n => pure (b.consumeBytes n, [])
  | .readBytes n => b.readBytes n
  | .erase len => pure (b.erase len, [])
  | .clear => pure (b.clear, [])
  | .peekFromBlock n => do pure (b, ← b.peekFromBlock n)
  | .bufferToString => do pure (b, ← b.bufferToString)

namespace Queue

def apply (q : Bytes) : BufferOp → Bytes × Bytes
  | .append data => (q ++ data, [])
  | .consumeBytes n => (q.drop (min n q.length), [])
  | .readBytes n => (q.drop n, q.take n)
  | .erase len =>
    (if 0 < len.toInt ∧ len.toInt ≤ q.length then q.drop len.toInt.toNat else q, [])
  | .clear => ([], [])
  | .peekFromBlock n => (q, if n ≤ q.length then q.take n else [])
  | .bufferToString => (q, q)

def Admits (q : Bytes) : BufferOp → Prop
  | .readBytes n => n ≤ q.length
  | _ => True

instance (q : Bytes) (op : BufferOp) : Decidable (Admits q op) := by
  cases op <;> unfold Admits <;> infer_instance

end Queue

namespace BufferBlock

theorem toSize_eq_toNat {len : Int32} (h : 0 < len.toInt) : toSize len.toInt = len.toInt.toNat := by
  have h1 := Int32.toInt_lt len
  unfold toSize
  omega

theorem apply_simulates :
    Lib.Simulation apply Queue.apply Queue.Admits (fun b q => Valid b ∧ b.content = q) := by
  rintro b q op ⟨hv, rfl⟩ hadm
  cases op with
  | append data =>
    obtain ⟨b', ha, hv', hc⟩ := append_ok hv data
    exact ⟨b', by simp [apply, ha, Queue.apply, bind, Except.bind, pure, Except.pure], hv', hc⟩
  | consumeBytes n =>
    refine ⟨_, rfl, consumeBytes_valid hv n, ?_⟩
    rw [consumeBytes_content hv.toRepr, Queue.apply]
    by_cases h : n ≤ b.content.length
    · rw [Nat.min_eq_left h]
    · rw [Nat.min_eq_right (by omega), List.drop_length, List.drop_of_length_le (by omega)]
  | readBytes n =>
    obtain ⟨check, hr⟩ := readBytes_ok hv.toRepr hadm
    exact ⟨_, hr, drops_valid hv, drops_content hv.toRepr⟩
  | erase len =>
    obtain ⟨hv', hc⟩ := erase_ok hv len
    refine ⟨_, rfl, hv', ?_⟩
    rw [hc, Queue.apply]
    by_cases h : 0 < len.toInt
    · rw [toSize_eq_toNat h]
    · simp [h]
  | clear => exact ⟨_, rfl, fresh_valid, fresh_content⟩
  | peekFromBlock n =>
    refine ⟨b, ?_, hv, rfl⟩
    simp [apply, peekFromBlock_ok hv.toRepr, Queue.apply, bind, Except.bind, pure, Except.pure]
  | bufferToString =>
    refine ⟨b, ?_, hv, rfl⟩
    simp [apply, bufferToString_ok hv.toRepr, Queue.apply, bind, Except.bind, pure, Except.pure]

theorem Valid.cursors {b : BufferBlock} (hv : Valid b) :
    b.totalSize = b.content.length ∧ b.readPos ≤ frontSize b.blocks ∧
      (∀ blk, b.blocks.getLast? = some blk → b.writePos = blk.size) ∧
      ∀ blk ∈ b.blocks, blk.size ≤ blk.capacity :=
  ⟨hv.total, hv.read, hv.write, hv.sizes⟩

/-- Every sequence of operations from a fresh buffer, as long as `readBytes`
is only asked for bytes that are there: no copy leaves its block, the outputs
are the queue's, the content is the queue, and the cursors are in order. -/
theorem refines_queue (ops : List BufferOp)
    (h : Lib.Admitted Queue.apply Queue.Admits [] ops) :
    ∃ b, Lib.run apply fresh ops = .ok (b, (Lib.runSpec Queue.apply [] ops).2) ∧
      b.content = (Lib.runSpec Queue.apply [] ops).1 ∧
      b.totalSize = b.content.length ∧ b.readPos ≤ frontSize b.blocks ∧
      (∀ blk, b.blocks.getLast? = some blk → b.writePos = blk.size) ∧
      ∀ blk ∈ b.blocks, blk.size ≤ blk.capacity := by
  obtain ⟨b, hb, hv, hc⟩ := apply_simulates.run ops ⟨fresh_valid, fresh_content⟩ h
  exact ⟨b, hb, hc, hv.cursors⟩

theorem refines_queue_example :
    let ops := [.append [1, 2, 3], .consumeBytes 5, .append [4, 5], .readBytes 1, .erase 1]
    Lib.Admitted Queue.apply Queue.Admits [] ops ∧
      ∃ b, Lib.run apply fresh ops = .ok (b, [[], [], [], [4], []]) ∧ b.content = [] := by
  have h : Lib.Admitted Queue.apply Queue.Admits []
      [.append [1, 2, 3], .consumeBytes 5, .append [4, 5], .readBytes 1, .erase 1] := by decide
  obtain ⟨b, hb, hc, -⟩ := refines_queue _ h
  exact ⟨h, b, hb, hc⟩

end BufferBlock

end MudouHttp
