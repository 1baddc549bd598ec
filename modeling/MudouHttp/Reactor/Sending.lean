import MudouHttp.Reactor.BufferLaws
import MudouHttp.Lib.Reach

/-!
# The sending side of a Connection

`onmessage` appends to `outputbuffer_` and asks for the write event;
`writecallback` hands the kernel the first blocks of the buffer and takes off
what it accepts. No byte is lost, duplicated or reordered over any run, and
the write event is given up only when nothing is left (`sending_in_order`).
-/

namespace MudouHttp

inductive Writev
  | wrote (n : Nat)
  | again
  | failed
  deriving DecidableEq

inductive WriteEffect
  | disablewriting
  | sendcomplete
  | closecallback
  | errorcallback
  deriving DecidableEq

/-- `accepted` is what the kernel has taken and `appended` what `onmessage`
has produced; the program keeps neither. -/
structure Sending where
  outputBuffer : BufferBlock
  writing : Bool
  accepted : Bytes
  appended : Bytes

inductive SendEvent
  | append (data : Bytes)
  | sendinloop
  | writecallback (keepAlive : Bool) (result : Writev)

def gather (blocks : List Block) : List IoVec → Except Fault Bytes
  | [] => .ok []
  | iov :: iovs =>
    match blocks[iov.block]? with
    | none => .error .outOfBounds
    | some block => do
      let chunk ← block.read iov.offset iov.iovLen
      pure (chunk ++ (← gather blocks iovs))

namespace Sending

def maxIoves : Nat := 16

def start : Sending :=
  { outputBuffer := .fresh, writing := false, accepted := [], appended := [] }

def iovs (c : Sending) : List IoVec :=
  c.outputBuffer.getIOVecs maxIoves c.outputBuffer.readPos

def written (c : Sending) (keepAlive : Bool) (offered : Bytes) (n : Nat) :
    Sending × List WriteEffect :=
  let c := { c with
    outputBuffer := c.outputBuffer.consumeBytes n, accepted := c.accepted ++ offered.take n }
  if c.outputBuffer.readableBytes = 0 then
    ({ c with writing := false },
      [.disablewriting, .sendcomplete] ++ if keepAlive then [] else [.closecallback])
  else (c, [])

/-- `Connection::writecallback`; a `writev` of no bytes takes neither branch.
`errorcallback` removes the channel, and with it the write event. -/
def writecallback (c : Sending) (keepAlive : Bool) (result : Writev) :
    Except Fault (Sending × List WriteEffect) :=
  if c.iovs.length = 0 then .ok ({ c with writing := false }, [.disablewriting])
  else do
    let offered ← gather c.outputBuffer.blocks c.iovs
    match result with
    | .wrote n => pure (if n > 0 then c.written keepAlive offered n else (c, []))
    | .again => pure (c, [])
    | .failed => pure ({ c with writing := false }, [.errorcallback])

def apply (c : Sending) : SendEvent → Except Fault (Sending × List WriteEffect)
  | .append data => do
    let out ← c.outputBuffer.append data
    pure ({ c with outputBuffer := out, appended := c.appended ++ data }, [])
  | .sendinloop => pure ({ c with writing := true }, [])
  | .writecallback keepAlive result => c.writecallback keepAlive result

def step (c : Sending) (e : SendEvent) : Except Fault Sending := do pure (← c.apply e).1

/-- The kernel takes between one byte and all that is offered, or none for
now. -/
def Admits (c : Sending) : SendEvent → Prop
  | .writecallback _ (.wrote n) => 1 ≤ n ∧ n ≤ (c.iovs.map IoVec.iovLen).sum
  | .writecallback _ .failed => False
  | _ => True

end Sending

-- ---------------------------------------------------------------------------
-- What getIOVecs describes
-- ---------------------------------------------------------------------------

open BufferBlock

theorem gather_cons {blocks : List Block} (hb : blocks[iov.block]? = some block)
    (hr : block.read iov.offset iov.iovLen = .ok chunk) (hg : gather blocks iovs = .ok more) :
    gather blocks (iov :: iovs) = .ok (chunk ++ more) := by
  simp only [gather, hb, hr, hg, bind, Except.bind, pure, Except.pure]

/-- The entries added from a block on: none is empty, together they are a
prefix of what is queued from there, and there is one if there can be. -/
theorem iovLoop_ok (maxCount : Nat) (gone : List Block) (iovs : List IoVec) (hf : Fits blks)
    (hp : pos ≤ frontSize blks) :
    ∃ more offered, iovLoop maxCount blks gone.length pos iovs = iovs ++ more ∧
      gather (gone ++ blks) more = .ok offered ∧ offered <+: queued blks pos ∧
      (more.map IoVec.iovLen).sum = offered.length ∧ (∀ iov ∈ more, 0 < iov.iovLen) ∧
      (iovs.length < maxCount → queued blks pos ≠ [] → more ≠ []) := by
  induction blks generalizing gone pos iovs with
  | nil => exact ⟨[], [], by simp [iovLoop], rfl, List.nil_prefix, rfl, by simp, by simp [queued]⟩
  | cons block rest ih =>
    have hl := Block.bytes_length (hf block (by simp))
    replace hp : pos ≤ block.size := hp
    rw [iovLoop, sizeSub_of_le hp]
    by_cases hfull : iovs.length ≥ maxCount
    · refine ⟨[], [], by simp [hfull], rfl, List.nil_prefix, rfl, by simp, ?_⟩
      intro hroom
      omega
    · have hall : gone ++ block :: rest = (gone ++ [block]) ++ rest := by simp
      have hlen : gone.length + 1 = (gone ++ [block]).length := by simp
      simp only [hfull, if_false, hall, hlen]
      by_cases hsome : block.size - pos > 0
      · -- the block has bytes left and gets an entry
        obtain ⟨more, offered, hi, hg, hpre, hsum, hpos, -⟩ := ih (gone ++ [block])
          (iovs ++ [⟨gone.length, pos, block.size - pos⟩]) hf.tail (Nat.zero_le _)
        have hread : block.read pos (block.size - pos) = .ok (block.bytes.drop pos) := by
          rw [Block.read_ok (hf block (by simp)) (by omega),
            List.take_of_length_le (by rw [List.length_drop]; omega)]
        refine ⟨⟨gone.length, pos, block.size - pos⟩ :: more, block.bytes.drop pos ++ offered,
          ?_, ?_, ?_, ?_, ?_, ?_⟩
        · simp only [hsome, if_true, hi, List.append_assoc, List.singleton_append]
        · exact gather_cons (by simp) hread hg
        · rw [queued_cons]
          exact List.prefix_append_right_inj _ |>.mpr hpre
        · simp only [List.map_cons, List.sum_cons, hsum, List.length_append, List.length_drop, hl]
        · intro iov hiov
          rcases List.mem_cons.mp hiov with rfl | hiov
          · exact hsome
          · exact hpos iov hiov
        · simp
      · have hnone : block.bytes.drop pos = [] := List.drop_eq_nil_of_le (by omega)
        simp only [hsome, if_false]
        rw [queued_cons, hnone, List.nil_append]
        exact ih (gone ++ [block]) iovs hf.tail (Nat.zero_le _)

namespace Sending

/-- What `writev` is offered is a prefix of the content, and not empty unless
the content is. -/
theorem iovs_ok {c : Sending} (hr : Repr c.outputBuffer) :
    ∃ offered, gather c.outputBuffer.blocks c.iovs = .ok offered ∧
      offered <+: c.outputBuffer.content ∧ (c.iovs.map IoVec.iovLen).sum = offered.length ∧
      (∀ iov ∈ c.iovs, 0 < iov.iovLen) ∧ (c.outputBuffer.content ≠ [] → c.iovs ≠ []) := by
  unfold iovs getIOVecs
  by_cases he : c.outputBuffer.blocks.isEmpty
  · have hc : c.outputBuffer.content = [] := by
      rw [content, List.isEmpty_iff.mp he, queued]
    exact ⟨[], by simp [he, gather], List.nil_prefix, by simp [he], by simp [he], by simp [hc]⟩
  · obtain ⟨more, offered, hi, hg, hpre, hsum, hpos, hne⟩ :=
      iovLoop_ok maxIoves [] [] hr.sizes hr.read
    simp only [List.length_nil, List.nil_append] at hi hg hne
    have hm : ¬(c.outputBuffer.blocks.isEmpty ∨ maxIoves = 0) := by simp [he, maxIoves]
    rw [if_neg hm, hi]
    exact ⟨offered, hg, hpre, hsum, hpos, hne (by decide)⟩

structure InOrder (c : Sending) : Prop where
  buffer : Valid c.outputBuffer
  order : c.accepted ++ c.outputBuffer.content = c.appended

theorem start_inOrder : InOrder start := ⟨fresh_valid, fresh_content⟩

theorem InOrder.readable_zero {c : Sending} (h : InOrder c)
    (hz : c.outputBuffer.readableBytes = 0) : c.accepted = c.appended := by
  have hc : c.outputBuffer.content = [] :=
    List.eq_nil_of_length_eq_zero (h.buffer.total ▸ hz)
  rw [← h.order, hc, List.append_nil]

theorem written_ok {c : Sending} (h : InOrder c) (keepAlive : Bool)
    (hpre : offered <+: c.outputBuffer.content) (hn : n ≤ offered.length) :
    InOrder (c.written keepAlive offered n).1 ∧
      (.disablewriting ∈ (c.written keepAlive offered n).2 →
        (c.written keepAlive offered n).1.accepted = (c.written keepAlive offered n).1.appended) := by
  have hnext : InOrder { c with
      outputBuffer := c.outputBuffer.consumeBytes n
      accepted := c.accepted ++ offered.take n } := by
    refine ⟨consumeBytes_valid h.buffer n, ?_⟩
    obtain ⟨rest, hrest⟩ := hpre
    show c.accepted ++ offered.take n ++ (c.outputBuffer.consumeBytes n).content = c.appended
    rw [consumeBytes_content h.buffer.toRepr, ← h.order, ← hrest,
      List.drop_append_of_le_length hn, List.append_assoc, ← List.append_assoc (offered.take n),
      List.take_append_drop]
  unfold written
  simp only
  split
  · rename_i hz
    exact ⟨⟨hnext.buffer, hnext.order⟩, fun _ => hnext.readable_zero hz⟩
  · refine ⟨hnext, ?_⟩
    simp

theorem writecallback_ok {c : Sending} (h : InOrder c)
    (ha : Admits c (.writecallback keepAlive result)) :
    ∃ c' effects, c.writecallback keepAlive result = .ok (c', effects) ∧ InOrder c' ∧
      (.disablewriting ∈ effects → c'.accepted = c'.appended) := by
  obtain ⟨offered, hg, hpre, hsum, -, hne⟩ := iovs_ok h.buffer.toRepr
  unfold writecallback
  by_cases hz : c.iovs.length = 0
  · have hc : c.outputBuffer.readableBytes = 0 := by
      rw [readableBytes, h.buffer.total, List.length_eq_zero_iff]
      exact Classical.byContradiction fun hc => hne hc (List.eq_nil_of_length_eq_zero hz)
    exact ⟨_, _, if_pos hz, ⟨h.buffer, h.order⟩, fun _ => h.readable_zero hc⟩
  · simp only [hz, if_false, hg, bind, Except.bind, pure, Except.pure]
    cases result with
    | wrote n =>
      obtain ⟨hpos, hle⟩ := ha
      obtain ⟨hin, hdis⟩ := written_ok h keepAlive hpre (hsum ▸ hle)
      exact ⟨_, _, by simp [Nat.lt_of_lt_of_le Nat.zero_lt_one hpos], hin, hdis⟩
    | again => exact ⟨_, _, rfl, h, by simp⟩
    | failed => cases ha

theorem written_appended (c : Sending) (keepAlive : Bool) (offered : Bytes) (n : Nat) :
    (c.written keepAlive offered n).1.appended = c.appended := by
  unfold written
  dsimp only
  split <;> rfl

theorem writecallback_appended {c : Sending}
    (h : c.writecallback keepAlive result = .ok (c', effects)) : c'.appended = c.appended := by
  unfold writecallback at h
  split at h
  · cases h
    rfl
  · cases hg : gather c.outputBuffer.blocks c.iovs with
    | error fault =>
      rw [hg] at h
      cases h
    | ok offered =>
      rw [hg] at h
      cases result with
      | wrote n =>
        have hc : (if n > 0 then c.written keepAlive offered n else (c, [])).1 = c' :=
          congrArg Prod.fst (Except.ok.inj h)
        rw [← hc]
        split
        · exact written_appended ..
        · rfl
      | again =>
        cases h
        rfl
      | failed =>
        cases h
        rfl

theorem apply_ok {c : Sending} (h : InOrder c) (ha : Admits c e) :
    ∃ c' effects, c.apply e = .ok (c', effects) ∧ InOrder c' ∧
      (.disablewriting ∈ effects → c'.accepted = c'.appended) := by
  cases e with
  | append data =>
    obtain ⟨out, hout, hv, hc⟩ := append_ok h.buffer data
    refine ⟨{ c with outputBuffer := out, appended := c.appended ++ data }, [], ?_, ⟨hv, ?_⟩,
      by simp⟩
    · simp only [apply, hout, bind, Except.bind, pure, Except.pure]
    · show c.accepted ++ out.content = c.appended ++ data
      rw [hc, ← List.append_assoc, h.order]
  | sendinloop => exact ⟨_, _, rfl, ⟨h.buffer, h.order⟩, by simp⟩
  | writecallback keepAlive result => exact writecallback_ok h ha

theorem step_preserves : Lib.Preserves step Admits InOrder := by
  intro c e c' h ha hs
  obtain ⟨c₁, effects, happ, hin, -⟩ := apply_ok h ha
  have he : step c e = .ok c₁ := by simp only [step, happ, bind, Except.bind, pure, Except.pure]
  rw [he] at hs
  cases hs
  exact hin

/-- In every state reached from a new connection: what the kernel accepted,
followed by what is buffered, is what was appended; bytes left to send are
offered to `writev`; the next event has no fault; and if it gives up the write
event, everything appended has been accepted. -/
theorem sending_in_order (h : Lib.Reach step Admits start c) :
    c.accepted ++ c.outputBuffer.content = c.appended ∧
      (0 < c.outputBuffer.readableBytes → ∃ iov ∈ c.iovs, 0 < iov.iovLen) ∧
      ∀ e, Admits c e → ∃ c' effects, c.apply e = .ok (c', effects) ∧
        (.disablewriting ∈ effects → c'.accepted = c'.appended) := by
  have hin : InOrder c := h.invariant step_preserves start_inOrder
  obtain ⟨-, -, -, -, hpos, hne⟩ := iovs_ok hin.buffer.toRepr
  refine ⟨hin.order, ?_, ?_⟩
  · intro hread
    have hc : c.outputBuffer.content ≠ [] := by
      intro hc
      rw [readableBytes, hin.buffer.total, hc] at hread
      exact Nat.lt_irrefl 0 hread
    obtain ⟨iov, hiov⟩ := List.exists_mem_of_ne_nil _ (hne hc)
    exact ⟨iov, hiov, hpos iov hiov⟩
  · intro e ha
    obtain ⟨c', effects, hs, -, hdis⟩ := apply_ok hin ha
    exact ⟨c', effects, hs, hdis⟩

theorem sending_in_order_example :
    ∃ c, Lib.Reach step Admits start c ∧ c.accepted = [1] ∧
      c.accepted ++ c.outputBuffer.content = [1, 2, 3] := by
  have hr : ∃ c, Lib.runs step start
      [.append [1, 2, 3], .writecallback true (.wrote 1)] = .ok c ∧ c.accepted = [1] ∧
      c.appended = [1, 2, 3] := ⟨_, rfl, rfl, rfl⟩
  obtain ⟨c, hc, hacc, happ⟩ := hr
  have hm : Lib.AllMeet step Admits start [.append [1, 2, 3], .writecallback true (.wrote 1)] :=
    ⟨trivial, ⟨Nat.le_refl 1, by decide⟩, trivial⟩
  have h := Lib.Reach.start.runs _ hm hc
  exact ⟨c, h, hacc, (sending_in_order h).1.trans happ⟩

end Sending

end MudouHttp
