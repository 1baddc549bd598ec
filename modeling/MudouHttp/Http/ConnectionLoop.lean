import MudouHttp.Http.Closing
import MudouHttp.Http.Transcripts
import MudouHttp.Reactor.Channel

/-!
# A connection in its event loop

What `EventLoop::run` does with the channel of one connection: `epoll_wait` reports
what the channel asks for, `handleevent` calls one function of the connection, and that
function changes what is asked for. `interest_follows`: the write event is asked for
exactly while something is left to write, and no `epoll_ctl` fails.
`everything_sent`: the loop then writes all of it, but nothing while there is something
to read (`reads_first`).
-/

namespace MudouHttp

open BufferBlock (Valid Repr)
open Function (update)

inductive Breakdown
  | fault (f : Fault)
  | exit

/-- The connection's channel has number 0. `received` is what the kernel has for `read`,
and `ended` that the client sends no more. -/
structure ConnectionLoop where
  epoll : Epoll
  connection : Connection
  received : Bytes
  ended : Bool
  disconnect : Bool

/-- What the client does, and a turn of the loop with the outcome of the system calls:
which events are ready, what the reads give and how `writev` ends. -/
inductive LoopEvent
  | arrives (data : Bytes)
  | ends
  | turn (ready : UInt32) (reads : List ReadResult) (svc : Services) (fs : FileSystem) (result : Writev)

def LoopEvent.taken : LoopEvent → Nat
  | .turn _ _ _ _ result => result.taken
  | _ => 0

def LoopEvent.Reads : LoopEvent → Prop
  | .turn ready _ _ _ _ => ready &&& epollIn ≠ 0
  | _ => True

/-- A turn in which only the write event is ready, and `writev` does not fail. -/
def LoopEvent.Writes : LoopEvent → Prop
  | .turn ready _ _ _ result => ready = epollOut ∧ result ≠ .failed
  | _ => False

namespace ConnectionLoop

/-- After the constructor's `enablereading`. -/
def start (fd : Nat) : ConnectionLoop :=
  { epoll := (Epoll.start fun _ => fd).entered 0 epollIn
    connection := .start, received := [], ended := false, disconnect := false }

def call (s : ConnectionLoop) (c : ChannelCall) : Except Breakdown ConnectionLoop := do
  let epoll ← (s.epoll.step (0, c)).mapError fun _ => .exit
  pure { s with epoll := epoll }

def closecallback (s : ConnectionLoop) : Except Breakdown ConnectionLoop := { s with disconnect :=
  true }.call .remove

def errorcallback (s : ConnectionLoop) : Except Breakdown ConnectionLoop := { s with disconnect :=
  true }.call .remove

/-- What `onmessage` does when the kernel has no more; `send` is called in the thread of
the loop. -/
def answer (s : ConnectionLoop) (svc : Services) (fs : FileSystem) : Except Breakdown ConnectionLoop := do
  let (request, buffer, parsed) ←
    (HttpRequest.init.parse svc s.connection.inputbuffer).mapError .fault
  let c := { s.connection with request := request, inputbuffer := buffer }
  if parsed then do
    let (c, _) ← (c.respond fs).mapError .fault
    { s with connection := c }.call .enablewriting
  else pure { s with connection := c }

/-- The reads before the last, then what the last gives: the client's end is seen
before anything is parsed. -/
def onmessage (s : ConnectionLoop) (reads : List ReadResult) (svc : Services) (fs : FileSystem) :
    Except Breakdown ConnectionLoop := do
  match ← (s.connection.readLoop svc fs reads).mapError .fault with
  | .goesOn c =>
    let s := { s with connection := c, received := s.received.drop (gathered reads).length }
    if s.ended then s.closecallback else s.answer svc fs
  | .answered c _ => pure { s with connection := c }
  | .closes c => closecallback { s with connection := c }

def effect (s : ConnectionLoop) : WriteEffect → Except Breakdown ConnectionLoop
  | .disablewriting => s.call .disablewriting
  | .sendcomplete => pure s
  | .closecallback => s.closecallback
  | .errorcallback => s.errorcallback

def effects (s : ConnectionLoop) : List WriteEffect → Except Breakdown ConnectionLoop
  | [] => .ok s
  | e :: es => do (← s.effect e).effects es

def writecallback (s : ConnectionLoop) (result : Writev) : Except Breakdown ConnectionLoop := do
  let (c, effects) ← (s.connection.writecallback result).mapError .fault
  { s with connection := c }.effects effects

def channel (s : ConnectionLoop) : Channel := s.epoll.channels 0

def unwritten (s : ConnectionLoop) : Bytes := s.connection.sending.outputBuffer.content

def revents (s : ConnectionLoop) (ready : UInt32) : UInt32 := s.epoll.reported s.channel.fd ready

/-- A descriptor of which nothing is reported is not among those returned. -/
def handler (s : ConnectionLoop) (ready : UInt32) : Option Handler :=
  if s.revents ready = 0 then none
  else some { s.channel with revents := s.revents ready }.handleevent

def turn (s : ConnectionLoop) (ready : UInt32) (reads : List ReadResult) (svc : Services) (fs : FileSystem)
    (result : Writev) : Except Breakdown ConnectionLoop :=
  match s.handler ready with
  | none => .ok s
  | some h =>
    let s := { s with epoll := s.epoll.setrevents 0 (s.revents ready) }
    match h with
    | .closecallback => s.closecallback
    | .readcallback => s.onmessage reads svc fs
    | .writecallback => s.writecallback result
    | .errorcallback => s.errorcallback

def step (s : ConnectionLoop) : LoopEvent → Except Breakdown ConnectionLoop
  | .arrives data => .ok { s with received := s.received ++ data }
  | .ends => .ok { s with ended := true }
  | .turn ready reads svc fs result => s.turn ready reads svc fs result

/-- Nothing comes after the end; `read` gives what has come, and what is parsed is not
put back; the kernel takes no more than it is offered. -/
def Meets (s : ConnectionLoop) : LoopEvent → Prop
  | .arrives _ => s.ended = false
  | .ends => True
  | .turn ready reads _ _ result =>
    match s.handler ready with
    | some .readcallback => (∀ r ∈ reads, r.GoesOn) ∧ gathered reads = s.received ∧
      (s.ended = false → Whole (s.connection.inputbuffer.content ++ s.received))
    | some .writecallback => s.connection.Takes result
    | _ => True

end ConnectionLoop

-- ---------------------------------------------------------------------------
-- What a writev leaves
-- ---------------------------------------------------------------------------

inductive Sending.Wrote (keepAlive : Bool) (before : Sending) : Sending → List WriteEffect → Prop
  | partly : after.outputBuffer.content ≠ [] → after.writing = before.writing →
    Wrote keepAlive before after []
  | all : after.outputBuffer.content = [] → after.writing = false →
    Wrote keepAlive before after
      ([.disablewriting, .sendcomplete] ++ if keepAlive then [] else [.closecallback])
  | failed : Wrote keepAlive before after [.errorcallback]

theorem Sending.written_wrote {c : Sending} (hin : (c.written keepAlive offered n).1.InOrder) :
    Wrote keepAlive c (c.written keepAlive offered n).1 (c.written keepAlive offered n).2 := by
  have hread := readable_iff hin
  unfold written at hread ⊢
  dsimp only at hread ⊢
  by_cases hz : (c.outputBuffer.consumeBytes n).readableBytes = 0
  · rw [if_pos hz] at hread ⊢
    exact .all (hread.mp hz) rfl
  · rw [if_neg hz] at hread ⊢
    exact .partly (mt hread.mpr hz) rfl

theorem Sending.written_effects (c : Sending) (keepAlive : Bool) (offered : Bytes) (n : Nat) :
    (c.written keepAlive offered n).2 ≠ [.errorcallback] := by
  unfold written
  dsimp only
  split
  · simp
  · simp

theorem Sending.writecallback_wrote {c : Sending} (keepAlive : Bool) (h : c.InOrder)
    (hne : c.outputBuffer.content ≠ [])
    (htakes : result.taken ≤ (c.iovs.map IoVec.iovLen).sum) :
    ∃ c' effects, c.writecallback keepAlive result = .ok (c', effects) ∧ c'.InOrder ∧
      c'.outputBuffer.content = c.outputBuffer.content.drop result.taken ∧
      Wrote keepAlive c c' effects ∧ (effects = [.errorcallback] ↔ result = .failed) := by
  obtain ⟨offered, hg, -, -, -, hiovs⟩ := iovs_ok h.buffer.toRepr
  have hsome : ¬c.iovs.length = 0 := fun hz => hiovs hne (List.length_eq_zero_iff.mp hz)
  have hrun : ∃ c' effects, c.writecallback keepAlive result = .ok (c', effects) ∧
      (c'.InOrder → c'.outputBuffer.content = c.outputBuffer.content.drop result.taken →
        Wrote keepAlive c c' effects) ∧ (effects = [.errorcallback] ↔ result = .failed) := by
    simp only [writecallback, hsome, if_false, hg, ok_bind]
    cases result with
    | wrote n =>
      by_cases hn : n > 0
      · simp only [hn, if_true]
        exact ⟨(c.written keepAlive offered n).1, (c.written keepAlive offered n).2, rfl,
          fun hin _ => written_wrote hin, by simp [written_effects c keepAlive offered n]⟩
      · simp only [hn, if_false]
        refine ⟨_, _, rfl, fun _ _ => .partly hne rfl, by simp⟩
    | again => exact ⟨_, _, rfl, fun _ _ => .partly hne rfl, by simp⟩
    | failed => exact ⟨_, _, rfl, fun _ _ => .failed, by simp⟩
  obtain ⟨c', effects, hwrite, hwrote, hfailed⟩ := hrun
  obtain ⟨hin, hcontent, -⟩ := writecallback_closes h htakes hwrite
  exact ⟨c', effects, hwrite, hin, hcontent, hwrote hin hcontent, hfailed⟩

namespace ConnectionLoop

-- ---------------------------------------------------------------------------
-- What is asked for
-- ---------------------------------------------------------------------------

def mask (writing : Bool) : UInt32 := if writing then epollIn ||| epollOut else epollIn

structure Asks (e : Epoll) (wanted : UInt32) : Prop where
  inepoll : (e.channels 0).inepoll = true
  entry : e.tree (e.channels 0).fd = some { ptr := 0, events := wanted }
  events : (e.channels 0).events = wanted

theorem Asks.agrees (h : Asks e wanted) :
    (e.channels 0).inepoll = (e.tree (e.channels 0).fd).isSome := by
  rw [h.inepoll, h.entry]
  rfl

theorem Asks.changed {e : Epoll} (h : Asks e wanted) (hc : c ≠ .remove) :
    ∃ e', e.step (0, c) = .ok e' ∧ Asks e' (Epoll.asked c wanted) := by
  refine ⟨_, Epoll.step_ok h.agrees c, ?_⟩
  rw [Epoll.after, if_neg hc, h.events]
  exact ⟨by simp [Epoll.entered], by simp [Epoll.entered], by simp [Epoll.entered]⟩

theorem Asks.removed {e : Epoll} (h : Asks e wanted) :
    ∃ e', e.step (0, .remove) = .ok e' ∧ e'.tree (e'.channels 0).fd = none := by
  refine ⟨_, Epoll.step_ok h.agrees .remove, ?_⟩
  rw [Epoll.after, if_pos rfl]
  simp [Epoll.deleted]

theorem Asks.setrevents (h : Asks e wanted) (revents : UInt32) : Asks (e.setrevents 0 revents) wanted := by
  obtain ⟨hin, hentry, hevents⟩ := h
  exact ⟨by simpa [Epoll.setrevents] using hin, by simpa [Epoll.setrevents] using hentry,
    by simpa [Epoll.setrevents] using hevents⟩

/-- While the connection is open the write event is asked for exactly while something is
left to write; then nothing is asked for. -/
structure Consistent (s : ConnectionLoop) : Prop where
  buffer : Valid s.connection.inputbuffer
  inOrder : s.connection.sending.InOrder
  asks : s.disconnect = false → Asks s.epoll (mask s.connection.sending.writing)
  pending : s.disconnect = false →
    (s.connection.sending.writing = true ↔ s.connection.sending.outputBuffer.content ≠ [])
  gone : s.disconnect = true → s.epoll.tree s.channel.fd = none

theorem start_consistent (fd : Nat) : (start fd).Consistent := by
  refine ⟨BufferBlock.fresh_valid, Sending.start_inOrder, fun _ => ?_, fun _ => ?_, fun h => by cases h⟩
  · exact ⟨by simp [start, Epoll.entered], by simp [start, Epoll.entered, mask]; rfl,
      by simp [start, Epoll.entered, mask]; rfl⟩
  · simp [start, Connection.start, Sending.start, BufferBlock.fresh_content]

theorem asked_enablewriting (writing : Bool) :
    Epoll.asked .enablewriting (mask writing) = mask true := by
  cases writing <;> decide

theorem asked_disablewriting (writing : Bool) :
    Epoll.asked .disablewriting (mask writing) = mask false := by
  cases writing <;> decide

theorem call_ok {s : ConnectionLoop} (h : Asks s.epoll wanted) (hc : c ≠ .remove) :
    ∃ e, s.call c = .ok { s with epoll := e } ∧ Asks e (Epoll.asked c wanted) := by
  obtain ⟨e, he, hasks⟩ := h.changed hc
  refine ⟨e, ?_, hasks⟩
  rw [call, he]
  rfl

theorem remove_ok {s : ConnectionLoop} (hv : Valid s.connection.inputbuffer)
    (hin : s.connection.sending.InOrder) (hasks : Asks s.epoll wanted) :
    ∃ e, { s with disconnect := true }.call .remove = .ok { s with epoll := e, disconnect := true } ∧
      Consistent { s with epoll := e, disconnect := true } := by
  obtain ⟨e, he, hgone⟩ := hasks.removed
  refine ⟨e, ?_, hv, hin, by simp, by simp, fun _ => hgone⟩
  rw [call, he]
  rfl

-- ---------------------------------------------------------------------------
-- onmessage
-- ---------------------------------------------------------------------------

structure Grows (s s' : Sending) : Prop where
  accepted : s'.accepted = s.accepted
  appended : s.appended <+: s'.appended

theorem Grows.rfl (s : Sending) : Grows s s := ⟨Eq.refl _, List.prefix_refl _⟩

theorem appendAll_grows {s : Sending} (h : Connection.appendAll s texts = .ok s') : Grows s s' := by
  induction texts generalizing s with
  | nil =>
    cases h
    exact .rfl _
  | cons text texts ih =>
    obtain ⟨s₁, hs₁, h⟩ := bind_ok h
    obtain ⟨⟨s₂, effects⟩, happly, hs₂⟩ := bind_ok hs₁
    cases hs₂
    obtain ⟨out, -, hout⟩ := bind_ok happly
    cases hout
    exact ⟨(ih h).accepted, (List.prefix_append _ _).trans (ih h).appended⟩

theorem respond_grows {c : Connection} (h : c.respond fs = .ok (c', calls)) :
    c'.sending.writing = true ∧ Grows c.sending c'.sending := by
  obtain ⟨file, -, h⟩ := bind_ok h
  obtain ⟨sending, hsending, h⟩ := bind_ok h
  obtain ⟨sent, hsent, h⟩ := bind_ok h
  have hgrows := appendAll_grows hsending
  cases hsent
  cases h
  exact ⟨rfl, hgrows.accepted, hgrows.appended⟩

/-- A response leaves something to write, and the write event is asked for. -/
theorem respond_writes {c : Connection} (h : c.sending.InOrder)
    (hrespond : c.respond fs = .ok (c', calls)) :
    c'.sending.writing = true ∧ c'.sending.outputBuffer.content ≠ [] := by
  obtain ⟨c₁, calls₁, hrespond₁, -, hin, happended⟩ := Connection.respond_appends h fs
  cases hrespond.symm.trans hrespond₁
  have hnonempty : c.request.answer fs ≠ [] := by
    obtain ⟨f, hf, -⟩ := c.request.answer_splits fs
    rw [hf.text, Lib.lines_cons]
    simp
  obtain ⟨hwriting, hgrows⟩ := respond_grows hrespond
  refine ⟨hwriting, fun hempty => ?_⟩
  have horder := hin.order
  rw [hempty, List.append_nil, hgrows.accepted, happended, ← h.order, List.append_assoc] at horder
  have hrest := List.self_eq_append_right.mp horder
  exact hnonempty (List.append_eq_nil_iff.mp hrest).2

theorem answer_ok {s : ConnectionLoop} (h : s.Consistent) (hopen : s.disconnect = false)
    (hwhole : Whole s.connection.inputbuffer.content) (svc : Services) (fs : FileSystem) :
    ∃ c calls e, s.answer svc fs = .ok { s with connection := c, epoll := e } ∧
      s.connection.answer svc fs = .ok (c, calls) ∧
      Consistent { s with connection := c, epoll := e } := by
  obtain ⟨rq, left, left', parsed, hparse, -, hleft⟩ :=
    SameBytes.parse (b := s.connection.inputbuffer) ⟨h.buffer, h.buffer, rfl⟩ hwhole svc
  cases parsed with
  | false =>
    refine ⟨{ s.connection with request := rq, inputbuffer := left }, [], s.epoll, ?_, ?_,
      hleft.left, h.inOrder, h.asks, h.pending, h.gone⟩
    · rw [answer, hparse]
      rfl
    · rw [Connection.answer, hparse]
      rfl
  | true =>
    obtain ⟨c', calls, hrespond, hsame, hin, -⟩ := Connection.respond_appends
      (c := { s.connection with request := rq, inputbuffer := left }) h.inOrder fs
    obtain ⟨hwriting, hcontent⟩ := respond_writes
      (c := { s.connection with request := rq, inputbuffer := left }) h.inOrder hrespond
    obtain ⟨e, hcall, hasks⟩ := call_ok (s := { s with connection := c' })
      (h.asks hopen) (show ChannelCall.enablewriting ≠ .remove by decide)
    refine ⟨c', calls, e, ?_, ?_, ?_, hin, fun _ => ?_, fun _ => ?_, fun hf => ?_⟩
    · rw [answer, hparse]
      show (do
        let (c, _) ← (Connection.respond { s.connection with request := rq, inputbuffer := left } fs).mapError
          Breakdown.fault
        call { s with connection := c } .enablewriting) = _
      rw [hrespond]
      exact hcall
    · rw [Connection.answer, hparse]
      exact hrespond
    · rw [hsame]
      exact hleft.left
    · rw [hwriting]
      rwa [asked_enablewriting] at hasks
    · exact iff_of_true hwriting hcontent
    · cases hopen.symm.trans hf

def lastRead (s : ConnectionLoop) : ReadResult := if s.ended then .closed else .drained

/-- What the loop of reads does by itself, and the calls of the channel. -/
theorem onmessage_ok {s : ConnectionLoop} (h : s.Consistent) (hopen : s.disconnect = false)
    (hgo : ∀ r ∈ reads, r.GoesOn) (hreads : gathered reads = s.received)
    (hwhole : s.ended = false → Whole (s.connection.inputbuffer.content ++ s.received))
    (svc : Services) (fs : FileSystem) :
    ∃ s' reading, s.onmessage reads svc fs = .ok s' ∧ s'.Consistent ∧ s'.received = [] ∧
      s'.disconnect = s.ended ∧
      s.connection.readLoop svc fs (reads ++ [s.lastRead]) = .ok reading ∧
      Session.ofReading ⟨s.connection, false⟩ reading = ⟨s'.connection, s'.disconnect⟩ := by
  obtain ⟨buffer, hv, hcontent, hloop⟩ := s.connection.readLoop_reads svc fs h.buffer hgo
  have hread := hloop []
  rw [List.append_nil, Connection.readLoop] at hread
  have hempty : s.received.drop (gathered reads).length = [] := by
    rw [hreads, List.drop_length]
  rw [hreads] at hcontent
  have hs : Consistent
      { s with connection := { s.connection with inputbuffer := buffer }, received := [] } :=
    ⟨hv, h.inOrder, h.asks, h.pending, h.gone⟩
  have hmessage : s.onmessage reads svc fs =
      if s.ended then closecallback
        { s with connection := { s.connection with inputbuffer := buffer }, received := [] }
      else answer
        { s with connection := { s.connection with inputbuffer := buffer }, received := [] } svc fs := by
    rw [onmessage, hread, ← hempty]
    rfl
  rw [hmessage, hloop, lastRead]
  by_cases hended : s.ended = true
  · rw [if_pos hended, if_pos hended, Connection.readLoop]
    obtain ⟨e, hs', hc'⟩ := remove_ok hs.buffer hs.inOrder (hs.asks hopen)
    exact ⟨_, _, hs', hc', rfl, hended.symm, rfl, rfl⟩
  · rw [if_neg hended, if_neg hended, Connection.readLoop]
    have hrest : Whole buffer.content := by
      rw [hcontent]
      exact hwhole (Bool.eq_false_iff.mpr hended)
    obtain ⟨c, calls, e, hs', halone, hc'⟩ := answer_ok hs hopen hrest svc fs
    refine ⟨_, .answered c calls, hs', hc', rfl, hopen.trans (Bool.eq_false_iff.mpr hended).symm, ?_, ?_⟩
    · rw [halone]
      rfl
    · show (⟨c, false⟩ : Session) = ⟨c, s.disconnect⟩
      rw [hopen]

-- ---------------------------------------------------------------------------
-- writecallback
-- ---------------------------------------------------------------------------

structure Wrote (s s' : ConnectionLoop) (result : Writev) : Prop where
  consistent : s'.Consistent
  received : s'.received = s.received
  alone : ∃ effects, s.connection.writecallback result = .ok (s'.connection, effects) ∧
    s'.disconnect = effects.any WriteEffect.closes
  request : s'.connection.request = s.connection.request
  appended : s'.connection.sending.appended = s.connection.sending.appended
  content : s'.connection.sending.outputBuffer.content =
    s.connection.sending.outputBuffer.content.drop result.taken
  disconnect : s'.disconnect = true ↔ result = .failed ∨
    (s'.connection.sending.outputBuffer.content = [] ∧ s.connection.request.isKeepAlive = false)

theorem writecallback_ok {s : ConnectionLoop} (h : s.Consistent) (hopen : s.disconnect = false)
    (hne : s.connection.sending.outputBuffer.content ≠ [])
    (htakes : result.taken ≤ (s.connection.sending.iovs.map IoVec.iovLen).sum) :
    ∃ s', s.writecallback result = .ok s' ∧ s.Wrote s' result := by
  obtain ⟨sent, effects, hwrite, hin, hcontent, hwrote, hfailed⟩ :=
    Sending.writecallback_wrote s.connection.request.isKeepAlive h.inOrder hne htakes
  have happended := Sending.writecallback_appended hwrite
  have hrun : s.writecallback result =
      ConnectionLoop.effects { s with connection := { s.connection with sending := sent } } effects := by
    rw [writecallback, Connection.writecallback, hwrite]
    rfl
  have halone : s.connection.writecallback result = .ok ({ s.connection with sending := sent }, effects) := by
    rw [Connection.writecallback, hwrite]
    rfl
  rw [hrun]
  cases hwrote with
  | partly hleft hwriting =>
    refine ⟨_, rfl, ⟨h.buffer, hin, fun _ => ?_, fun _ => ?_, h.gone⟩, rfl, ⟨_, halone, hopen⟩, rfl,
      happended, hcontent, ?_⟩
    · exact hwriting ▸ h.asks hopen
    · exact iff_of_true (hwriting.trans ((h.pending hopen).mpr hne)) hleft
    · have hok : result ≠ .failed := fun hf => by simpa using hfailed.mpr hf
      simp [hopen, hok, hleft]
  | all hleft hdis =>
    obtain ⟨e, hcall, hasks⟩ := call_ok
      (s := { s with connection := { s.connection with sending := sent } })
      (h.asks hopen) (show ChannelCall.disablewriting ≠ .remove by decide)
    rw [asked_disablewriting] at hasks
    have hok : result ≠ .failed := fun hf => by simpa using hfailed.mpr hf
    cases hkeep : s.connection.request.isKeepAlive with
    | true =>
      refine ⟨{ s with connection := { s.connection with sending := sent }, epoll := e }, ?_,
        ⟨h.buffer, hin, fun _ => ?_, fun _ => ?_, fun hf => ?_⟩, rfl, ⟨_, halone, ?_⟩, rfl, happended,
        hcontent, ?_⟩
      · show (do (← call _ .disablewriting).effects _) = _
        rw [hcall]
        rfl
      · exact hdis ▸ hasks
      · simp [hdis, hleft]
      · cases hopen.symm.trans hf
      · rw [hkeep]
        exact hopen
      · simp [hopen, hok, hkeep]
    | false =>
      obtain ⟨e', hremove, hgone⟩ := remove_ok
        (s := { s with connection := { s.connection with sending := sent }, epoll := e })
        h.buffer hin hasks
      refine ⟨_, ?_, hgone, rfl, ⟨_, halone, ?_⟩, rfl, happended, hcontent, ?_⟩
      · show (do (← call _ .disablewriting).effects _) = _
        rw [hcall]
        show (do (← call _ .remove).effects []) = _
        rw [hremove]
        rfl
      · rw [hkeep]
        rfl
      · simp [hleft, hkeep]
  | failed =>
    obtain ⟨e, hremove, hgone⟩ := remove_ok
      (s := { s with connection := { s.connection with sending := sent } }) h.buffer hin (h.asks hopen)
    refine ⟨_, ?_, hgone, rfl, ⟨_, halone, rfl⟩, rfl, happended, hcontent, ?_⟩
    · show (do (← call _ .remove).effects []) = _
      rw [hremove]
      rfl
    · simp [hfailed.mp rfl]

-- ---------------------------------------------------------------------------
-- What epoll_wait reports
-- ---------------------------------------------------------------------------

theorem revents_gone {s : ConnectionLoop} (h : s.Consistent) (hclosed : s.disconnect = true)
    (ready : UInt32) : s.handler ready = none := by
  have hnone : s.revents ready = 0 := by
    rw [revents, Epoll.reported, h.gone hclosed]
  rw [handler, if_pos hnone]

theorem revents_asked {s : ConnectionLoop} (h : s.Consistent) (hopen : s.disconnect = false)
    (ready : UInt32) : s.revents ready =
      ready &&& (mask s.connection.sending.writing ||| epollErr ||| epollHup) := by
  rw [revents, channel, Epoll.reported, (h.asks hopen).entry]

theorem revents_without {s : ConnectionLoop} (h : s.Consistent) (hopen : s.disconnect = false)
    (ready : UInt32) {event : UInt32}
    (hevent : (mask s.connection.sending.writing ||| epollErr ||| epollHup) &&& event = 0) :
    s.revents ready &&& event = 0 := by
  rw [revents_asked h hopen, UInt32.and_assoc, hevent, UInt32.and_zero]

theorem handler_open {s : ConnectionLoop} (h : s.Consistent) (hh : s.handler ready = some f) :
    s.disconnect = false ∧ { s.channel with revents := s.revents ready }.handleevent = f := by
  refine ⟨Bool.eq_false_iff.mpr fun hclosed => ?_, ?_⟩
  · cases (revents_gone h hclosed ready).symm.trans hh
  · unfold handler at hh
    split at hh
    · cases hh
    · exact Option.some.inj hh

/-- The client's end is not among the events asked for. -/
theorem handler_closecallback {s : ConnectionLoop} (h : s.Consistent) (ready : UInt32) :
    s.handler ready ≠ some .closecallback := by
  intro hh
  obtain ⟨hopen, hevent⟩ := handler_open h hh
  have hnot : s.revents ready &&& epollRdhup = 0 :=
    revents_without h hopen ready (by cases s.connection.sending.writing <;> decide)
  unfold Channel.handleevent at hevent
  rw [if_neg (not_not.mpr hnot)] at hevent
  split at hevent
  · cases hevent
  · split at hevent <;> cases hevent

theorem handler_writecallback {s : ConnectionLoop} (h : s.Consistent)
    (hh : s.handler ready = some .writecallback) : s.connection.sending.writing = true := by
  obtain ⟨hopen, hevent⟩ := handler_open h hh
  by_contra hidle
  have hnot : s.revents ready &&& epollOut = 0 :=
    revents_without h hopen ready (by rw [Bool.eq_false_iff.mpr hidle]; decide)
  unfold Channel.handleevent at hevent
  split at hevent
  · cases hevent
  · split at hevent
    · cases hevent
    · rw [if_neg (not_not.mpr hnot)] at hevent
      cases hevent

-- ---------------------------------------------------------------------------
-- A turn
-- ---------------------------------------------------------------------------

theorem Consistent.setrevents {s : ConnectionLoop} (h : s.Consistent) (hopen : s.disconnect = false)
    (revents : UInt32) : Consistent { s with epoll := s.epoll.setrevents 0 revents } :=
  ⟨h.buffer, h.inOrder, fun _ => (h.asks hopen).setrevents revents, h.pending,
    fun hf => by cases hopen.symm.trans hf⟩

theorem turn_ok {s : ConnectionLoop} (h : s.Consistent)
    (hm : s.Meets (.turn ready reads svc fs result)) :
    ∃ s', s.turn ready reads svc fs result = .ok s' ∧ s'.Consistent := by
  unfold turn
  cases hh : s.handler ready with
  | none => exact ⟨s, rfl, h⟩
  | some f =>
    obtain ⟨hopen, -⟩ := handler_open h hh
    have hset := h.setrevents hopen (s.revents ready)
    simp only [Meets, hh] at hm
    cases f with
    | closecallback => exact absurd hh (handler_closecallback h ready)
    | readcallback =>
      obtain ⟨s', -, hs', hc', -⟩ := onmessage_ok hset hopen hm.1 hm.2.1 hm.2.2 svc fs
      exact ⟨s', hs', hc'⟩
    | writecallback =>
      have hne := (h.pending hopen).mp (handler_writecallback h hh)
      obtain ⟨s', hs', hwrote⟩ := writecallback_ok hset hopen hne hm
      exact ⟨s', hs', hwrote.consistent⟩
    | errorcallback =>
      obtain ⟨e, hs', hgone⟩ := remove_ok hset.buffer hset.inOrder (hset.asks hopen)
      exact ⟨_, hs', hgone⟩

theorem step_ok {s : ConnectionLoop} (h : s.Consistent) (hm : s.Meets e) :
    ∃ s', s.step e = .ok s' ∧ s'.Consistent := by
  cases e with
  | arrives data => exact ⟨_, rfl, h.buffer, h.inOrder, h.asks, h.pending, h.gone⟩
  | ends => exact ⟨_, rfl, h.buffer, h.inOrder, h.asks, h.pending, h.gone⟩
  | turn ready reads svc fs result => exact turn_ok h hm

theorem step_consistent : Lib.Preserves step Meets Consistent := by
  intro s e s' h hm hs
  obtain ⟨s₁, hs₁, h₁⟩ := step_ok h hm
  cases hs.symm.trans hs₁
  exact h₁

/-- Whatever comes in whatever order, an open connection asks for the write event
exactly while something is unwritten and a closed one for nothing; `epoll_ctl` never
fails. So `writecallback` always has something to write, and the first branch of
`handleevent` is never taken: the client's end is not asked for. -/
theorem interest_follows (h : Lib.Reach step Meets (start fd) s) :
    (s.disconnect = false → s.epoll.tree s.channel.fd = some
      { ptr := 0, events := if s.unwritten = [] then epollIn else epollIn ||| epollOut }) ∧
    (s.disconnect = true → s.epoll.tree s.channel.fd = none) ∧
    (∀ e, s.Meets e → ∃ s', s.step e = .ok s') ∧
    ∀ ready, s.handler ready ≠ some .closecallback ∧
      (s.handler ready = some .writecallback → s.unwritten ≠ []) := by
  have hc := h.invariant step_consistent (start_consistent fd)
  refine ⟨fun hopen => ?_, hc.gone, fun e hm => ?_,
    fun ready => ⟨handler_closecallback hc ready, fun hh => ?_⟩⟩
  · have hentry := (hc.asks hopen).entry
    have hpending := hc.pending hopen
    by_cases hempty : s.unwritten = []
    · have hidle : s.connection.sending.writing = false :=
        Bool.eq_false_iff.mpr fun hw => hpending.mp hw hempty
      rw [if_pos hempty]
      rwa [hidle] at hentry
    · rw [if_neg hempty]
      rwa [hpending.mpr hempty] at hentry
  · obtain ⟨s', hs', -⟩ := step_ok hc hm
    exact ⟨s', hs'⟩
  · exact (hc.pending (handler_open hc hh).1).mp (handler_writecallback hc hh)

def oneRequest : List LoopEvent :=
  [.arrives (bytes "GET / HT"), .arrives (bytes "TP/1.0\r\n\r\n"),
    .turn epollIn [.data (bytes "GET / HTTP/1.0\r\n\r\n")] .none nothingFound .again]

theorem oneRequest_run : ∃ s, Lib.runs step (start 7) oneRequest = .ok s ∧ s.disconnect = false ∧
    s.unwritten ≠ [] ∧ s.connection.request.isKeepAlive = false ∧ s.received = [] := by
  have hrun : (Lib.runs step (start 7) oneRequest).toOption.map (fun s =>
      (s.disconnect, s.unwritten.isEmpty, s.connection.request.isKeepAlive, s.received)) =
      some (false, false, false, []) := by decide +kernel
  obtain ⟨s, hs, hview⟩ := view_ok _ hrun
  simp only [Prod.mk.injEq, List.isEmpty_eq_false_iff] at hview
  exact ⟨s, hs, hview⟩

theorem oneRequest_meets : Lib.AllMeet step Meets (start 7) oneRequest := by
  have hwhole : Whole (bytes "GET / HTTP/1.0\r\n\r\n") := by
    have hparsed : (HttpRequest.init.parse .none (held (bytes "GET / HTTP/1.0\r\n\r\n"))).toOption.map
        (fun run => run.2.2) = some true := by decide +kernel
    obtain ⟨⟨rq, left, parsed⟩, hparse, rfl⟩ := view_ok _ hparsed
    have hw := whole_of_parsed (held_valid _).toRepr hparse
    rwa [held_content] at hw
  refine ⟨rfl, rfl, ⟨by simp [ReadResult.GoesOn], ?_, fun _ => ?_⟩, ?_⟩
  · exact List.append_nil _
  · exact hwhole
  · split <;> trivial

theorem interest_follows_example : ∃ s, Lib.Reach step Meets (start 7) s ∧
    s.epoll.tree s.channel.fd = some { ptr := 0, events := epollIn ||| epollOut } := by
  obtain ⟨s, hs, hopen, hne, -⟩ := oneRequest_run
  have h := Lib.Reach.start.runs _ oneRequest_meets hs
  obtain ⟨hasks, -⟩ := interest_follows h
  have hentry := hasks hopen
  rw [if_neg hne] at hentry
  exact ⟨s, h, hentry⟩

-- ---------------------------------------------------------------------------
-- Turns that write
-- ---------------------------------------------------------------------------

theorem handleevent_out {ch : Channel} (h : ch.revents = epollOut) : ch.handleevent = .writecallback := by
  rw [Channel.handleevent, h]
  decide

theorem handler_idle {s : ConnectionLoop} (h : s.Consistent) (hempty : s.unwritten = []) :
    s.handler epollOut = none := by
  cases hd : s.disconnect with
  | true => exact revents_gone h hd epollOut
  | false =>
    have hidle : s.connection.sending.writing = false :=
      Bool.eq_false_iff.mpr fun hwriting => (h.pending hd).mp hwriting hempty
    have hnot : s.revents epollOut = 0 := by
      rw [revents_asked h hd, hidle]
      decide
    rw [handler, if_pos hnot]

theorem handler_writes {s : ConnectionLoop} (h : s.Consistent) (hopen : s.disconnect = false)
    (hne : s.unwritten ≠ []) : s.handler epollOut = some .writecallback := by
  have hrevents : s.revents epollOut = epollOut := by
    rw [revents_asked h hopen, (h.pending hopen).mpr hne]
    decide
  rw [handler, hrevents, if_neg (by decide)]
  exact congrArg some (handleevent_out rfl)

theorem write_idle {s : ConnectionLoop} (h : s.Consistent) (hempty : s.unwritten = []) (hw : e.Writes) :
    s.step e = .ok s := by
  cases e with
  | arrives data => cases hw
  | ends => cases hw
  | turn ready reads svc fs result =>
    obtain ⟨rfl, -⟩ := hw
    rw [step, turn, handler_idle h hempty]

theorem idle_runs {s : ConnectionLoop} (h : s.Consistent) (hempty : s.unwritten = [])
    (hw : ∀ e ∈ es, LoopEvent.Writes e) : Lib.runs step s es = .ok s := by
  induction es with
  | nil => rfl
  | cons e es ih =>
    obtain ⟨he, hes⟩ := List.forall_mem_cons.mp hw
    rw [Lib.runs, write_idle h hempty he]
    exact ih hes

theorem write_step {s : ConnectionLoop} (h : s.Consistent) (hopen : s.disconnect = false)
    (hne : s.unwritten ≠ []) (hw : e.Writes) (hm : s.Meets e) :
    ∃ s', s.step e = .ok s' ∧ s'.Consistent ∧
      s'.connection.request = s.connection.request ∧
      s'.connection.sending.appended = s.connection.sending.appended ∧
      s'.unwritten = s.unwritten.drop e.taken ∧
      (s'.disconnect = true ↔ s'.unwritten = [] ∧ s.connection.request.isKeepAlive = false) := by
  cases e with
  | arrives data => cases hw
  | ends => cases hw
  | turn ready reads svc fs result =>
    obtain ⟨rfl, hok⟩ := hw
    have hh := handler_writes h hopen hne
    simp only [Meets, hh] at hm
    obtain ⟨s', hs', hwrote⟩ := writecallback_ok (h.setrevents hopen (s.revents epollOut)) hopen hne hm
    refine ⟨s', ?_, hwrote.consistent, hwrote.request, hwrote.appended, hwrote.content, ?_⟩
    · rw [step, turn, hh]
      exact hs'
    · rw [hwrote.disconnect, or_iff_right hok]
      exact Iff.rfl

theorem write_runs {s : ConnectionLoop} (h : s.Consistent) (hopen : s.disconnect = false)
    (hw : ∀ e ∈ es, LoopEvent.Writes e) (hm : Lib.AllMeet step Meets s es)
    (hmany : s.unwritten.length ≤ es.countP fun e => 0 < e.taken) :
    ∃ s', Lib.runs step s es = .ok s' ∧ s'.Consistent ∧ s'.unwritten = [] ∧
      s'.connection.sending.appended = s.connection.sending.appended ∧
      (s'.disconnect = true ↔ s.unwritten ≠ [] ∧ s.connection.request.isKeepAlive = false) := by
  by_cases hempty : s.unwritten = []
  · exact ⟨s, idle_runs h hempty hw, h, hempty, rfl, by simp [hopen, hempty]⟩
  · induction es generalizing s with
    | nil => exact absurd (List.length_eq_zero_iff.mp (Nat.le_zero.mp hmany)) hempty
    | cons e es ih =>
      obtain ⟨he, hes⟩ := List.forall_mem_cons.mp hw
      obtain ⟨hme, hmes⟩ := hm
      obtain ⟨s₁, hs₁, h₁, hrequest, happended, htaken, hclosed⟩ := write_step h hopen hempty he hme
      rw [hs₁] at hmes
      rw [Lib.runs, hs₁]
      by_cases hdone : s₁.unwritten = []
      · -- the last byte is written, and what the request says is done
        refine ⟨s₁, idle_runs h₁ hdone hes, h₁, hdone, happended, ?_⟩
        simp [hclosed, hdone, hempty]
      · have hopen₁ : s₁.disconnect = false := Bool.eq_false_iff.mpr fun hd => hdone (hclosed.mp hd).1
        have hpos : 0 < s.unwritten.length := List.length_pos_of_ne_nil hempty
        have hless : s₁.unwritten.length ≤ es.countP fun e => 0 < e.taken := by
          rw [htaken, List.length_drop]
          rw [List.countP_cons] at hmany
          by_cases htake : 0 < e.taken
          · simp only [htake, decide_true, if_true] at hmany
            omega
          · simp only [htake, decide_false, Bool.false_eq_true, if_false] at hmany
            omega
        obtain ⟨s₂, hs₂, h₂, hempty₂, happended₂, hclosed₂⟩ := ih h₁ hopen₁ hes hmes hless hdone
        exact ⟨s₂, hs₂, h₂, hempty₂, happended₂.trans happended,
          by simp [hclosed₂, hrequest, hdone, hempty]⟩

/-- However the kernel cuts them, once there have been as many turns that write as
bytes are unwritten all of them are written, and the connection is closed exactly if
there were any and the request is not kept alive. -/
theorem everything_sent (h : Lib.Reach step Meets (start fd) s) (hopen : s.disconnect = false)
    (es : List LoopEvent) (hw : ∀ e ∈ es, e.Writes) (hm : Lib.AllMeet step Meets s es)
    (hmany : s.unwritten.length ≤ es.countP fun e => 0 < e.taken) :
    ∃ s', Lib.runs step s es = .ok s' ∧ s'.unwritten = [] ∧
      s'.connection.sending.accepted = s.connection.sending.appended ∧
      (s'.disconnect = true ↔ s.unwritten ≠ [] ∧ s.connection.request.isKeepAlive = false) := by
  have hc := h.invariant step_consistent (start_consistent fd)
  obtain ⟨s', hs', h', hempty, happended, hclosed⟩ := write_runs hc hopen hw hm hmany
  refine ⟨s', hs', hempty, ?_, hclosed⟩
  have horder := h'.inOrder.order
  rwa [show s'.connection.sending.outputBuffer.content = [] from hempty, List.append_nil, happended] at horder

/-- The answer to a request that is not kept alive, a byte a turn. -/
theorem everything_sent_example : ∃ s s', Lib.Reach step Meets (start 7) s ∧
    Lib.runs step s
      (List.replicate s.unwritten.length (.turn epollOut [] .none nothingFound (.wrote 1))) = .ok s' ∧
    s'.connection.sending.accepted = s.connection.sending.appended ∧ s'.disconnect = true := by
  obtain ⟨s, hs, hopen, hne, hclose, -⟩ := oneRequest_run
  have h := Lib.Reach.start.runs _ oneRequest_meets hs
  have hm : Lib.AllMeet step Meets s
      (List.replicate s.unwritten.length (.turn epollOut [] .none nothingFound (.wrote 1))) := by
    refine Lib.AllMeet.of_preserved step_consistent (h.invariant step_consistent (start_consistent 7)) ?_
    intro e he s hc
    rw [List.eq_of_mem_replicate he]
    by_cases hempty : s.unwritten = []
    · simp only [Meets, handler_idle hc hempty]
    · cases hd : s.disconnect with
      | true => simp only [Meets, revents_gone hc hd]
      | false =>
        simp only [Meets, handler_writes hc hd hempty]
        exact Sending.iovs_pos hc.inOrder hempty
  have hw : ∀ e ∈ List.replicate s.unwritten.length
      (.turn epollOut [] .none nothingFound (.wrote 1) : LoopEvent), e.Writes := by
    intro e he
    rw [List.eq_of_mem_replicate he]
    exact ⟨rfl, by simp⟩
  obtain ⟨s', hs', -, hsent, hclosed⟩ := everything_sent h hopen _ hw hm
    (by simp [List.countP_replicate, LoopEvent.taken, Writev.taken])
  exact ⟨s, s', h, hs', hsent, hclosed.mpr ⟨hne, hclose⟩⟩

-- ---------------------------------------------------------------------------
-- Turns that read
-- ---------------------------------------------------------------------------

theorem answer_grows {c : Connection} (h : c.answer svc fs = .ok (c', calls)) :
    Grows c.sending c'.sending := by
  obtain ⟨⟨rq, left, parsed⟩, -, h⟩ := bind_ok h
  cases parsed with
  | false =>
    cases h
    exact .rfl _
  | true => exact (respond_grows h).2

def left : Reading → Connection
  | .goesOn c => c
  | .answered c _ => c
  | .closes c => c

theorem readLoop_grows {c : Connection} (h : c.readLoop svc fs results = .ok reading) :
    Grows c.sending (left reading).sending := by
  induction results generalizing c with
  | nil =>
    cases h
    exact .rfl _
  | cons r results ih =>
    cases r with
    | data chunk =>
      obtain ⟨buffer, -, h⟩ := bind_ok h
      exact ih (c := { c with inputbuffer := buffer }) h
    | interrupted => exact ih h
    | failed => exact ih h
    | drained =>
      obtain ⟨⟨c', calls⟩, hanswer, h⟩ := bind_ok h
      cases h
      exact answer_grows hanswer
    | closed =>
      cases h
      exact .rfl _

/-- What is ready is read first. -/
theorem handler_reads {s : ConnectionLoop} (h : s.Consistent) (hopen : s.disconnect = false)
    (hready : ready &&& epollIn ≠ 0) : s.handler ready = some .readcallback := by
  have hin : s.revents ready &&& (epollIn ||| epollPri) = ready &&& epollIn := by
    rw [revents_asked h hopen, UInt32.and_assoc]
    cases s.connection.sending.writing <;> rfl
  have hsome : s.revents ready ≠ 0 := by
    intro hz
    rw [hz, UInt32.zero_and] at hin
    exact hready hin.symm
  have hend : s.revents ready &&& epollRdhup = 0 :=
    revents_without h hopen ready (by cases s.connection.sending.writing <;> decide)
  rw [handler, if_neg hsome, Channel.handleevent]
  dsimp only
  rw [if_neg (not_not.mpr hend), hin, if_pos hready]

theorem read_step {s : ConnectionLoop} (h : s.Consistent) (hr : e.Reads) (hm : s.Meets e) :
    ∃ s', s.step e = .ok s' ∧ s'.Consistent ∧ Grows s.connection.sending s'.connection.sending := by
  cases e with
  | arrives data => exact ⟨_, rfl, ⟨h.buffer, h.inOrder, h.asks, h.pending, h.gone⟩, .rfl _⟩
  | ends => exact ⟨_, rfl, ⟨h.buffer, h.inOrder, h.asks, h.pending, h.gone⟩, .rfl _⟩
  | turn ready reads svc fs result =>
    rw [step, turn]
    by_cases hclosed : s.disconnect = true
    · rw [revents_gone h hclosed]
      exact ⟨s, rfl, h, .rfl _⟩
    · have hopen : s.disconnect = false := Bool.eq_false_iff.mpr hclosed
      have hh := handler_reads h hopen hr
      simp only [Meets, hh] at hm
      obtain ⟨s', reading, hs', hc', -, -, hloop, hreading⟩ :=
        onmessage_ok (h.setrevents hopen (s.revents ready)) hopen hm.1 hm.2.1 hm.2.2 svc fs
      have hgrows := readLoop_grows hloop
      rw [hh]
      refine ⟨s', hs', hc', ?_⟩
      cases reading with
      | goesOn c =>
        rw [← (Session.mk.inj hreading).1]
        exact .rfl _
      | answered c calls =>
        rw [← (Session.mk.inj hreading).1]
        exact hgrows
      | closes c =>
        rw [← (Session.mk.inj hreading).1]
        exact hgrows

/-- While there is something to read in each turn, nothing is written. -/
theorem reads_first (h : Lib.Reach step Meets (start fd) s) (es : List LoopEvent) (hr : ∀ e ∈ es, e.Reads)
    (hm : Lib.AllMeet step Meets s es) :
    ∃ s', Lib.runs step s es = .ok s' ∧
      s'.connection.sending.accepted = s.connection.sending.accepted ∧
      s.connection.sending.appended <+: s'.connection.sending.appended := by
  have hc := h.invariant step_consistent (start_consistent fd)
  clear h
  induction es generalizing s with
  | nil => exact ⟨s, rfl, rfl, List.prefix_refl _⟩
  | cons e es ih =>
    obtain ⟨he, hes⟩ := List.forall_mem_cons.mp hr
    obtain ⟨hme, hmes⟩ := hm
    obtain ⟨s₁, hs₁, h₁, hgrows⟩ := read_step hc he hme
    rw [hs₁] at hmes
    obtain ⟨s', hs', haccepted, happended⟩ := ih hes hmes h₁
    refine ⟨s', ?_, haccepted.trans hgrows.accepted, hgrows.appended.trans happended⟩
    rw [Lib.runs, hs₁]
    exact hs'

theorem reads_first_example : ∃ s, Lib.runs step (start 7) oneRequest = .ok s ∧ s.unwritten ≠ [] ∧
    s.connection.sending.accepted = [] := by
  have hr : ∀ e ∈ oneRequest, e.Reads := by
    intro e he
    simp only [oneRequest, List.mem_cons, List.not_mem_nil, or_false] at he
    rcases he with rfl | rfl | rfl
    · trivial
    · trivial
    · show epollIn &&& epollIn ≠ 0
      decide
  obtain ⟨s, hs, haccepted, -⟩ := reads_first .start oneRequest hr oneRequest_meets
  obtain ⟨s', hs', -, hne, -⟩ := oneRequest_run
  cases hs.symm.trans hs'
  exact ⟨s, hs, hne, haccepted⟩

end ConnectionLoop

end MudouHttp
