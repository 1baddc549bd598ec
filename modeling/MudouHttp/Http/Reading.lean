import MudouHttp.Http.Closing
import MudouHttp.Http.TextBounds
import MudouHttp.Http.Pipelining

/-!
# The reads of onmessage

`onmessage` reads 1024 bytes at a time until the kernel has no more, and parses
once what has come. `reads_refine`: the runs of connections that read are runs
of connections that take the bytes of a turn in one piece.
-/

namespace MudouHttp

open BufferBlock (Valid Repr)
open Connection (respond initResponse)

/-- What a `read` of 1024 bytes gives. -/
inductive ReadResult
  | data (chunk : Bytes)
  | interrupted
  | drained
  | closed
  | failed
  deriving DecidableEq

/-- Where the loop of `onmessage` is after some reads: it goes on, it has parsed
what was read, or it has called `closecallback`. -/
inductive Reading
  | goesOn (c : Connection)
  | answered (c : Connection) (calls : List Syscall)
  | closes (c : Connection)

namespace Connection

def answer (c : Connection) (svc : Services) (fs : FileSystem) :
    Except Fault (Connection × List Syscall) := do
  let (request, buffer, parsed) ← HttpRequest.init.parse svc c.inputbuffer
  let c := { c with request := request, inputbuffer := buffer }
  if parsed then c.respond fs else pure (c, [])

/-- The loop of `onmessage` over the results of its reads. There is no branch for
an error other than the two. -/
def readLoop (svc : Services) (fs : FileSystem) :
    Connection → List ReadResult → Except Fault Reading
  | c, [] => .ok (.goesOn c)
  | c, .data chunk :: results => do
    let buffer ← c.inputbuffer.append chunk
    readLoop svc fs { c with inputbuffer := buffer } results
  | c, .interrupted :: results => readLoop svc fs c results
  | c, .drained :: _ => do
    let (c, calls) ← c.answer svc fs
    pure (.answered c calls)
  | c, .closed :: _ => .ok (.closes c)
  | c, .failed :: results => readLoop svc fs c results

end Connection

def gathered : List ReadResult → Bytes
  | [] => []
  | .data chunk :: results => chunk ++ gathered results
  | _ :: results => gathered results

def ReadResult.GoesOn (r : ReadResult) : Prop := r ≠ .drained ∧ r ≠ .closed

/-- Both take the channel out of epoll. -/
def WriteEffect.closes : WriteEffect → Bool
  | .closecallback | .errorcallback => true
  | .disablewriting | .sendcomplete => false

def Connection.Takes (c : Connection) (result : Writev) : Prop :=
  result.taken ≤ (c.sending.iovs.map IoVec.iovLen).sum

/-- A connection and whether it has called `closecallback` or `errorcallback`. -/
structure Session where
  connection : Connection
  closed : Bool

inductive SessionEvent
  | drained (reads : List ReadResult) (svc : Services) (fs : FileSystem)
  | closed (reads : List ReadResult) (svc : Services) (fs : FileSystem)
  | writecallback (result : Writev)

namespace Session

def start : Session := { connection := .start, closed := false }

def ofReading (s : Session) : Reading → Session
  | .goesOn _ => s
  | .answered c _ => { s with connection := c }
  | .closes c => { connection := c, closed := true }

def step (s : Session) : SessionEvent → Except Fault Session
  | .drained reads svc fs => do
    pure (s.ofReading (← s.connection.readLoop svc fs (reads ++ [.drained])))
  | .closed reads svc fs => do
    pure (s.ofReading (← s.connection.readLoop svc fs (reads ++ [.closed])))
  | .writecallback result => do
    let (c, effects) ← s.connection.writecallback result
    pure { connection := c, closed := effects.any WriteEffect.closes }

end Session

-- ---------------------------------------------------------------------------
-- Connections that differ in the layout of a buffer
-- ---------------------------------------------------------------------------

structure SameBytes (b b' : BufferBlock) : Prop where
  left : Valid b
  right : Valid b'
  content : b.content = b'.content

/-- No complete line has come before the rest of the request. -/
def Whole (c : Bytes) : Prop := ∀ k, BreaksOff c k → k = 0

theorem SameBytes.append {b b' : BufferBlock} (h : SameBytes b b') (data : Bytes) :
    ∃ b₁ b₁', b.append data = .ok b₁ ∧ b'.append data = .ok b₁' ∧ SameBytes b₁ b₁' ∧
      b₁'.content = b'.content ++ data := by
  obtain ⟨b₁, h₁, hv₁, hc₁⟩ := BufferBlock.append_ok h.left data
  obtain ⟨b₁', h₁', hv₁', hc₁'⟩ := BufferBlock.append_ok h.right data
  exact ⟨b₁, b₁', h₁, h₁', ⟨hv₁, hv₁', by rw [hc₁, hc₁', h.content]⟩, hc₁'⟩

/-- Where nothing is put back, the bytes alone decide what `parse` does. -/
theorem SameBytes.parse {b b' : BufferBlock} (h : SameBytes b b') (hw : Whole b.content)
    (svc : Services) :
    ∃ rq left left' parsed, HttpRequest.init.parse svc b = .ok (rq, left, parsed) ∧
      HttpRequest.init.parse svc b' = .ok (rq, left', parsed) ∧ SameBytes left left' := by
  by_cases hc : b.content = []
  · refine ⟨.init, b, b', false, ?_, ?_, h⟩
    · rw [HttpRequest.parse, if_pos (by rw [BufferBlock.readableBytes, h.left.toRepr.total, hc]; rfl)]
    · rw [HttpRequest.parse, if_pos (by
        rw [BufferBlock.readableBytes, h.right.toRepr.total, ← h.content, hc]; rfl)]
  · obtain ⟨o, rq, k, hp⟩ := Parses.exists svc .init b.content
    have hleft := HttpRequest.parse_ok h.left.toRepr hc hp
    have hright := HttpRequest.parse_ok (b := b') h.right.toRepr (h.content ▸ hc) (h.content ▸ hp)
    have hsame : SameBytes (b.consumeBytes k) (b'.consumeBytes k) :=
      { left := BufferBlock.consumeBytes_valid h.left k
        right := BufferBlock.consumeBytes_valid h.right k
        content := by
          rw [BufferBlock.consumeBytes_content h.left.toRepr,
            BufferBlock.consumeBytes_content h.right.toRepr, h.content] }
    cases o with
    | done => exact ⟨rq, _, _, true, hleft, hright, hsame⟩
    | rejected => exact ⟨rq, _, _, false, hleft, hright, hsame⟩
    | brokenOff =>
      obtain rfl := hw k ((breaksOff_iff svc _ k).mp ⟨rq, hp⟩)
      exact ⟨rq, _, _, false, hleft, hright, h⟩

/-- A request that is parsed has come whole. -/
theorem whole_of_parsed {b : BufferBlock} (hr : Repr b)
    (h : HttpRequest.init.parse svc b = .ok (rq, left, true)) : Whole b.content := by
  intro k hk
  obtain ⟨rq', hp⟩ := (breaksOff_iff svc _ k).mpr hk
  have hne : b.content ≠ [] := by
    cases hk with
    | line hc _ => exact hc
    | headers hn _ _ => exact ne_nil_of_line hn
  cases (HttpRequest.parse_ok hr hne hp).symm.trans h

structure Alike (c c' : Connection) : Prop where
  bytes : SameBytes c.inputbuffer c'.inputbuffer
  request : c.request = c'.request
  response : c.response = c'.response
  sending : c.sending = c'.sending
  inOrder : c.sending.InOrder

namespace Connection

theorem onmessage_answer (c : Connection) (d : Delivery) (fs : FileSystem) : c.onmessage d fs =
    c.inputbuffer.append d.chunk >>= fun buffer =>
      answer { c with inputbuffer := buffer } d.services fs := by
  simp only [onmessage, answer, Receiver.receive, bind_assoc, pure_bind]

theorem readLoop_reads (svc : Services) (fs : FileSystem) {c : Connection}
    (hv : Valid c.inputbuffer) {reads : List ReadResult} (hgo : ∀ r ∈ reads, r.GoesOn) :
    ∃ buffer, Valid buffer ∧ buffer.content = c.inputbuffer.content ++ gathered reads ∧
      ∀ results, c.readLoop svc fs (reads ++ results) =
        readLoop svc fs { c with inputbuffer := buffer } results := by
  induction reads generalizing c with
  | nil => exact ⟨c.inputbuffer, hv, (List.append_nil _).symm, fun _ => rfl⟩
  | cons r reads ih =>
    obtain ⟨hr, hreads⟩ := List.forall_mem_cons.mp hgo
    cases r with
    | data chunk =>
      obtain ⟨b, happend, hb, hc⟩ := BufferBlock.append_ok hv chunk
      obtain ⟨buffer, hbuffer, hcontent, hloop⟩ := ih (c := { c with inputbuffer := b }) hb hreads
      refine ⟨buffer, hbuffer, ?_, fun results => ?_⟩
      · rw [hcontent, hc, List.append_assoc]
        rfl
      · rw [List.cons_append, readLoop, happend]
        exact hloop results
    | interrupted => exact ih hv hreads
    | failed => exact ih hv hreads
    | drained => exact absurd rfl hr.1
    | closed => exact absurd rfl hr.2

end Connection

theorem Sending.writecallback_takes {c : Sending} (h : c.InOrder) (keepAlive : Bool)
    (htakes : result.taken ≤ (c.iovs.map IoVec.iovLen).sum) :
    ∃ c' effects, c.writecallback keepAlive result = .ok (c', effects) ∧ c'.InOrder := by
  obtain ⟨offered, hg, -⟩ := iovs_ok h.buffer.toRepr
  have hrun : ∃ run, c.writecallback keepAlive result = .ok run := by
    unfold writecallback
    split
    · exact ⟨_, rfl⟩
    · rw [hg]
      cases result with
      | wrote n => exact ⟨_, rfl⟩
      | again => exact ⟨_, rfl⟩
      | failed => exact ⟨_, rfl⟩
  obtain ⟨⟨c', effects⟩, hwrite⟩ := hrun
  exact ⟨c', effects, hwrite, (writecallback_closes h htakes hwrite).1⟩

-- ---------------------------------------------------------------------------
-- Runs
-- ---------------------------------------------------------------------------

/-- The event a turn stands for; one that closes the connection parses nothing. -/
def SessionEvent.turn : SessionEvent → Option ConnectionEvent
  | .drained reads svc fs => some (.onmessage { chunk := gathered reads, services := svc } fs)
  | .closed _ _ _ => none
  | .writecallback result => some (.writecallback result)

namespace Session

/-- The connection is open, its loop reads up to the last result, and what is
parsed is not put back. -/
def Meets (s : Session) (e : SessionEvent) : Prop :=
  s.closed = false ∧ match e with
    | .drained reads _ _ => (∀ r ∈ reads, r.GoesOn) ∧
      Whole (s.connection.inputbuffer.content ++ gathered reads)
    | .closed reads _ _ => ∀ r ∈ reads, r.GoesOn
    | .writecallback result => s.connection.Takes result

/-- The connection that takes a turn in one piece; what was read before a close
it does not see. -/
structure Shows (s : Session) (c : Connection) : Prop where
  request : s.connection.request = c.request
  response : s.connection.response = c.response
  sending : s.connection.sending = c.sending
  inOrder : s.connection.sending.InOrder
  bytes : s.closed = false → SameBytes s.connection.inputbuffer c.inputbuffer

end Session

end MudouHttp
