import MudouHttp.Http.Framing
import MudouHttp.Http.Reading
import MudouHttp.Lib.Delimited

/-!
# What a client reads

A client reads a response up to the blank line and then as many bytes as the length
header says. `answers_in_turn`: on a connection whose requests come one at a time it
reads an answer to each, in turn, and each is what the request is answered on a
connection of its own, whatever has been asked before.
-/

namespace MudouHttp

open BufferBlock (Valid Repr)
open Connection (initResponse)
open Lib (Line Reader lines)

-- ---------------------------------------------------------------------------
-- Reading a response
-- ---------------------------------------------------------------------------

namespace Frame

/-- The number in the length header; without one it is taken for zero. -/
def bodyLength (headers : List Bytes) : Nat :=
  readNat (((headers.find? fun line => headerName line = bytes "content-length").map headerValue).getD [])

def reader : Reader UInt8 Frame := do
  let statusLine ← Reader.line 13 10
  let headers ← Reader.block 13 10
  let body ← Reader.take (bodyLength headers)
  pure { statusLine := statusLine, headers := headers, body := body }

theorem reader_steady : reader.Steady :=
  Reader.line_steady.bind fun _ => Reader.block_steady.bind fun _ =>
    (Reader.take_steady _).bind fun _ => .pure _

theorem reader_waits : reader.run [] = none := rfl

theorem Splits.reads {f : Frame} (h : f.Splits wire) (hlen : bodyLength f.headers = f.body.length) :
    reader.Reads wire f := by
  have hbody : (Reader.take (bodyLength f.headers)).Reads f.body f.body := by
    rw [hlen]
    exact Reader.take_reads f.body
  have hwire : wire = (f.statusLine ++ [13, 10]) ++
      ((lines 13 10 f.headers ++ [13, 10]) ++ (f.body ++ [])) := by
    rw [h.text, Lib.lines_cons]
    simp [crlf]
  rw [hwire]
  exact (Reader.line_reads (by decide) h.statusLine).bind Reader.line_steady <|
    (Reader.block_reads (by decide) h.headers).bind Reader.block_steady <|
    hbody.bind (Reader.take_steady _) rfl

end Frame

namespace HttpResponse

theorem frame_bodyLength (r : HttpResponse) (statusLine body : Bytes) :
    Frame.bodyLength (r.frame statusLine body).headers = body.length := by
  obtain ⟨-, -, -, hconnection⟩ := connectionLine_ok r
  obtain ⟨-, -, htype⟩ := typeLine_ok r
  obtain ⟨-, -, -, hlength, hvalue⟩ := lengthLine_ok r body.length
  have htype' : headerName r.typeLine ≠ bytes "content-length" := by
    split at htype
    · rw [htype.2]
      decide
    · rw [htype]
      decide
  have hconnection' : headerName r.connectionLine ≠ bytes "content-length" := by
    rw [hconnection]
    decide
  have hfind : (r.frame statusLine body).headers.find?
      (fun line => headerName line = bytes "content-length") = some (r.lengthLine body.length) := by
    rw [frame, List.find?_cons_of_neg (by simpa using hconnection'),
      List.find?_cons_of_neg (by simpa using htype'), List.find?_cons_of_pos (by simpa using hlength)]
  rw [Frame.bodyLength, hfind]
  show readNat (headerValue (r.lengthLine body.length)) = body.length
  rw [hvalue, readNat_decimal]

end HttpResponse

-- ---------------------------------------------------------------------------
-- What a request is answered
-- ---------------------------------------------------------------------------

/-- What a response object that has answered nothing yet writes. -/
def HttpRequest.answer (rq : HttpRequest) (fs : FileSystem) : Bytes :=
  let (response, texts, _) := (initResponse rq .new).1.makeResponse fs
  texts.flatten ++ ((Connection.fileTexts response).toOption.getD []).flatten

theorem HttpRequest.answer_eq {rq : HttpRequest}
    (h : Connection.fileTexts ((initResponse rq .new).1.makeResponse fs).1 = .ok file) :
    rq.answer fs = ((initResponse rq .new).1.makeResponse fs).2.1.flatten ++ file.flatten := by
  show _ ++ ((Connection.fileTexts ((initResponse rq .new).1.makeResponse fs).1).toOption.getD []).flatten = _
  rw [h]
  rfl

def Delivery.request (d : Delivery) : HttpRequest :=
  match HttpRequest.init.parse d.services (held d.chunk) with
  | .ok (rq, _, _) => rq
  | .error _ => .init

def ConnectionEvent.answer : ConnectionEvent → Option Bytes
  | .onmessage d fs => some (d.request.answer fs)
  | .writecallback _ => none

/-- Every answer is a frame, whose length header says how long its body is. -/
theorem HttpRequest.answer_splits (rq : HttpRequest) (fs : FileSystem) :
    ∃ f : Frame, f.Splits (rq.answer fs) ∧ Frame.bodyLength f.headers = f.body.length := by
  obtain ⟨file, r, code, status, body, -, hfile, -, hsplits⟩ :=
    HttpResponse.makeResponse_splits fs (Connection.initResponse_mmFile rq .new)
  rw [HttpRequest.answer_eq hfile]
  exact ⟨_, hsplits, HttpResponse.frame_bodyLength r _ body⟩

theorem initResponse_fresh (rq : HttpRequest) (r : HttpResponse) :
    (initResponse rq r).1 = (initResponse rq .new).1 := by
  have hinit : ∀ srcDir path keepAlive js success download code,
      (r.init srcDir path keepAlive js success download code).1 =
        (HttpResponse.new.init srcDir path keepAlive js success download code).1 := by
    intro srcDir path keepAlive js success download code
    unfold HttpResponse.init HttpResponse.unmapFile
    cases r.mmFile <;> rfl
  unfold initResponse
  split
  · exact hinit ..
  · exact hinit ..

/-- A response does not depend on what the connection has done before. -/
theorem Connection.respond_appends {c : Connection} (h : c.sending.InOrder) (fs : FileSystem) :
    ∃ c' calls, c.respond fs = .ok (c', calls) ∧ c'.toReceiver = c.toReceiver ∧
      c'.sending.InOrder ∧ c'.sending.appended = c.sending.appended ++ c.request.answer fs := by
  obtain ⟨c', -, hrespond, hsame, hin, -, -⟩ := respond_ok h fs
  refine ⟨c', _, hrespond, hsame, hin, ?_⟩
  rw [respond] at hrespond
  dsimp only at hrespond
  obtain ⟨file, hfile, hrespond⟩ := bind_ok hrespond
  obtain ⟨sending, hsending, hrespond⟩ := bind_ok hrespond
  obtain ⟨sent, hsent, hrespond⟩ := bind_ok hrespond
  obtain ⟨s, hs, -, happended⟩ := appendAll_ok h
    (((initResponse c.request c.response).1.makeResponse fs).2.1 ++ file)
  cases hs.symm.trans hsending
  cases hsent
  cases hrespond
  rw [initResponse_fresh] at happended hfile
  rw [HttpRequest.answer_eq hfile, ← List.flatten_append]
  exact happended

-- ---------------------------------------------------------------------------
-- One request at a time
-- ---------------------------------------------------------------------------

theorem HttpRequest.finish_rest {rq : HttpRequest} (hlen : c.length < 2 ^ 31) (hs : rq.state ≠ .finish)
    (hn : (rq.input c).1 ≠ 0) (ha : rq.accept svc (rq.input c).2 c.length = some rq₁)
    (hfinish : rq₁.state = .finish) : c.drop (toSize (rq.input c).1) = [] := by
  cases hstate : rq.state with
  | requestLine => cases hfinish.symm.trans (accept_requestLine_state hstate ha)
  | headers =>
    rw [input_line (by simp [hstate])] at hn ha ⊢
    rcases accept_headers_cases hstate ha with ⟨hshort, -⟩ | ⟨-, -, hnext⟩ | ⟨-, -, hnext⟩
    · exact lineBytes_short hshort hn
    · cases hfinish.symm.trans hnext
    · cases hfinish.symm.trans hnext
  | body =>
    rw [input_rest hstate]
    dsimp only
    rw [toSize_toInt hlen, List.drop_length]
  | finish => exact absurd hstate hs
  | error =>
    simp only [accept, hstate, Option.some.injEq] at ha
    rw [← ha, hstate] at hfinish
    cases hfinish

theorem Parses.rest_nil (h : Parses svc rq c .done rq' k) (hlen : c.length < 2 ^ 31)
    (hs : rq.state = .finish → c = []) : c.drop k = [] := by
  generalize ho : Outcome.done = o at h
  induction h with
  | done hfin =>
    rcases hfin with hc | hfinish
    · exact hc
    · exact hs hfinish
  | brokenOff => cases ho
  | rejected => cases ho
  | @next c rq₁ o rq' k rq hc hgo hn ha _ ih =>
    have hshort : (c.drop (toSize (rq.input c).1)).length < 2 ^ 31 := by
      rw [List.length_drop]
      exact Nat.lt_of_le_of_lt (Nat.sub_le _ _) hlen
    rw [← List.drop_drop]
    exact ih hshort (HttpRequest.finish_rest hlen hgo hn ha) ho

/-- A whole request on an empty buffer is parsed as on a buffer of its own, and nothing
is left. -/
theorem Cut.parses_alone {b : BufferBlock} (hb : Valid b) (h : Cut b.content p)
    (hlen : b.content.length < 2 ^ 31) (svc : Services) :
    ∃ left, HttpRequest.init.parse svc b =
      .ok (Delivery.request { chunk := b.content, services := svc }, left, true) ∧
      Valid left ∧ left.content = [] := by
  have hc : b.content ≠ [] := ne_nil_of_line h.line
  obtain ⟨state, left, hparse⟩ := h.parse svc hb
  have hsame : SameBytes b (held b.content) := ⟨hb, held_valid _, (held_content _).symm⟩
  obtain ⟨rq, left₁, left₂, parsed, hparse₁, hparse₂, hleft⟩ :=
    hsame.parse (whole_of_parsed hb.toRepr hparse) svc
  cases hparse.symm.trans hparse₁
  refine ⟨left, ?_, hleft.left, ?_⟩
  · rw [Delivery.request]
    dsimp only
    rw [hparse₂]
    exact hparse
  · obtain ⟨o, rq₂, k, hp⟩ := Parses.exists svc .init b.content
    have hrun := (HttpRequest.parse_ok hb.toRepr hc hp).symm.trans hparse
    cases o with
    | done =>
      cases hrun
      rw [BufferBlock.consumeBytes_content hb.toRepr]
      exact hp.rest_nil hlen (by rintro ⟨⟩)
    | brokenOff => cases hrun
    | rejected => cases hrun

def OneRequest (text : Bytes) : Prop := (∃ p, Cut text p) ∧ text.length < 2 ^ 31

theorem OneRequest.whole (h : OneRequest text) : Whole text := by
  obtain ⟨⟨p, hp⟩, -⟩ := h
  have hp' : Cut (held text).content p := by rwa [held_content]
  obtain ⟨state, left, hparse⟩ := hp'.parse .none (held_valid text)
  have hwhole := whole_of_parsed (held_valid text).toRepr hparse
  rwa [held_content] at hwhole

namespace Connection

/-- A request comes whole, and once the one before it has been taken. -/
def Turns (c : Connection) : ConnectionEvent → Prop
  | .onmessage d _ => OneRequest d.chunk
  | .writecallback result => c.Takes result

structure Answered (c : Connection) (answers : List Bytes) : Prop where
  buffer : Valid c.inputbuffer
  taken : c.inputbuffer.content = []
  inOrder : c.sending.InOrder
  appended : c.sending.appended = answers.flatten

theorem Answered.start : Answered .start [] :=
  { buffer := BufferBlock.fresh_valid
    taken := BufferBlock.fresh_content
    inOrder := Sending.start_inOrder
    appended := rfl }

theorem Answered.onmessage {c : Connection} (h : c.Answered answers) {d : Delivery}
    (hd : Cut d.chunk p) (hlen : d.chunk.length < 2 ^ 31) (fs : FileSystem) :
    ∃ c' calls, c.onmessage d fs = .ok (c', calls) ∧ c'.Answered (answers ++ [d.request.answer fs]) := by
  obtain ⟨b, happend, hb, hc⟩ := BufferBlock.append_ok h.buffer d.chunk
  rw [h.taken, List.nil_append] at hc
  obtain ⟨left, hparse, hleft, hempty⟩ := Cut.parses_alone hb (hc ▸ hd) (hc ▸ hlen) d.services
  rw [hc] at hparse
  obtain ⟨c', calls, hrespond, hsame, hin, happended⟩ :=
    respond_appends (c := { c with request := d.request, inputbuffer := left }) h.inOrder fs
  refine ⟨c', calls, ?_, ?_, ?_, hin, ?_⟩
  · rw [onmessage_answer, happend]
    refine Eq.trans ?_ hrespond
    rw [ok_bind, answer, hparse]
    rfl
  · rw [hsame]
    exact hleft
  · rw [hsame]
    exact hempty
  · rw [happended, List.flatten_append, List.flatten_singleton]
    exact congrArg (· ++ _) h.appended

theorem Answered.writecallback {c : Connection} (h : c.Answered answers)
    (ha : c.Takes result) :
    ∃ c' effects, c.writecallback result = .ok (c', effects) ∧ c'.Answered answers := by
  obtain ⟨sent, effects, hsend, hin⟩ :=
    Sending.writecallback_takes h.inOrder c.request.isKeepAlive ha
  refine ⟨{ c with sending := sent }, effects, ?_, h.buffer, h.taken, hin, ?_⟩
  · rw [Connection.writecallback, hsend]
    rfl
  · exact (Sending.writecallback_appended hsend).trans h.appended

theorem Answered.read {c : Connection} {frames : List Frame} (h : c.Answered answers)
    (hframes : List.Forall₂ (fun answer (frame : Frame) => frame.Splits answer ∧
      Frame.bodyLength frame.headers = frame.body.length) answers frames) :
    ∃ k ≤ frames.length, Frame.reader.reads c.sending.accepted = frames.take k ∧
      (c.sending.outputBuffer.content = [] → k = frames.length) := by
  have hread : List.Forall₂ Frame.reader.Reads answers frames :=
    hframes.imp fun _ _ hf => hf.1.reads hf.2
  have hlength := hframes.length_eq
  have hprefix : c.sending.accepted <+: answers.flatten := ⟨_, h.inOrder.order.trans h.appended⟩
  obtain ⟨k, hk, hreads, -, hwait⟩ :=
    Frame.reader_steady.reads_prefix Frame.reader_waits hread hprefix
  refine ⟨k, hlength ▸ hk, hreads, fun hempty => ?_⟩
  have hall : c.sending.accepted = answers.flatten := by
    rw [← h.appended, ← h.inOrder.order, hempty, List.append_nil]
  refine (Nat.le_antisymm hk (Nat.le_of_not_lt fun hlt => hwait hlt ?_)).trans hlength
  rw [hall]
  exact (List.take_prefix _ _).flatten

end Connection

def SessionEvent.answer (e : SessionEvent) : Option Bytes := e.turn.bind ConnectionEvent.answer

namespace Session

/-- The connection is open, and a turn that parses has read one whole request. -/
def Turns (s : Session) (e : SessionEvent) : Prop :=
  s.closed = false ∧ match e with
    | .drained reads _ _ => (∀ r ∈ reads, r.GoesOn) ∧ OneRequest (gathered reads)
    | .closed reads _ _ => ∀ r ∈ reads, r.GoesOn
    | .writecallback result => s.connection.Takes result

def ShowsAnswered (s : Session) (c : Connection) : Prop := s.Shows c ∧ ∃ answers, c.Answered answers

theorem Turns.meets {s : Session} (ht : s.Turns e) (h : s.ShowsAnswered c) : s.Meets e := by
  obtain ⟨hopen, ht⟩ := ht
  refine ⟨hopen, ?_⟩
  cases e with
  | drained reads svc fs =>
    obtain ⟨hshows, answers, hanswered⟩ := h
    refine ⟨ht.1, ?_⟩
    rw [(hshows.bytes hopen).content, hanswered.taken]
    exact ht.2.whole
  | closed reads svc fs => exact ht
  | writecallback result => exact ht

theorem Turns.turn {s : Session} (ht : s.Turns e) (h : s.Shows c) (hd : e.turn = some d) : c.Turns d := by
  obtain ⟨-, ht⟩ := ht
  cases e with
  | drained reads svc fs =>
    cases hd
    exact ht.2
  | closed reads svc fs => cases hd
  | writecallback result =>
    cases hd
    unfold Connection.Turns Connection.Takes
    rwa [← h.sending]

end Session

end MudouHttp
