import MudouHttp.Http.Answers
import MudouHttp.Http.Splitting

/-!
# Which requests close their connection

`writecallback` asks `request_` whether to keep the connection open when the
last byte is written. By then `onmessage` may have parsed more bytes into it.
If they make a request, its response is behind the one being written, and it
is the one to ask; if they do not, `request_` holds neither
(`closes_right_iff`).
-/

namespace MudouHttp

open Function (update)
open Lib.Regex (fullMatch)
open BufferBlock (Valid append_ok readableBytes)
open HttpRequest

def Writev.taken : Writev → Nat
  | .wrote n => n
  | .again | .failed => 0

/-- `answered`, which the program does not keep, is the request that the last
response appended answers. -/
structure Serving where
  connection : Connection
  answered : Option HttpRequest

namespace Serving

def start : Serving := { connection := .start, answered := none }

def step (s : Serving) : ConnectionEvent → Except Fault Serving
  | .onmessage d fs => do
    let (r, parsed) ← s.connection.toReceiver.receive d
    let c ← s.connection.step (.onmessage d fs)
    pure { connection := c, answered := if parsed then some r.request else s.answered }
  | .writecallback result => do
    let c ← s.connection.step (.writecallback result)
    pure { s with connection := c }

def unsent (s : Serving) : Bytes := s.connection.sending.outputBuffer.content

def offered (s : Serving) : Nat := (s.connection.sending.iovs.map IoVec.iovLen).sum

def Takes (s : Serving) (result : Writev) : Prop := result.taken ≤ s.offered

def Admits (s : Serving) : ConnectionEvent → Prop
  | .onmessage _ _ => True
  | .writecallback result => s.Takes result

def Writes (s : Serving) : ConnectionEvent → Prop
  | .onmessage _ _ => False
  | .writecallback result => s.Takes result

/-- If the next `writecallback` writes the last byte, it closes the connection
exactly if the request answered is not kept alive. -/
def ClosesRight (s : Serving) : Prop :=
  ∀ result c effects, s.Takes result → s.connection.writecallback result = .ok (c, effects) →
    s.unsent ≠ [] → c.sending.outputBuffer.content = [] →
      ∃ rq, s.answered = some rq ∧ (.closecallback ∈ effects ↔ rq.isKeepAlive = false)

/-- Bytes that arrive before the last response is written make a request, or are
parsed as far as they go to one that is kept alive if `request_` is: `undisturbed_iff`
says this of the bytes. -/
def Undisturbed (s : Serving) : ConnectionEvent → Prop
  | .onmessage d _ => s.unsent ≠ [] → ∀ r, s.connection.toReceiver.receive d = .ok (r, false) →
      r.request.isKeepAlive = s.connection.request.isKeepAlive
  | .writecallback _ => True

end Serving

-- ---------------------------------------------------------------------------
-- Bytes that make no request
-- ---------------------------------------------------------------------------

/-- Header lines that break off, and the header map behind them. -/
inductive HeadersSay : StrMap → Bytes → StrMap → Prop
  | line : c ≠ [] → (lineOf c).1 = 0 → HeadersSay m c m
  | header : (lineOf c).1 ≠ 0 → fullMatch headerPattern (lineOf c).2 = some [name, value] →
    2 < c.length → HeadersSay (update m name (some value)) (c.drop (lineBytes c)) m' →
    HeadersSay m c m'
  | body : (lineOf c).1 ≠ 0 → ¬IsHeader (lineOf c).2 → 2 < c.length →
    c.drop (lineBytes c) ≠ [] → toInt (c.drop (lineBytes c)).length = 0 →
    HeadersSay m c m

/-- The bytes make no request; what can be read of them gives a version and headers. -/
inductive Unfinished (c : Bytes) : Bytes → StrMap → Prop
  | nothing : c = [] ∨ (lineOf c).1 = 0 ∨ ¬IsRequestLine (lineOf c).2 →
    Unfinished c [] fun _ => none
  | headers : (lineOf c).1 ≠ 0 →
    fullMatch requestLinePattern (lineOf c).2 = some [verb, target, v] →
    HeadersSay (fun _ => none) (c.drop (lineBytes c)) m → Unfinished c v m

variable {m m' : StrMap} {v : Bytes} {svc : Services}

theorem HeadersSay.parses (h : HeadersSay m c m') (svc : Services) {rq : HttpRequest}
    (hs : rq.state = .headers) (hh : rq.header = m) :
    ∃ rq' k, Parses svc rq c .brokenOff rq' k ∧ rq'.header = m' ∧ rq'.version = rq.version := by
  have hin : ∀ c, rq.input c = lineOf c := input_line (by simp [hs])
  induction h generalizing rq with
  | @line c _ hc hz => exact ⟨rq, 0, .brokenOff hc (by simp [hs]) (by rwa [hin]), hh, rfl⟩
  | @header c name value m m' hn hm hlen _ ih =>
    have ha : rq.accept svc (lineOf c).2 c.length = _ := accept_headers svc hs hlen
    rw [parseHeader_some hm] at ha
    have hstate : HttpRequest.state { rq with header := update rq.header name (some value) } =
        .headers := hs
    obtain ⟨rq', k, hp, hheader, hversion⟩ :=
      ih hstate (by rw [hh]) (input_line (by simp [hs]))
    exact ⟨rq', _, .turn (hin c) (ne_nil_of_line hn) (by simp [hs]) hn ha hp, hheader, hversion⟩
  | @body c m hn hno hlen hrest hz =>
    have ha : rq.accept svc (lineOf c).2 c.length = _ := accept_headers svc hs hlen
    rw [parseHeader_none rq hno] at ha
    have hlast : Parses svc { rq with state := .body } (c.drop (lineBytes c)) .brokenOff
        { rq with state := .body } 0 :=
      .brokenOff hrest (by simp) (by simpa only [input_rest] using hz)
    exact ⟨_, _, .turn (hin c) (ne_nil_of_line hn) (by simp [hs]) hn ha hlast, hh, rfl⟩

theorem Parses.headers_say (h : Parses svc rq c o rq' k) (hs : rq.state = .headers)
    (ho : o ≠ .done) : HeadersSay rq.header c rq'.header ∧ rq'.version = rq.version := by
  induction h with
  | done => exact absurd rfl ho
  | @brokenOff c rq hc _ hz =>
    rw [input_line (by simp [hs])] at hz
    exact ⟨.line hc hz, rfl⟩
  | rejected _ _ _ ha =>
    simp only [accept, hs] at ha
    cases ha
  | @next c rq₁ o rq' k rq _ _ hn ha hp ih =>
    have hin : rq.input c = lineOf c := input_line (by simp [hs]) c
    rw [hin] at hn ha hp ih
    rcases accept_headers_cases hs ha with ⟨-, hfinish⟩ | ⟨hlen, hh, hnext⟩ | ⟨hlen, hno, hnext⟩
    · exact absurd (hp.finished hfinish).1 ho
    · obtain ⟨hsay, hversion⟩ := ih hnext ho
      obtain ⟨name, value, hm⟩ := hh
      rw [accept_headers svc hs hlen, parseHeader_some hm, Option.some.injEq] at ha
      subst ha
      exact ⟨.header hn hm hlen hsay, hversion⟩
    · obtain ⟨hrest, hz, rfl, -⟩ := hp.body_unfinished hnext ho
      rw [accept_headers svc hs hlen, parseHeader_none rq hno, Option.some.injEq] at ha
      subst ha
      exact ⟨.body hn hno hlen hrest hz, rfl⟩

theorem Unfinished.parses (h : Unfinished c v m) (hc : c ≠ []) (svc : Services) :
    ∃ o rq' k, Parses svc .init c o rq' k ∧ o ≠ .done ∧ rq'.header = m ∧ rq'.version = v := by
  cases h with
  | nothing hnothing =>
    rcases hnothing with hempty | hz | hno
    · exact absurd hempty hc
    · exact ⟨_, _, _, .brokenOff hc (by decide) hz, by decide, rfl, rfl⟩
    · by_cases hz : (lineOf c).1 = 0
      · exact ⟨_, _, _, .brokenOff hc (by decide) hz, by decide, rfl, rfl⟩
      · have ha : HttpRequest.init.accept svc (lineOf c).2 c.length = none :=
          Option.eq_none_iff_forall_ne_some.mpr fun rq₁ ha =>
            hno ((accept_requestLine svc rfl c.length).mp ⟨rq₁, ha⟩)
        exact ⟨_, _, _, .rejected hc (by decide) hz ha, by decide, rfl, rfl⟩
  | @headers verb target v m hn hm hsay =>
    obtain ⟨rq, ha, hstate, hheader, hversion⟩ : ∃ rq,
        HttpRequest.init.accept svc (lineOf c).2 c.length = some rq ∧ rq.state = .headers ∧
          rq.header = (fun _ => none) ∧ rq.version = v := by
      simp only [accept, HttpRequest.init, parseRequestLine, hm]
      exact ⟨_, rfl, rfl, rfl, rfl⟩
    obtain ⟨rq', k, hp, hheader', hversion'⟩ := hsay.parses svc hstate hheader
    exact ⟨_, rq', _, .next hc (by decide) hn ha hp, by decide, hheader', hversion'.trans hversion⟩

theorem Parses.unfinished (h : Parses svc .init c o rq' k) (ho : o ≠ .done) :
    Unfinished c rq'.version rq'.header := by
  have hs : HttpRequest.init.state = .requestLine := rfl
  cases h with
  | done => exact absurd rfl ho
  | brokenOff _ _ hz => exact .nothing (.inr (.inl hz))
  | rejected hc _ _ ha =>
    refine .nothing (.inr (.inr fun hline => ?_))
    obtain ⟨rq₁, ha'⟩ := (accept_requestLine svc hs c.length).mpr hline
    cases ha.symm.trans ha'
  | next hc _ hn ha hp =>
    obtain ⟨hsay, hversion⟩ := hp.headers_say (accept_requestLine_state hs ha) ho
    simp only [accept, HttpRequest.init, parseRequestLine] at ha
    split at ha
    · rename_i verb target v hm
      cases ha
      rw [hversion]
      exact .headers hn hm hsay
    · cases ha

theorem Receiver.receive_empty {r : Receiver} (hv : Valid r.inputbuffer)
    (hc : r.inputbuffer.content ++ d.chunk = []) :
    ∃ b, r.receive d = .ok ({ request := .init, inputbuffer := b }, false) := by
  obtain ⟨b, happend, hb, hcontent⟩ := append_ok hv d.chunk
  have hempty : b.readableBytes = 0 := by
    rw [readableBytes, hb.total, hcontent, hc]
    rfl
  exact ⟨b, by simp only [receive, happend, parse, hempty, if_true, bind, Except.bind]; rfl⟩

theorem Receiver.receive_unfinished {r : Receiver} (hv : Valid r.inputbuffer) (d : Delivery) :
    (∃ r', r.receive d = .ok (r', false) ∧ r'.request.version = v ∧ r'.request.header = m) ↔
      Unfinished (r.inputbuffer.content ++ d.chunk) v m := by
  by_cases hc : r.inputbuffer.content ++ d.chunk = []
  · obtain ⟨b, hreceive⟩ := receive_empty hv hc
    constructor
    · rintro ⟨r', hr', rfl, rfl⟩
      obtain ⟨rfl, -⟩ := Prod.mk.inj (Except.ok.inj (hreceive.symm.trans hr'))
      exact .nothing (.inl hc)
    · intro h
      cases h with
      | nothing => exact ⟨_, hreceive, rfl, rfl⟩
      | headers hn => exact absurd (hc ▸ rfl) hn
  · constructor
    · rintro ⟨r', hr', rfl, rfl⟩
      obtain ⟨o, rq', k, hp⟩ := Parses.exists d.services .init (r.inputbuffer.content ++ d.chunk)
      obtain ⟨b, -, -, hreceive⟩ := receive_parses hv d hc hp
      obtain ⟨rfl, hfalse⟩ := Prod.mk.inj (Except.ok.inj (hreceive.symm.trans hr'))
      refine hp.unfinished fun ho => ?_
      subst ho
      cases hfalse
    · intro h
      obtain ⟨o, rq', k, hp, ho, hheader, hversion⟩ := h.parses hc d.services
      obtain ⟨b, -, -, hreceive⟩ := receive_parses hv d hc hp
      have hfalse : (o.leaves b.readPos (b.consumeBytes k)).2 = false := by
        cases o with
        | done => exact absurd rfl ho
        | brokenOff => rfl
        | rejected => rfl
      rw [hfalse] at hreceive
      exact ⟨_, hreceive, hversion, hheader⟩

namespace Serving

/-- Where the buffer holds what has come, the bytes decide: they must say of the
connection what `request_` says. -/
theorem undisturbed_iff {s : Serving} (hv : Valid s.connection.inputbuffer) (d : Delivery)
    (fs : FileSystem) : s.Undisturbed (.onmessage d fs) ↔ (s.unsent ≠ [] → ∀ v m,
      Unfinished (s.connection.inputbuffer.content ++ d.chunk) v m →
        ({ HttpRequest.init with version := v, header := m }).isKeepAlive =
          s.connection.request.isKeepAlive) := by
  refine forall_congr' fun _ => ?_
  constructor
  · intro h v m hunfinished
    obtain ⟨r, hreceive, rfl, rfl⟩ := (Receiver.receive_unfinished hv d).mpr hunfinished
    exact h r hreceive
  · intro h r hreceive
    exact h _ _ ((Receiver.receive_unfinished hv d).mp ⟨r, hreceive, rfl, rfl⟩)

-- ---------------------------------------------------------------------------
-- writecallback
-- ---------------------------------------------------------------------------

/-- While something is unsent, `request_` is kept alive if the request is that is
answered last. -/
structure Agrees (s : Serving) : Prop where
  inOrder : s.connection.sending.InOrder
  answered : s.unsent ≠ [] →
    ∃ rq, s.answered = some rq ∧ rq.isKeepAlive = s.connection.request.isKeepAlive

end Serving

namespace Sending

theorem readable_iff {c : Sending} (h : c.InOrder) :
    c.outputBuffer.readableBytes = 0 ↔ c.outputBuffer.content = [] := by
  rw [BufferBlock.readableBytes, h.buffer.total, List.length_eq_zero_iff]

theorem written_closes {c : Sending} (h : c.InOrder) (keepAlive : Bool)
    (hpre : offered <+: c.outputBuffer.content) (hn : n ≤ offered.length) :
    (c.written keepAlive offered n).1.outputBuffer.content = c.outputBuffer.content.drop n ∧
      ((c.written keepAlive offered n).1.outputBuffer.content = [] →
        (.closecallback ∈ (c.written keepAlive offered n).2 ↔ keepAlive = false)) := by
  have hin := (written_ok h keepAlive hpre hn).1
  have hcontent : (c.written keepAlive offered n).1.outputBuffer = c.outputBuffer.consumeBytes n := by
    unfold written
    dsimp only
    split <;> rfl
  refine ⟨?_, fun hempty => ?_⟩
  · rw [hcontent, BufferBlock.consumeBytes_content h.buffer.toRepr]
  · have hread := (readable_iff hin).mpr hempty
    rw [hcontent] at hread
    unfold written
    simp only [hread, if_true]
    cases keepAlive <;> decide

/-- What is left of the content, and that the last byte closes the connection if
it is to be closed. -/
theorem writecallback_closes {c c' : Sending} (h : c.InOrder)
    (htakes : result.taken ≤ (c.iovs.map IoVec.iovLen).sum)
    (hwrite : c.writecallback keepAlive result = .ok (c', effects)) :
    c'.InOrder ∧ c'.outputBuffer.content = c.outputBuffer.content.drop result.taken ∧
      (c.outputBuffer.content ≠ [] → c'.outputBuffer.content = [] →
        (.closecallback ∈ effects ↔ keepAlive = false)) := by
  have hnone : ∀ writing, result.taken = 0 ∨ c.outputBuffer.content = [] →
      InOrder { c with writing := writing } ∧
      c.outputBuffer.content = c.outputBuffer.content.drop result.taken ∧
      (c.outputBuffer.content ≠ [] → c.outputBuffer.content = [] →
        (.closecallback ∈ effects ↔ keepAlive = false)) := by
    intro writing hnothing
    refine ⟨⟨h.buffer, h.order⟩, ?_, fun hne hempty => absurd hempty hne⟩
    rcases hnothing with hz | hempty
    · rw [hz, List.drop_zero]
    · rw [hempty, List.drop_nil]
  obtain ⟨offered, hg, hpre, hsum, -, hne⟩ := iovs_ok h.buffer.toRepr
  unfold writecallback at hwrite
  split at hwrite
  · rename_i hz
    cases hwrite
    exact hnone false (.inr (not_not.mp fun hc => hne hc (List.length_eq_zero_iff.mp hz)))
  · simp only [hg, bind, Except.bind, pure, Except.pure] at hwrite
    cases result with
    | wrote n =>
      have hn : n ≤ offered.length := hsum ▸ htakes
      obtain ⟨hcontent, hcloses⟩ := written_closes h keepAlive hpre hn
      by_cases hpos : n > 0
      · simp only [hpos, if_true, Except.ok.injEq] at hwrite
        have hin := (written_ok h keepAlive hpre hn).1
        rw [hwrite] at hcontent hcloses hin
        exact ⟨hin, hcontent, fun _ => hcloses⟩
      · simp only [hpos, if_false, Except.ok.injEq, Prod.mk.injEq] at hwrite
        obtain ⟨rfl, rfl⟩ := hwrite
        exact hnone c.writing (.inl (Nat.eq_zero_of_not_pos hpos))
    | again =>
      cases hwrite
      exact hnone c.writing (.inl rfl)
    | failed =>
      cases hwrite
      exact hnone false (.inl rfl)

theorem iovs_pos {c : Sending} (h : c.InOrder) (hne : c.outputBuffer.content ≠ []) :
    1 ≤ (c.iovs.map IoVec.iovLen).sum := by
  obtain ⟨offered, -, -, -, hpos, hiovs⟩ := iovs_ok h.buffer.toRepr
  obtain ⟨iov, hmem⟩ := List.exists_mem_of_ne_nil _ (hiovs hne)
  exact List.sum_pos_iff_exists_pos_nat.mpr ⟨iov.iovLen, List.mem_map_of_mem hmem, hpos iov hmem⟩

end Sending

namespace Serving

theorem start_agrees : start.Agrees :=
  ⟨Sending.start_inOrder, fun hunsent => absurd BufferBlock.fresh_content hunsent⟩

theorem write_ok {s : Serving} (hin : s.connection.sending.InOrder) (htakes : s.Takes result)
    (hwrite : s.connection.writecallback result = .ok (c, effects)) :
    s.step (.writecallback result) = .ok { s with connection := c } ∧ c.sending.InOrder ∧
      c.request = s.connection.request ∧
      c.sending.outputBuffer.content = s.unsent.drop result.taken ∧
      (s.unsent ≠ [] → c.sending.outputBuffer.content = [] →
        (.closecallback ∈ effects ↔ s.connection.request.isKeepAlive = false)) := by
  have hstep : s.step (.writecallback result) = .ok { s with connection := c } := by
    simp only [step, Connection.step, hwrite, bind, Except.bind, pure, Except.pure]
  obtain ⟨⟨sending, effects'⟩, hsending, hc⟩ := bind_ok hwrite
  cases hc
  obtain ⟨hin', hleft, hcloses⟩ := Sending.writecallback_closes hin htakes hsending
  exact ⟨hstep, hin', rfl, hleft, hcloses⟩

theorem Agrees.closesRight {s : Serving} (h : s.Agrees) : s.ClosesRight := by
  intro result c effects htakes hwrite hunsent hempty
  obtain ⟨rq, hrq, hsame⟩ := h.answered hunsent
  obtain ⟨-, -, -, -, hcloses⟩ := write_ok h.inOrder htakes hwrite
  exact ⟨rq, hrq, hsame ▸ hcloses hunsent hempty⟩

theorem Agrees.write {s s' : Serving} (h : s.Agrees) (htakes : s.Takes result)
    (hs : s.step (.writecallback result) = .ok s') : s'.Agrees := by
  obtain ⟨c, hstep, hc⟩ := bind_ok hs
  cases hc
  obtain ⟨⟨c', effects⟩, hwrite, hc⟩ := bind_ok hstep
  cases hc
  obtain ⟨-, hin, hrequest, hleft, -⟩ := write_ok h.inOrder htakes hwrite
  refine ⟨hin, fun hunsent => ?_⟩
  have hbefore : s.unsent ≠ [] := by
    intro hempty
    rw [hempty, List.drop_nil] at hleft
    exact hunsent hleft
  rw [hrequest]
  exact h.answered hbefore

-- ---------------------------------------------------------------------------
-- The last byte
-- ---------------------------------------------------------------------------

theorem write_one {s : Serving} (hin : s.connection.sending.InOrder) (hunsent : s.unsent ≠ []) :
    s.Takes (.wrote 1) ∧ ∃ c effects, s.connection.writecallback (.wrote 1) = .ok (c, effects) := by
  have htakes : s.Takes (.wrote 1) := Sending.iovs_pos hin hunsent
  refine ⟨htakes, ?_⟩
  have hadmits : s.connection.sending.Admits
      (.writecallback s.connection.request.isKeepAlive (.wrote 1)) := ⟨Nat.le_refl 1, htakes⟩
  obtain ⟨sending, effects, hwrite, -, -⟩ := Sending.writecallback_ok hin hadmits
  exact ⟨_, effects, by simp only [Connection.writecallback, hwrite, bind, Except.bind]; rfl⟩

theorem last_byte {s : Serving} (hin : s.connection.sending.InOrder) (hunsent : s.unsent ≠ []) :
    ∃ t, Lib.Reach step Writes s t ∧ t.connection.sending.InOrder ∧ t.unsent.length = 1 ∧
      t.connection.request = s.connection.request ∧ t.answered = s.answered := by
  induction hn : s.unsent.length generalizing s with
  | zero => exact absurd (List.length_eq_zero_iff.mp hn) hunsent
  | succ n ih =>
    by_cases hlast : n = 0
    · exact ⟨s, .start, hin, by rw [hn, hlast], rfl, rfl⟩
    · obtain ⟨htakes, c, effects, hwrite⟩ := write_one hin hunsent
      obtain ⟨hstep, hin', hrequest, hleft, -⟩ := write_ok hin htakes hwrite
      have hlength : c.sending.outputBuffer.content.length = n := by
        rw [hleft, List.length_drop, hn]
        rfl
      have hmore : c.sending.outputBuffer.content ≠ [] :=
        fun hempty => hlast (hlength ▸ List.length_eq_zero_iff.mpr hempty)
      obtain ⟨t, ht, hrest⟩ := ih (s := { s with connection := c }) hin' hmore hlength
      have hwrites : s.Writes (.writecallback (.wrote 1)) := htakes
      rw [← hrequest]
      exact ⟨t, (Lib.Reach.start.next hwrites hstep).trans ht, hrest⟩

/-- The next `writecallback` may write the last byte. -/
theorem ClosesRight.agrees {s : Serving} (h : s.ClosesRight)
    (hin : s.connection.sending.InOrder) (hone : s.unsent.length = 1) :
    ∃ rq, s.answered = some rq ∧ rq.isKeepAlive = s.connection.request.isKeepAlive := by
  have hunsent : s.unsent ≠ [] := fun hempty => by
    rw [hempty] at hone
    cases hone
  obtain ⟨htakes, c, effects, hwrite⟩ := write_one hin hunsent
  obtain ⟨-, -, -, hleft, hcloses⟩ := write_ok hin htakes hwrite
  have hempty : c.sending.outputBuffer.content = [] :=
    hleft.trans (List.drop_eq_nil_of_le (Nat.le_of_eq hone))
  obtain ⟨rq, hrq, hright⟩ := h _ c effects htakes hwrite hunsent hempty
  refine ⟨rq, hrq, Bool.eq_iff_iff.mpr (not_iff_not.mp ?_)⟩
  rw [Bool.not_eq_true, Bool.not_eq_true, ← hright, ← hcloses hunsent hempty]

theorem agrees_iff {s : Serving} (hin : s.connection.sending.InOrder) :
    s.Agrees ↔ ∀ t, Lib.Reach step Writes s t → t.ClosesRight := by
  constructor
  · intro h t ht
    have hagrees : t.Agrees := ht.invariant (fun s e s' hs hw hstep => by
      cases e with
      | onmessage d fs => cases hw
      | writecallback result => exact hs.write hw hstep) h
    exact hagrees.closesRight
  · intro h
    refine ⟨hin, fun hunsent => ?_⟩
    obtain ⟨t, ht, hin', hone, hrequest, hanswered⟩ := last_byte hin hunsent
    rw [← hrequest, ← hanswered]
    exact (h t ht).agrees hin' hone

theorem step_agrees_iff {s s' : Serving} (h : s.Agrees) (ha : s.Admits e)
    (hs : s.step e = .ok s') : s'.connection.sending.InOrder ∧ (s'.Agrees ↔ s.Undisturbed e) := by
  cases e with
  | writecallback result =>
    have hagrees := h.write ha hs
    exact ⟨hagrees.inOrder, iff_of_true hagrees trivial⟩
  | onmessage d fs =>
    obtain ⟨⟨r, parsed⟩, hreceive, hs⟩ := bind_ok hs
    obtain ⟨c, hstep, hs⟩ := bind_ok hs
    cases hs
    obtain ⟨⟨c', calls⟩, hmessage, hc⟩ := bind_ok hstep
    cases hc
    simp only [Connection.onmessage, hreceive, bind, Except.bind] at hmessage
    cases parsed with
    | true =>
      obtain ⟨c₂, file, hrespond, hsame, hin, -⟩ :=
        Connection.respond_ok (c := { s.connection with toReceiver := r }) h.inOrder fs
      simp only [if_true, hrespond] at hmessage
      cases hmessage
      have hrequest : c'.request = r.request := congrArg Receiver.request hsame
      refine ⟨hin, iff_of_true ⟨hin, fun _ => ⟨r.request, rfl, by rw [hrequest]⟩⟩ fun _ r' hr' => ?_⟩
      cases hreceive.symm.trans hr'
    | false =>
      cases hmessage
      refine ⟨h.inOrder, fun hagrees hunsent r' hr' => ?_, fun hundisturbed =>
        ⟨h.inOrder, fun hunsent => ?_⟩⟩
      · cases hreceive.symm.trans hr'
        obtain ⟨rq, hrq, hsame⟩ := hagrees.answered hunsent
        obtain ⟨rq', hrq', hsame'⟩ := h.answered hunsent
        cases hrq.symm.trans hrq'
        exact hsame.symm.trans hsame'
      · obtain ⟨rq, hrq, hsame⟩ := h.answered hunsent
        exact ⟨rq, hrq, hsame.trans (hundisturbed hunsent r hreceive).symm⟩

/-- As long as bytes that arrive before the last response is written make a request
or say the same as the one answered, connections are closed for the right
request; the first others can make one be closed, or kept open, for no reason. -/
theorem closes_right_iff {s : Serving}
    (h : Lib.Reach step (fun s e => s.Admits e ∧ s.Undisturbed e) start s) :
    s.ClosesRight ∧ ∀ e s', s.Admits e → s.step e = .ok s' →
      ((∀ t, Lib.Reach step Writes s' t → t.ClosesRight) ↔ s.Undisturbed e) := by
  have hagrees : s.Agrees := h.invariant
    (fun s e s' hs hm hstep => (step_agrees_iff hs hm.1 hstep).2.mpr hm.2) start_agrees
  refine ⟨hagrees.closesRight, fun e s' ha hs => ?_⟩
  obtain ⟨hin, hiff⟩ := step_agrees_iff hagrees ha hs
  exact (agrees_iff hin).symm.trans hiff

def get : ConnectionEvent :=
  .onmessage ⟨bytes "GET / HTTP/1.1\r\n\r\n", .none⟩ Connection.noFiles

theorem get_meets : start.Admits get ∧ start.Undisturbed get :=
  ⟨trivial, fun hunsent => absurd BufferBlock.fresh_content hunsent⟩

/-- Whether the request answered is kept alive, how much is unsent, and what is left
and what is called if the kernel takes all it is offered. -/
def lastWrite (s : Serving) : Option Bool × Nat × Option (Bytes × List WriteEffect) :=
  (s.answered.map HttpRequest.isKeepAlive, s.unsent.length,
    (s.connection.writecallback (.wrote s.offered)).toOption.map fun r =>
      (r.1.sending.outputBuffer.content, r.2))

/-- A request to be kept alive has been answered, and the response not been sent. -/
theorem closes_right_iff_example : ∃ s,
    Lib.Reach step (fun s e => s.Admits e ∧ s.Undisturbed e) start s ∧
    lastWrite s = (some true, 276, some ([], [.disablewriting, .sendcomplete])) ∧
    s.ClosesRight := by
  have hrun : (start.step get).toOption.map lastWrite =
      some (some true, 276, some ([], [.disablewriting, .sendcomplete])) := by
    decide +kernel
  obtain ⟨s, hs, hview⟩ := view_ok lastWrite hrun
  have hreach : Lib.Reach step (fun s e => s.Admits e ∧ s.Undisturbed e) start s :=
    .next .start get_meets hs
  exact ⟨s, hreach, hview, (closes_right_iff hreach).1⟩

/-- The first byte of the next request arrives before the response is sent: the
connection is closed, although the request answered is to be kept alive. -/
theorem kept_alive_closed : ∃ s, Lib.Reach step Admits start s ∧
    lastWrite s = (some true, 276, some ([], [.disablewriting, .sendcomplete, .closecallback])) ∧
    ¬s.ClosesRight := by
  have hrun : (Lib.runs step start
      [get, .onmessage ⟨bytes "G", .none⟩ Connection.noFiles]).toOption.map lastWrite =
        some (some true, 276, some ([], [.disablewriting, .sendcomplete, .closecallback])) := by
    decide +kernel
  obtain ⟨s, hs, hview⟩ := view_ok lastWrite hrun
  have hmeet : Lib.AllMeet step Admits start
      [get, .onmessage ⟨bytes "G", .none⟩ Connection.noFiles] := by
    refine ⟨trivial, ?_⟩
    split
    · trivial
    · exact ⟨trivial, by split <;> trivial⟩
  refine ⟨s, Lib.Reach.start.runs _ hmeet hs, hview, fun hright => ?_⟩
  obtain ⟨hanswered, hview⟩ := Prod.mk.inj hview
  obtain ⟨hunsent, hview⟩ := Prod.mk.inj hview
  obtain ⟨r, hwrite, hview⟩ := view_ok _ hview
  obtain ⟨hempty, heffects⟩ := Prod.mk.inj hview
  have hne : s.unsent ≠ [] := fun h => by
    rw [h] at hunsent
    cases hunsent
  have htakes : s.Takes (.wrote s.offered) := Nat.le_refl s.offered
  obtain ⟨rq, hrq, hiff⟩ := hright _ r.1 r.2 htakes hwrite hne hempty
  rw [hrq, Option.map_some, hiff.mp (heffects ▸ by decide)] at hanswered
  cases hanswered

end Serving

end MudouHttp
