import MudouHttp.Http.RequestLaws
import MudouHttp.Lib.Reach

/-!
# Chunks delivered to a connection

The part of `Connection::onmessage` that fills `inputbuffer_` and parses it.
`BreaksOff` says on the bytes alone where `parse` runs out of complete lines.
Having consumed the lines before, it puts `read_pos_` back but nothing else,
so that the buffer stays well formed only where that changes nothing
(`parsing_keeps_buffer`).
-/

namespace MudouHttp

open Function (update)
open Lib.Regex (fullMatch)
open BufferBlock

def Services.none : Services :=
  { register := fun _ _ => false, login := fun _ _ => false, json := fun _ => Option.none }

/-- The bytes of one turn of `onmessage`, and the services as they are then. -/
structure Delivery where
  chunk : Bytes
  services : Services

structure Receiver where
  request : HttpRequest
  inputbuffer : BufferBlock

namespace Receiver

def start : Receiver := { request := .init, inputbuffer := .fresh }

def receive (r : Receiver) (d : Delivery) : Except Fault (Receiver × Bool) := do
  let buffer ← r.inputbuffer.append d.chunk
  let (request, buffer, parsed) ← HttpRequest.init.parse d.services buffer
  pure ({ request := request, inputbuffer := buffer }, parsed)

def step (r : Receiver) (d : Delivery) : Except Fault Receiver := do
  let (r', _) ← r.receive d
  pure r'

end Receiver

-- ---------------------------------------------------------------------------
-- Where parse breaks off
-- ---------------------------------------------------------------------------

def IsRequestLine (line : Bytes) : Prop :=
  ∃ method path version,
    fullMatch HttpRequest.requestLinePattern line = some [method, path, version]

def IsHeader (line : Bytes) : Prop :=
  ∃ name value, fullMatch HttpRequest.headerPattern line = some [name, value]

/-- How many bytes a line takes that `readLine` finds. -/
def lineBytes (c : Bytes) : Nat := toSize (lineOf c).1

/-- Header lines, `k` bytes of them, and then something but no complete line;
or a blank line and a body whose size is zero in an `int`. -/
inductive HeadersBreakOff : Bytes → Nat → Prop
  | line : c ≠ [] → (lineOf c).1 = 0 → HeadersBreakOff c 0
  | header : (lineOf c).1 ≠ 0 → IsHeader (lineOf c).2 → 2 < c.length →
    HeadersBreakOff (c.drop (lineBytes c)) k → HeadersBreakOff c (lineBytes c + k)
  | body : (lineOf c).1 ≠ 0 → ¬IsHeader (lineOf c).2 → 2 < c.length →
    c.drop (lineBytes c) ≠ [] → toInt (c.drop (lineBytes c)).length = 0 →
    HeadersBreakOff c (lineBytes c)

/-- No complete line, or a request line and headers that break off. -/
inductive BreaksOff : Bytes → Nat → Prop
  | line : c ≠ [] → (lineOf c).1 = 0 → BreaksOff c 0
  | headers : (lineOf c).1 ≠ 0 → IsRequestLine (lineOf c).2 →
    HeadersBreakOff (c.drop (lineBytes c)) k → BreaksOff c (lineBytes c + k)

variable {svc : Services}

theorem ne_nil_of_line (h : (lineOf c).1 ≠ 0) : c ≠ [] := by
  rintro rfl
  exact h rfl

namespace HttpRequest

theorem input_line {rq : HttpRequest} (hs : rq.state ≠ .body) (c : Bytes) :
    rq.input c = lineOf c := if_pos hs

theorem input_rest {rq : HttpRequest} (hs : rq.state = .body) (c : Bytes) :
    rq.input c = (toInt c.length, c) := if_neg (not_not.mpr hs)

theorem parseHeader_some {rq : HttpRequest}
    (h : fullMatch headerPattern line = some [name, value]) :
    rq.parseHeader line = { rq with header := update rq.header name (some value) } := by
  rw [parseHeader, h]

theorem parseHeader_none (rq : HttpRequest) (h : ¬IsHeader line) :
    rq.parseHeader line = { rq with state := .body } := by
  unfold parseHeader
  split
  · rename_i name value hm
    exact absurd ⟨name, value, hm⟩ h
  · rfl

theorem parseHeader_state (rq : HttpRequest) (h : IsHeader line) :
    (rq.parseHeader line).state = rq.state := by
  obtain ⟨name, value, hm⟩ := h
  rw [parseHeader_some hm]

theorem parseHeader_other (rq : HttpRequest) (h : ¬IsHeader line) :
    (rq.parseHeader line).state = .body := by
  rw [parseHeader_none rq h]

theorem accept_requestLine (svc : Services) {rq : HttpRequest} (hs : rq.state = .requestLine)
    (n : Nat) : (∃ rq₁, rq.accept svc line n = some rq₁) ↔ IsRequestLine line := by
  simp only [accept, hs, parseRequestLine]
  constructor
  · rintro ⟨rq₁, h⟩
    split at h
    · rename_i method path version hm
      exact ⟨method, path, version, hm⟩
    · cases h
  · rintro ⟨method, path, version, hm⟩
    exact ⟨_, by rw [hm]; rfl⟩

theorem accept_requestLine_state {rq : HttpRequest} (hs : rq.state = .requestLine)
    (h : rq.accept svc line n = some rq₁) : rq₁.state = .headers := by
  simp only [accept, hs, parseRequestLine] at h
  split at h
  · cases h
    rfl
  · cases h

theorem accept_headers (svc : Services) {rq : HttpRequest} (hs : rq.state = .headers)
    (hn : 2 < n) : rq.accept svc line n = some (rq.parseHeader line) := by
  simp only [accept, hs, Nat.not_le.mpr hn, if_false]

/-- A turn in the headers: the last one, a header line, or the line behind them. -/
theorem accept_headers_cases {rq : HttpRequest} (hs : rq.state = .headers)
    (h : rq.accept svc line n = some rq₁) :
    (n ≤ 2 ∧ rq₁.state = .finish) ∨ (2 < n ∧ IsHeader line ∧ rq₁.state = .headers) ∨
      (2 < n ∧ ¬IsHeader line ∧ rq₁.state = .body) := by
  rcases Nat.lt_or_ge 2 n with hn | hn
  · rw [accept_headers svc hs hn, Option.some.injEq] at h
    subst h
    by_cases hh : IsHeader line
    · exact .inr (.inl ⟨hn, hh, (parseHeader_state rq hh).trans hs⟩)
    · exact .inr (.inr ⟨hn, hh, parseHeader_other rq hh⟩)
  · simp only [accept, hs, hn, if_true] at h
    cases h
    exact .inl ⟨hn, rfl⟩

end HttpRequest

open HttpRequest

theorem Parses.finished (h : Parses svc rq c o rq' k) (hs : rq.state = .finish) :
    o = .done ∧ rq' = rq ∧ k = 0 :=
  h.unique (.done (.inr hs))

theorem Parses.body_unfinished (h : Parses svc rq c o rq' k) (hs : rq.state = .body)
    (ho : o ≠ .done) : c ≠ [] ∧ toInt c.length = 0 ∧ rq' = rq ∧ k = 0 := by
  cases h with
  | done => exact absurd rfl ho
  | brokenOff hc _ hz =>
    simp only [input_rest hs] at hz
    exact ⟨hc, hz, rfl, rfl⟩
  | rejected _ _ _ ha =>
    simp only [accept, hs] at ha
    cases ha
  | next _ _ _ ha hp =>
    simp only [accept, hs, Option.some.injEq] at ha
    subst ha
    exact absurd (hp.finished rfl).1 ho

theorem Parses.body_done (h : Parses svc rq c .done rq' k) (hs : rq.state = .body) :
    (c = [] ∧ rq' = rq) ∨ (toInt c.length ≠ 0 ∧ rq' = rq.parseBody svc c) := by
  cases h with
  | done hfin =>
    rcases hfin with hc | hfinish
    · exact .inl ⟨hc, rfl⟩
    · cases hs.symm.trans hfinish
  | next _ _ hn ha hp =>
    simp only [input_rest hs] at hn ha
    simp only [accept, hs, Option.some.injEq] at ha
    subst ha
    exact .inr ⟨hn, (hp.finished rfl).2.1⟩

theorem Parses.headers_brokenOff (h : Parses svc rq c .brokenOff rq' k)
    (hs : rq.state = .headers) : HeadersBreakOff c k := by
  generalize ho : Outcome.brokenOff = o at h
  induction h with
  | done => cases ho
  | rejected => cases ho
  | @brokenOff c rq hc _ hz =>
    rw [input_line (by simp [hs])] at hz
    exact .line hc hz
  | @next c rq₁ o rq' k rq _ _ hn ha hp ih =>
    subst ho
    have hin : rq.input c = lineOf c := input_line (by simp [hs]) c
    rw [hin] at hn ha hp ih ⊢
    rcases accept_headers_cases hs ha with ⟨-, hfinish⟩ | ⟨hlen, hh, hnext⟩ | ⟨hlen, hh, hnext⟩
    · cases (hp.finished hfinish).1
    · exact .header hn hh hlen (ih hnext rfl)
    · obtain ⟨hrest, hz, -, rfl⟩ := hp.body_unfinished hnext (by decide)
      exact .body hn hh hlen hrest hz

theorem HeadersBreakOff.parses (h : HeadersBreakOff c k) (svc : Services) {rq : HttpRequest}
    (hs : rq.state = .headers) : ∃ rq', Parses svc rq c .brokenOff rq' k := by
  have hin : ∀ c, rq.input c = lineOf c := input_line (by simp [hs])
  induction h generalizing rq with
  | @line c hc hz => exact ⟨rq, .brokenOff hc (by simp [hs]) (by rwa [hin])⟩
  | @header c k hn hh hlen _ ih =>
    have hstate := (parseHeader_state rq hh).trans hs
    obtain ⟨rq', hp⟩ := ih hstate (input_line (by simp [hstate]))
    exact ⟨rq', .turn (hin c) (ne_nil_of_line hn) (by simp [hs]) hn (accept_headers svc hs hlen) hp⟩
  | @body c hn hh hlen hrest hz =>
    have hstate : (rq.parseHeader (lineOf c).2).state = .body := parseHeader_other rq hh
    have hlast : Parses svc _ (c.drop (lineBytes c)) .brokenOff (rq.parseHeader (lineOf c).2) 0 :=
      .brokenOff hrest (by simp [hstate]) (by simpa only [input_rest hstate] using hz)
    exact ⟨_, .turn (hin c) (ne_nil_of_line hn) (by simp [hs]) hn (accept_headers svc hs hlen) hlast⟩

theorem breaksOff_iff (svc : Services) (c : Bytes) (k : Nat) :
    (∃ rq', Parses svc .init c .brokenOff rq' k) ↔ BreaksOff c k := by
  have hs : HttpRequest.init.state = .requestLine := rfl
  constructor
  · rintro ⟨rq', h⟩
    cases h with
    | brokenOff hc _ hz => exact .line hc hz
    | next _ _ hn ha hp =>
      have hline := (accept_requestLine svc hs _).mp ⟨_, ha⟩
      exact .headers hn hline (hp.headers_brokenOff (accept_requestLine_state hs ha))
  · intro h
    cases h with
    | line hc hz => exact ⟨.init, .brokenOff hc (by decide) hz⟩
    | headers hn hline hrest =>
      obtain ⟨rq₁, ha⟩ := (accept_requestLine svc hs c.length).mpr hline
      obtain ⟨rq', hp⟩ := hrest.parses svc (accept_requestLine_state hs ha)
      exact ⟨rq', .next (ne_nil_of_line hn) (by decide) hn ha hp⟩

-- ---------------------------------------------------------------------------
-- The buffer after parse
-- ---------------------------------------------------------------------------

namespace BufferBlock

structure Balanced (b : BufferBlock) : Prop where
  total : b.totalSize + b.readPos = (b.blocks.map Block.size).sum
  read : b.readPos ≤ frontSize b.blocks

theorem queued_balanced (hf : Fits blks) (hp : pos ≤ frontSize blks) :
    (queued blks pos).length + pos = (blks.map Block.size).sum := by
  induction blks generalizing pos with
  | nil => exact (Nat.zero_add pos).trans (Nat.le_zero.mp hp)
  | cons blk rest ih =>
    have hrest := ih hf.tail (Nat.zero_le _)
    replace hp : pos ≤ blk.size := hp
    rw [queued_length hf, List.map_cons, List.sum_cons]
    omega

theorem Repr.balanced {b : BufferBlock} (hr : Repr b) : Balanced b :=
  { total := by rw [hr.total]; exact queued_balanced hr.sizes hr.read
    read := hr.read }

theorem moved_balanced {b : BufferBlock} (hr : Repr b) (pos : Nat) :
    Balanced { b with readPos := pos } ↔ b.readPos = pos := by
  constructor
  · intro h
    have hpos : b.totalSize + pos = (b.blocks.map Block.size).sum := h.total
    have hold := hr.balanced.total
    omega
  · rintro rfl
    exact hr.balanced

theorem consumeBytes_readPos {b : BufferBlock} (hr : Repr b) (n : Nat) :
    (b.consumeBytes n).readPos = (advance b.blocks b.readPos n).2 := by
  rw [consumeBytes_eq hr]
  rfl

end BufferBlock

/-- Where `parse` breaks off, `read_pos_` is what it was at the start. -/
def KeepsReadPos (b : BufferBlock) : Prop :=
  ∀ k, BreaksOff b.content k → (advance b.blocks b.readPos k).2 = b.readPos

theorem keepsReadPos_of_noLine {b : BufferBlock} (h : (lineOf b.content).1 = 0) :
    KeepsReadPos b := by
  intro k hk
  cases hk with
  | line _ _ => rw [advance_zero]
  | headers hn _ _ => exact absurd h hn

/-- `Init` and `parse` on a valid buffer: they end, and leave it balanced, and
then valid, exactly if it keeps its read position where `parse` breaks off. -/
theorem parse_balanced (svc : Services) {b : BufferBlock} (hb : Valid b) :
    ∃ rq' b' parsed, HttpRequest.init.parse svc b = .ok (rq', b', parsed) ∧
      (Balanced b' ↔ KeepsReadPos b) ∧ (KeepsReadPos b → Valid b') := by
  have hr := hb.toRepr
  by_cases hne : b.content = []
  · refine ⟨_, _, _, if_pos (by rw [readableBytes, hr.total, hne]; rfl), ?_, fun _ => hb⟩
    refine iff_of_true hr.balanced fun k hk => ?_
    cases hk with
    | line hc _ => exact absurd hne hc
    | headers hn _ _ => exact absurd hne (ne_nil_of_line hn)
  · obtain ⟨o, rq', k, hp⟩ := Parses.exists svc .init b.content
    have hr' := consumeBytes_repr hr k
    have hunbroken : o ≠ .brokenOff → KeepsReadPos b := by
      intro ho j hj
      obtain ⟨rq₂, hp₂⟩ := (breaksOff_iff svc _ j).mpr hj
      exact absurd (hp.unique hp₂).1 ho
    refine ⟨rq', _, _, parse_ok hr hne hp, ?_⟩
    cases o with
    | done =>
      exact ⟨iff_of_true hr'.balanced (hunbroken (by decide)), fun _ => consumeBytes_valid hb k⟩
    | rejected =>
      exact ⟨iff_of_true hr'.balanced (hunbroken (by decide)), fun _ => consumeBytes_valid hb k⟩
    | brokenOff =>
      have hkeeps : KeepsReadPos b ↔ (b.consumeBytes k).readPos = b.readPos := by
        rw [consumeBytes_readPos hr]
        constructor
        · exact fun h => h k ((breaksOff_iff svc _ k).mp ⟨rq', hp⟩)
        · intro h j hj
          obtain ⟨rq₂, hp₂⟩ := (breaksOff_iff svc _ j).mpr hj
          exact (hp.unique hp₂).2.2 ▸ h
      refine ⟨(moved_balanced hr' b.readPos).trans hkeeps.symm, fun h => ?_⟩
      have hsame : { b.consumeBytes k with readPos := b.readPos } = b.consumeBytes k := by
        rw [← hkeeps.mp h]
      exact hsame ▸ consumeBytes_valid hb k

-- ---------------------------------------------------------------------------
-- Runs
-- ---------------------------------------------------------------------------

namespace Receiver

def Keeps (r : Receiver) (d : Delivery) : Prop :=
  ∀ b, r.inputbuffer.append d.chunk = .ok b → KeepsReadPos b

theorem receive_ok {r : Receiver} (hv : Valid r.inputbuffer) (d : Delivery) :
    ∃ b r' parsed, r.inputbuffer.append d.chunk = .ok b ∧ Valid b ∧
      r.receive d = .ok (r', parsed) ∧ (Balanced r'.inputbuffer ↔ r.Keeps d) ∧
      (r.Keeps d → Valid r'.inputbuffer) := by
  obtain ⟨b, happend, hb, -⟩ := append_ok hv d.chunk
  obtain ⟨rq', b', parsed, hparse, hbalanced, hvalid⟩ := parse_balanced d.services hb
  have hkeeps : r.Keeps d ↔ KeepsReadPos b := by
    constructor
    · exact fun h => h b happend
    · intro h b₂ hb₂
      obtain rfl : b = b₂ := Except.ok.inj (happend.symm.trans hb₂)
      exact h
  refine ⟨b, { request := rq', inputbuffer := b' }, parsed, happend, hb, ?_,
    hbalanced.trans hkeeps.symm, fun h => hvalid (hkeeps.mp h)⟩
  simp only [receive, happend, hparse, bind, Except.bind, pure, Except.pure]

theorem step_valid : Lib.Preserves step Keeps fun r => Valid r.inputbuffer := by
  intro r d r' hv hk hs
  obtain ⟨b, r₁, parsed, -, -, hreceive, -, hvalid⟩ := receive_ok hv d
  rw [step, hreceive] at hs
  cases hs
  exact hvalid hk

/-- What `consumeBytes` takes off `total_size_` is there, and the block that
`readLine` starts in reaches up to the read position. -/
structure NoWrap (b : BufferBlock) : Prop extends Balanced b where
  consumed : ∀ n, (consumeLoop n b.blocks b.readPos 0).2.2 ≤ b.totalSize

theorem noWrap_of_repr {b : BufferBlock} (hr : Repr b) : NoWrap b := by
  refine ⟨hr.balanced, fun n => ?_⟩
  rw [consumeLoop_ok hr.sizes hr.read (Nat.zero_le n), hr.total]
  simp only [Nat.zero_add]
  exact Nat.min_le_right _ _

/-- Every sequence of deliveries, as long as each keeps its read position:
nothing faults, no counter wraps at any turn of the loop of `parse`, the
buffer is balanced after every `parse`, and one more delivery leaves it
balanced exactly if it keeps its read position, too. -/
theorem parsing_keeps_buffer {r : Receiver} (h : Lib.Reach step Keeps start r) :
    NoWrap r.inputbuffer ∧ ∀ d, ∃ b r' parsed, r.inputbuffer.append d.chunk = .ok b ∧
      (∀ rq₁ b₁, Visits d.services .init b rq₁ b₁ → NoWrap b₁) ∧
      r.receive d = .ok (r', parsed) ∧ (Balanced r'.inputbuffer ↔ r.Keeps d) := by
  have hv := h.invariant step_valid fresh_valid
  refine ⟨noWrap_of_repr hv.toRepr, fun d => ?_⟩
  obtain ⟨b, r', parsed, happend, hb, hreceive, hbalanced, -⟩ := receive_ok hv d
  exact ⟨b, r', parsed, happend, fun _ _ hvisit => noWrap_of_repr (hvisit.repr hb.toRepr), hreceive,
    hbalanced⟩

theorem parsing_keeps_buffer_example : ∃ r, Lib.Reach step Keeps start r ∧
    NoWrap r.inputbuffer ∧ ∃ r' parsed, r.receive ⟨bytes "T /", .none⟩ = .ok (r', parsed) ∧
      (Balanced r'.inputbuffer ↔ r.Keeps ⟨bytes "T /", .none⟩) := by
  have hkeeps : start.Keeps ⟨bytes "GE", .none⟩ := by
    intro b happend
    obtain ⟨b₂, happend₂, -, hc⟩ := append_ok fresh_valid (bytes "GE")
    obtain rfl : b₂ = b := Except.ok.inj (happend₂.symm.trans happend)
    refine keepsReadPos_of_noLine (lineOf_noCr ?_)
    rw [hc, fresh_content]
    decide
  have hstart : Valid start.inputbuffer := fresh_valid
  obtain ⟨-, r, parsed, -, -, hreceive, -, -⟩ := receive_ok hstart ⟨bytes "GE", .none⟩
  have hstep : step start ⟨bytes "GE", .none⟩ = .ok r := by rw [step, hreceive]; rfl
  have hreach : Lib.Reach step Keeps start r := .next .start hkeeps hstep
  obtain ⟨hwrap, hnext⟩ := parsing_keeps_buffer hreach
  obtain ⟨-, r', parsed, -, -, hreceive, hbalanced⟩ := hnext ⟨bytes "T /", .none⟩
  exact ⟨r, hreach, hwrap, r', parsed, hreceive, hbalanced⟩

def counters (r : Receiver × Bool) : Bool × Nat × Nat × List Nat :=
  (r.2, r.1.inputbuffer.totalSize, r.1.inputbuffer.readPos, r.1.inputbuffer.blocks.map Block.size)

/-- A chunk that ends within a header line: `parse` asks for more, with two
bytes left of a block of eighteen that it will read from its start again. -/
theorem unbalanced_after_header :
    ∃ r', start.receive ⟨bytes "GET / HTTP/1.1\r\nHo", .none⟩ = .ok (r', false) ∧
      r'.inputbuffer.totalSize = 2 ∧ r'.inputbuffer.readPos = 0 ∧
      r'.inputbuffer.blocks.map Block.size = [18] ∧ ¬Balanced r'.inputbuffer := by
  have hcounters : (start.receive ⟨bytes "GET / HTTP/1.1\r\nHo", .none⟩).toOption.map counters =
      some (false, 2, 0, [18]) := by decide +kernel
  obtain ⟨⟨r', parsed⟩, hreceive, hview⟩ := view_ok counters hcounters
  simp only [counters, Prod.mk.injEq] at hview
  obtain ⟨rfl, htotal, hread, hsizes⟩ := hview
  refine ⟨r', hreceive, htotal, hread, hsizes, fun h => ?_⟩
  have hsum := h.total
  rw [htotal, hread, hsizes] at hsum
  exact absurd hsum (by decide)

end Receiver

end MudouHttp
