import MudouHttp.Http.Delivery
import MudouHttp.Http.RoundTrip

/-!
# Requests behind a request

Where a request ends is decided by how many bytes the buffer holds: the blank
line ends it only if nothing follows, and everything that does is its body.
So `parse` never succeeds with an empty body and bytes left
(`Parses.takes_all`), and a request without a body takes the next one with it
(`requests_not_separate`).
-/

namespace MudouHttp

open BufferBlock (Valid)
open RequestText

variable {svc : Services}

-- ---------------------------------------------------------------------------
-- What parse leaves
-- ---------------------------------------------------------------------------

/-- Two bytes hold no line but the blank one. -/
theorem lineBytes_short (hc : c.length ≤ 2) (hn : (lineOf c).1 ≠ 0) : c.drop (lineBytes c) = [] := by
  rw [lineOf_twoBytes hc hn]
  decide

/-- A turn that completes the request has read a body, or was the last. -/
theorem HttpRequest.accept_finish {rq : HttpRequest} (hc : c ≠ []) (hs : rq.state ≠ .finish)
    (hn : (rq.input c).1 ≠ 0) (ha : rq.accept svc (rq.input c).2 c.length = some rq₁)
    (hfinish : rq₁.state = .finish) : rq₁.body ≠ [] ∨ c.drop (toSize (rq.input c).1) = [] := by
  cases hstate : rq.state with
  | requestLine =>
    rw [accept_requestLine_state hstate ha] at hfinish
    cases hfinish
  | headers =>
    rw [input_line (by simp [hstate])] at hn ha ⊢
    rcases accept_headers_cases hstate ha with ⟨hlen, -⟩ | ⟨-, -, hnext⟩ | ⟨-, -, hnext⟩
    · exact .inr (lineBytes_short hlen hn)
    · rw [hnext] at hfinish
      cases hfinish
    · rw [hnext] at hfinish
      cases hfinish
  | body =>
    rw [input_rest hstate] at ha
    simp only [accept, hstate, Option.some.injEq] at ha
    subst ha
    exact .inl ((parseBody_keeps svc rq c).2.body ▸ hc)
  | finish => exact absurd hstate hs
  | error =>
    simp only [accept, hstate, Option.some.injEq] at ha
    rw [← ha, hstate] at hfinish
    cases hfinish

theorem Parses.takes_all (h : Parses svc rq c .done rq' k)
    (hstart : rq.state = .finish → rq.body ≠ [] ∨ c = []) : rq'.body ≠ [] ∨ c.drop k = [] := by
  generalize ho : Outcome.done = o at h
  induction h with
  | done hfin =>
    rcases hfin with hc | hs
    · exact .inr hc
    · exact hstart hs
  | brokenOff => cases ho
  | rejected => cases ho
  | next hc hs hn ha _ ih =>
    rw [← List.drop_drop]
    exact ih (HttpRequest.accept_finish hc hs hn ha) ho

theorem parse_takes_all {b b' : BufferBlock} (hb : Valid b)
    (h : HttpRequest.init.parse svc b = .ok (rq', b', true)) : rq'.body ≠ [] ∨ b'.content = [] := by
  have hr := hb.toRepr
  by_cases hc : b.content = []
  · rw [HttpRequest.parse, if_pos (by rw [BufferBlock.readableBytes, hr.total, hc]; rfl)] at h
    cases h
  · obtain ⟨o, rq₁, k, hp⟩ := Parses.exists svc .init b.content
    rw [HttpRequest.parse_ok hr hc hp] at h
    cases o with
    | done =>
      cases h
      rw [BufferBlock.consumeBytes_content hr]
      exact hp.takes_all (by rintro ⟨⟩)
    | brokenOff => cases h
    | rejected => cases h

-- ---------------------------------------------------------------------------
-- A request and what is behind it
-- ---------------------------------------------------------------------------

structure IsParsed (t : RequestText) (rq : HttpRequest) : Prop where
  method : rq.method = t.method
  path : rq.path = HttpRequest.parsedPath t.target
  version : rq.version = t.version
  body : rq.body = t.body
  header : rq.header = afterBody (stored (fun _ => none) t.headers) t.body

/-- `Init` and `parse` take one request and leave what is behind it. -/
def Separates (svc : Services) (b : BufferBlock) (t : RequestText) (rest : Bytes) : Prop :=
  ∃ rq' b', HttpRequest.init.parse svc b = .ok (rq', b', true) ∧ IsParsed t rq' ∧ b'.content = rest

def RequestText.withBody (t : RequestText) (body : Bytes) : RequestText := { t with body := body }

theorem serialise_withBody {t : RequestText} (hbody : t.body = []) (rest : Bytes) :
    (t.withBody rest).serialise = t.serialise ++ rest := by
  unfold serialise
  rw [hbody]
  simp only [withBody, requestLine, List.append_assoc, List.append_nil]

/-- Whatever is behind a request without a body, it is never left in the buffer:
`parse` fails, or takes it for the body. The latter below 2 GB. -/
theorem requests_not_separate (svc : Services) {t : RequestText} (ht : t.WellFormed)
    (hbody : t.body = []) {b : BufferBlock} (hb : Valid b) (hrest : rest ≠ [])
    (hc : b.content = t.serialise ++ rest) :
    ¬Separates svc b t rest ∧
      (b.content.length < 2 ^ 31 → Separates svc b (t.withBody rest) []) := by
  constructor
  · rintro ⟨rq', b', hparse, hparsed, hleft⟩
    rcases parse_takes_all hb hparse with hne | hempty
    · exact hne (hparsed.body.trans hbody)
    · exact hrest (hleft.symm.trans hempty)
  · intro hlen
    have hr := hb.toRepr
    rw [← serialise_withBody hbody] at hc
    have ht' : (t.withBody rest).WellFormed := ⟨ht.method, ht.target, ht.version, ht.headers⟩
    obtain ⟨rq', hp, -, hmethod, hpath, hversion, hbody', hheader⟩ :=
      parses_serialise svc ht' (hc ▸ hlen)
    have hne : b.content ≠ [] := by
      rw [hc]
      simp [serialise, crlf]
    rw [← hc] at hp
    refine ⟨rq', b.consumeBytes b.content.length, HttpRequest.parse_ok hr hne hp,
      ⟨hmethod, hpath, hversion, hbody', hheader⟩, ?_⟩
    rw [BufferBlock.consumeBytes_content hr, List.drop_length]

def held (s : Bytes) : BufferBlock :=
  { blocks := [{ data := s, size := s.length, capacity := s.length, room := rfl }]
    totalSize := s.length, readPos := 0, writePos := s.length, checkPos := 0 }

theorem held_valid (s : Bytes) : Valid (held s) := by
  refine ⟨⟨fun blk hmem => ?_, Nat.zero_le _, ?_⟩, fun blk hlast => ?_⟩
  · rw [List.mem_singleton.mp hmem]
  · simp [held, BufferBlock.content, BufferBlock.queued, Block.bytes]
  · cases hlast
    rfl

theorem held_content (s : Bytes) : (held s).content = s := by
  simp [held, BufferBlock.content, BufferBlock.queued, Block.bytes]

def index : RequestText :=
  { method := bytes "GET", target := bytes "/index", version := bytes "1.1"
    headers := [(bytes "Host", bytes " a")], body := [] }

theorem index_wellFormed : index.WellFormed :=
  { method := by unfold Token; decide
    target := by unfold Token; decide
    version := by unfold Token; decide
    headers := by unfold HeaderField; decide +kernel }

theorem requests_not_separate_example :
    ¬Separates .none (held (index.serialise ++ bytes "GET /login HTTP/1.1\r\n\r\n")) index
      (bytes "GET /login HTTP/1.1\r\n\r\n") :=
  (requests_not_separate .none index_wellFormed rfl (held_valid _) (by decide) (held_content _)).1

/-- The second request is the body of the first. -/
theorem request_swallowed : ∃ rq' b',
    HttpRequest.init.parse .none (held (index.serialise ++ bytes "GET /login HTTP/1.1\r\n\r\n")) =
      .ok (rq', b', true) ∧
    rq'.path = bytes "/index.html" ∧ rq'.body = bytes "GET /login HTTP/1.1\r\n\r\n" ∧
    b'.readableBytes = 0 ∧
    ¬Separates .none (held (index.serialise ++ bytes "GET /login HTTP/1.1\r\n\r\n")) index
      (bytes "GET /login HTTP/1.1\r\n\r\n") := by
  let view (r : HttpRequest × BufferBlock × Bool) : Bytes × Bytes × Nat × Bool :=
    (r.1.path, r.1.body, r.2.1.readableBytes, r.2.2)
  have hrun : (HttpRequest.init.parse .none
      (held (index.serialise ++ bytes "GET /login HTTP/1.1\r\n\r\n"))).toOption.map view =
      some (bytes "/index.html", bytes "GET /login HTTP/1.1\r\n\r\n", 0, true) := by
    decide +kernel
  obtain ⟨⟨rq', b', parsed⟩, hparse, hview⟩ := view_ok view hrun
  simp only [view, Prod.mk.injEq] at hview
  obtain ⟨hpath, hbody, hread, rfl⟩ := hview
  refine ⟨rq', b', hparse, hpath, hbody, hread, ?_⟩
  rintro ⟨rq₂, b₂, hparse₂, hparsed, -⟩
  cases hparse.symm.trans hparse₂
  rw [hparsed.body] at hbody
  exact absurd hbody (by decide)

end MudouHttp
