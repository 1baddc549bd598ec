import MudouHttp.Http.Delivery
import MudouHttp.Http.RoundTrip

/-!
# A request delivered in chunks

A request that arrives in several chunks is parsed as if it came in one
exactly if every cut lies before the end of its request line
(`split_iff`): up to there nothing is consumed, and the parse of the next
chunk starts over with all of it.
-/

namespace MudouHttp

open BufferBlock HttpRequest RequestText

-- ---------------------------------------------------------------------------
-- Parsing with other services
-- ---------------------------------------------------------------------------

theorem HttpRequest.accept_services {rq : HttpRequest} (hs : rq.state ≠ .body)
    (svc svc' : Services) : rq.accept svc line n = rq.accept svc' line n := by
  cases h : rq.state with
  | body => exact absurd h hs
  | requestLine => simp only [accept, h]
  | headers => simp only [accept, h]
  | finish => simp only [accept, h]
  | error => simp only [accept, h]

theorem Parses.services (h : Parses svc rq c o rq' k) (svc' : Services) :
    ∃ rq₂, Parses svc' rq c o rq₂ k ∧ Alike rq' rq₂ := by
  induction h with
  | done hfin => exact ⟨_, .done hfin, .refl _⟩
  | brokenOff hc hs hz => exact ⟨_, .brokenOff hc hs hz, .refl _⟩
  | @rejected c rq hc hs hn ha =>
    have hb : rq.state ≠ .body := by
      intro hb
      simp only [accept, hb, reduceCtorEq] at ha
    exact ⟨_, .rejected hc hs hn (accept_services hb svc svc' ▸ ha), .refl _⟩
  | @next c rq₁ o rq' k rq hc hs hn ha hp ih =>
    by_cases hb : rq.state = .body
    · simp only [accept, hb, Option.some.injEq] at ha
      subst ha
      obtain ⟨rfl, rfl, rfl⟩ := hp.finished rfl
      have ha : rq.accept svc' (rq.input c).2 c.length = some (rq.parseBody svc' (rq.input c).2) := by
        simp only [accept, hb]
      refine ⟨_, .next hc hs hn ha (.done (.inr rfl)), ?_⟩
      exact (parseBody_keeps svc rq _).2.symm.trans (parseBody_keeps svc' rq _).2
    · obtain ⟨rq₂, hp₂, halike⟩ := ih
      exact ⟨rq₂, .next hc hs hn (accept_services hb svc svc' ▸ ha) hp₂, halike⟩

theorem HttpRequest.accept_past {rq : HttpRequest} (hs : rq.state ≠ .requestLine)
    (svc : Services) (line : Bytes) (n : Nat) :
    ∃ rq₁, rq.accept svc line n = some rq₁ ∧ rq₁.state ≠ .requestLine := by
  have hheader : (rq.parseHeader line).state ≠ .requestLine := by
    by_cases h : IsHeader line
    · rwa [parseHeader_state rq h]
    · simp [parseHeader_other rq h]
  cases h : rq.state with
  | requestLine => exact absurd h hs
  | headers =>
    simp only [accept, h]
    refine ⟨_, rfl, ?_⟩
    split
    · simp
    · exact hheader
  | body =>
    refine ⟨rq.parseBody svc line, by simp only [accept, h], ?_⟩
    simp [(parseBody_keeps svc rq line).1]
  | finish => exact ⟨rq, by simp only [accept, h], hs⟩
  | error => exact ⟨rq, by simp only [accept, h], hs⟩

theorem Parses.not_rejected (h : Parses svc rq c o rq' k) (hs : rq.state ≠ .requestLine) :
    o ≠ .rejected := by
  induction h with
  | done => decide
  | brokenOff => decide
  | @rejected c rq _ _ _ ha =>
    obtain ⟨rq₁, ha₁, -⟩ := accept_past hs svc (rq.input c).2 c.length
    cases ha.symm.trans ha₁
  | @next c rq₁ o rq' k rq _ _ _ ha _ ih =>
    obtain ⟨rq₂, ha₂, hs₂⟩ := accept_past hs svc (rq.input c).2 c.length
    obtain rfl : rq₁ = rq₂ := Option.some.inj (ha.symm.trans ha₂)
    exact ih hs₂

theorem Parses.consumes (h : Parses svc .init c o rq' k) (hn : (lineOf c).1 ≠ 0)
    (hline : IsRequestLine (lineOf c).2) : 0 < k ∧ o ≠ .rejected := by
  have hs : HttpRequest.init.state = .requestLine := rfl
  obtain ⟨rq₁, ha₁⟩ := (accept_requestLine svc hs c.length).mpr hline
  cases h with
  | done hfin =>
    rcases hfin with hc | hfin
    · exact absurd hc (ne_nil_of_line hn)
    · cases hfin
  | brokenOff _ _ hz => exact absurd hz hn
  | rejected _ _ _ ha => cases ha.symm.trans ha₁
  | next _ _ hn ha hp =>
    refine ⟨Nat.add_pos_left (input_pos hn) _, hp.not_rejected ?_⟩
    simp [accept_requestLine_state hs ha]

-- ---------------------------------------------------------------------------
-- Lines of a prefix
-- ---------------------------------------------------------------------------

theorem lineOf_append (h : (lineOf p).1 ≠ 0) (rest : Bytes) : lineOf (p ++ rest) = lineOf p := by
  have hfound : (Scan.start.run p).2 = true := by
    unfold lineOf at h
    generalize Scan.start.run p = r at h ⊢
    obtain ⟨sc, found⟩ := r
    cases found with
    | true => rfl
    | false => exact absurd rfl h
  rw [lineOf, lineOf, Scan.run_append, if_pos hfound]

theorem lineOf_short {t : RequestText} (ht : t.WellFormed) (hp : p ++ rest = t.serialise)
    (hlen : p.length < t.requestLine.length + 2) : (lineOf p).1 = 0 := by
  have htake : p = t.serialise.take p.length := by rw [← hp, List.take_left]
  rcases Nat.lt_or_ge t.requestLine.length p.length with hlt | hge
  · have hone : p.length = t.requestLine.length + 1 := by omega
    have hcr : p = t.requestLine ++ [13] := by
      rw [htake, hone, serialise, List.take_length_add_append]
      rfl
    rw [hcr]
    exact lineOf_cr (requestLine_noCr ht)
  · rw [htake, serialise, List.take_append_of_le_length hge]
    exact lineOf_noCr fun hmem => requestLine_noCr ht (List.mem_of_mem_take hmem)

theorem lineOf_serialise {t : RequestText} (ht : t.WellFormed) :
    lineOf t.serialise = (toInt (t.requestLine.length + 2), t.requestLine) :=
  lineOf_crlf (requestLine_noCr ht) _

theorem lineOf_long {t : RequestText} (ht : t.WellFormed) (hp : p ++ rest = t.serialise)
    (hlen : t.requestLine.length + 2 ≤ p.length) :
    lineOf p = (toInt (t.requestLine.length + 2), t.requestLine) := by
  have hsplit : p = t.requestLine ++ 13 :: 10 :: p.drop (t.requestLine.length + 2) := by
    have htake : p.take (t.requestLine.length + 2) = t.requestLine ++ crlf := by
      have hpre : p.take (t.requestLine.length + 2) =
          t.serialise.take (t.requestLine.length + 2) := by
        rw [← hp, List.take_append_of_le_length hlen]
      rw [hpre, serialise, List.take_length_add_append]
      rfl
    calc p = p.take (t.requestLine.length + 2) ++ p.drop (t.requestLine.length + 2) :=
          (List.take_append_drop _ _).symm
      _ = t.requestLine ++ crlf ++ p.drop (t.requestLine.length + 2) := by rw [htake]
      _ = t.requestLine ++ 13 :: 10 :: p.drop (t.requestLine.length + 2) :=
          List.append_assoc _ crlf _
  rw [hsplit]
  exact lineOf_crlf (requestLine_noCr ht) _

theorem isRequestLine {t : RequestText} (ht : t.WellFormed) : IsRequestLine t.requestLine :=
  ⟨_, _, _, fullMatch_requestLine ht⟩

-- ---------------------------------------------------------------------------
-- One delivery
-- ---------------------------------------------------------------------------

theorem Block.read_length {blk : Block} (h : blk.read pos n = .ok chunk) : chunk.length ≤ n := by
  unfold Block.read at h
  split at h
  · cases h
    exact List.length_take_le _ _
  · cases h

theorem BufferBlock.peekLoop_length (hc : copied.length ≤ n)
    (h : peekLoop n blks pos copied = .ok dest) : dest.length ≤ n := by
  induction blks generalizing pos copied with
  | nil =>
    cases h
    exact hc
  | cons blk rest ih =>
    unfold peekLoop at h
    split at h
    · cases h
      exact hc
    · obtain ⟨chunk, hread, hrest⟩ := bind_ok h
      have hchunk := Block.read_length hread
      refine ih ?_ hrest
      rw [List.length_append]
      omega

theorem BufferBlock.bufferToString_length {b : BufferBlock} (h : b.bufferToString = .ok s) :
    s.length = b.totalSize := by
  obtain ⟨dest, hpeek, hs⟩ := bind_ok h
  have hdest : dest.length ≤ b.totalSize := by
    unfold peekFromBlock at hpeek
    split at hpeek
    · cases hpeek
      exact Nat.zero_le _
    · split at hpeek
      · cases hpeek
        exact Nat.zero_le _
      · exact peekLoop_length (Nat.zero_le _) hpeek
  cases hs
  rw [List.length_append, List.length_replicate, readableBytes]
  omega

/-- What a delivery leaves is what `Parses` says of all bytes received. -/
theorem Receiver.receive_parses {r : Receiver} (hv : Valid r.inputbuffer) (d : Delivery)
    (hne : r.inputbuffer.content ++ d.chunk ≠ [])
    (hp : Parses d.services .init (r.inputbuffer.content ++ d.chunk) o rq' k) :
    ∃ b, Valid b ∧ b.content = r.inputbuffer.content ++ d.chunk ∧
      r.receive d = .ok ({ request := rq'
                           inputbuffer := (o.leaves b.readPos (b.consumeBytes k)).1 },
        (o.leaves b.readPos (b.consumeBytes k)).2) := by
  obtain ⟨b, happend, hb, hc⟩ := append_ok hv d.chunk
  have hparse := parse_ok hb.toRepr (hc ▸ hne) (hc ▸ hp)
  refine ⟨b, hb, hc, ?_⟩
  simp only [receive, happend, hparse, bind, Except.bind, pure, Except.pure]

theorem Receiver.receive_noLine {r : Receiver} (hv : Valid r.inputbuffer) (d : Delivery)
    (hne : d.chunk ≠ []) (hz : (lineOf (r.inputbuffer.content ++ d.chunk)).1 = 0) :
    ∃ r', r.receive d = .ok (r', false) ∧ Valid r'.inputbuffer ∧
      r'.inputbuffer.content = r.inputbuffer.content ++ d.chunk := by
  have hp : Parses d.services .init (r.inputbuffer.content ++ d.chunk) .brokenOff .init 0 :=
    .brokenOff (by simp [hne]) (by decide) hz
  obtain ⟨b, hb, hc, hreceive⟩ := receive_parses hv d (by simp [hne]) hp
  exact ⟨{ request := .init, inputbuffer := b }, hreceive, hb, hc⟩

/-- The request line is complete: `parse` succeeds, or has lost part of it. -/
theorem Receiver.receive_line {r r' : Receiver} (hv : Valid r.inputbuffer) {d : Delivery}
    (hne : d.chunk ≠ []) (hn : (lineOf (r.inputbuffer.content ++ d.chunk)).1 ≠ 0)
    (hline : IsRequestLine (lineOf (r.inputbuffer.content ++ d.chunk)).2)
    (hreceive : r.receive d = .ok (r', false)) :
    r'.inputbuffer.bufferToString ≠ .ok (r.inputbuffer.content ++ d.chunk) := by
  obtain ⟨o, rq', k, hp⟩ := Parses.exists d.services .init (r.inputbuffer.content ++ d.chunk)
  obtain ⟨hk, hrejected⟩ := hp.consumes hn hline
  obtain ⟨b, hb, hc, hreceive₂⟩ := receive_parses hv d (by simp [hne]) hp
  obtain ⟨hr', hfalse⟩ := Prod.mk.inj (Except.ok.inj (hreceive.symm.trans hreceive₂))
  cases o with
  | done => cases hfalse
  | rejected => exact absurd rfl hrejected
  | brokenOff =>
    intro hread
    have htotal : r'.inputbuffer.totalSize = (b.content.drop k).length := by
      rw [hr', ← consumeBytes_content hb.toRepr]
      exact (consumeBytes_repr hb.toRepr k).total
    have hshort := drop_shorter (hc ▸ ne_nil_of_line hn : b.content ≠ []) (Nat.ne_of_gt hk)
    rw [← htotal, hc, bufferToString_length hread] at hshort
    exact absurd hshort (Nat.lt_irrefl _)

-- ---------------------------------------------------------------------------
-- All deliveries
-- ---------------------------------------------------------------------------

def received (ds : List Delivery) : Bytes := ds.flatMap Delivery.chunk

/-- Each delivery but the last asks for more and leaves all of `got` and its
own chunk readable; the last one completes the request that `whole` is. -/
def Delivered (whole : HttpRequest) : Receiver → Bytes → List Delivery → Prop
  | _, _, [] => True
  | r, _, [d] => ∃ r', r.receive d = .ok (r', true) ∧ Alike whole r'.request
  | r, got, d :: d' :: ds => ∃ r', r.receive d = .ok (r', false) ∧
      r'.inputbuffer.bufferToString = .ok (got ++ d.chunk) ∧
      Delivered whole r' (got ++ d.chunk) (d' :: ds)

theorem unbroken_iff {t : RequestText} (ht : t.WellFormed)
    (hp : Parses svc .init t.serialise o whole k) :
    o = .done ↔ ¬∃ k, BreaksOff t.serialise k := by
  constructor
  · rintro rfl ⟨j, hj⟩
    obtain ⟨rq₂, hp₂⟩ := (breaksOff_iff svc _ j).mpr hj
    cases (hp.unique hp₂).1
  · intro hbroken
    have hn : (lineOf t.serialise).1 ≠ 0 := by
      intro hz
      refine hbroken ⟨0, .line ?_ hz⟩
      simp [serialise, crlf]
    cases o with
    | done => rfl
    | brokenOff => exact absurd ⟨k, (breaksOff_iff svc _ k).mp ⟨_, hp⟩⟩ hbroken
    | rejected =>
      refine absurd rfl (hp.consumes hn ?_).2
      rw [lineOf_serialise ht]
      exact isRequestLine ht

theorem last_iff {t : RequestText} (ht : t.WellFormed) {r : Receiver} (hv : Valid r.inputbuffer)
    (hne : d.chunk ≠ []) (htext : r.inputbuffer.content ++ d.chunk = t.serialise)
    (hp : Parses svc .init t.serialise o whole k) :
    (∃ r', r.receive d = .ok (r', true) ∧ Alike whole r'.request) ↔
      ¬∃ k, BreaksOff t.serialise k := by
  obtain ⟨rq', hp', halike⟩ := hp.services d.services
  obtain ⟨b, -, -, hreceive⟩ := r.receive_parses hv d (by simp [hne]) (htext ▸ hp')
  rw [← unbroken_iff ht hp]
  constructor
  · rintro ⟨r', hr', -⟩
    have htrue := (Prod.mk.inj (Except.ok.inj (hreceive.symm.trans hr'))).2
    cases o with
    | done => rfl
    | brokenOff => cases htrue
    | rejected => cases htrue
  · rintro rfl
    exact ⟨_, hreceive, halike⟩

theorem delivered_iff {t : RequestText} (ht : t.WellFormed) {r : Receiver}
    (hv : Valid r.inputbuffer) (hds : ds ≠ []) (hchunks : ∀ d ∈ ds, d.chunk ≠ [])
    (hz : (lineOf r.inputbuffer.content).1 = 0)
    (htext : r.inputbuffer.content ++ received ds = t.serialise)
    (hp : Parses svc .init t.serialise o whole k) :
    Delivered whole r r.inputbuffer.content ds ↔
      (lineOf (r.inputbuffer.content ++ received ds.dropLast)).1 = 0 ∧
        ¬∃ k, BreaksOff t.serialise k := by
  induction ds generalizing r with
  | nil => exact absurd rfl hds
  | cons d ds ih =>
    obtain ⟨hd, hchunks⟩ := List.forall_mem_cons.mp hchunks
    cases ds with
    | nil =>
      simp only [received, List.flatMap_cons, List.flatMap_nil, List.append_nil] at htext
      simp only [received, List.dropLast_singleton, List.flatMap_nil, List.append_nil, hz, true_and]
      exact last_iff ht hv hd htext hp
    | cons d' ds =>
      have hrest : received (d :: d' :: ds) = d.chunk ++ received (d' :: ds) := rfl
      have hdrop : received (d :: d' :: ds).dropLast = d.chunk ++ received (d' :: ds).dropLast := rfl
      rw [hrest, ← List.append_assoc] at htext
      rw [hdrop, ← List.append_assoc]
      by_cases hz' : (lineOf (r.inputbuffer.content ++ d.chunk)).1 = 0
      · obtain ⟨r', hreceive, hv', hc'⟩ := r.receive_noLine hv d hd hz'
        rw [← hc'] at hz' htext ⊢
        rw [← ih hv' (by simp) hchunks hz' htext]
        constructor
        · rintro ⟨r₂, hreceive₂, -, hmore⟩
          obtain ⟨rfl, -⟩ := Prod.mk.inj (Except.ok.inj (hreceive.symm.trans hreceive₂))
          rwa [← hc'] at hmore
        · intro hmore
          exact ⟨r', hreceive, hc' ▸ bufferToString_ok hv'.toRepr, by rwa [← hc']⟩
      · have hline : IsRequestLine (lineOf (r.inputbuffer.content ++ d.chunk)).2 := by
          rw [← lineOf_append hz' (received (d' :: ds)), htext, lineOf_serialise ht]
          exact isRequestLine ht
        refine iff_of_false ?_ (fun h => hz' (lineOf_append hz' _ ▸ h.1))
        rintro ⟨r', hreceive, hread, -⟩
        exact r.receive_line hv hd hz' hline hreceive hread

theorem unbroken_of_lt {t : RequestText} (ht : t.WellFormed) (hlen : t.serialise.length < 2 ^ 31) :
    ¬∃ k, BreaksOff t.serialise k := by
  obtain ⟨rq', hp, -⟩ := parses_serialise .none ht hlen
  exact (unbroken_iff ht hp).mp rfl

/-- For every well-formed request and every way to cut it into chunks: the
chunks are parsed as the whole is, with nothing lost on the way, exactly if
those before the last one end before the request line does and the whole does
not break off, which it never does below 2^31 bytes (`unbroken_of_lt`). -/
theorem split_iff {t : RequestText} (ht : t.WellFormed) (svc : Services) {ds : List Delivery}
    (hchunks : ∀ d ∈ ds, d.chunk ≠ []) (htext : received ds = t.serialise) :
    (∃ whole parsed, Receiver.start.receive ⟨t.serialise, svc⟩ = .ok (whole, parsed) ∧
      Delivered whole.request .start [] ds) ↔
      (received ds.dropLast).length < t.requestLine.length + 2 ∧
        ¬∃ k, BreaksOff t.serialise k := by
  have hv : Valid Receiver.start.inputbuffer := fresh_valid
  have hc : Receiver.start.inputbuffer.content = [] := fresh_content
  have hne : t.serialise ≠ [] := by simp [serialise, crlf]
  have hds : ds ≠ [] := by
    rintro rfl
    exact hne htext.symm
  obtain ⟨o, whole, k, hp⟩ := Parses.exists svc .init t.serialise
  obtain ⟨b, -, -, hwhole⟩ := Receiver.start.receive_parses hv ⟨t.serialise, svc⟩ hne
    (by rw [hc]; exact hp)
  have hiff := delivered_iff ht hv hds hchunks (by rw [hc]; rfl) (by rw [hc]; exact htext) hp
  rw [hc] at hiff
  have hcut : received ds.dropLast ++ (ds.getLast hds).chunk = t.serialise := by
    have hlast := congrArg received (List.dropLast_append_getLast hds)
    rw [← htext, ← hlast]
    simp [received]
  have hshort : ¬(∃ k, BreaksOff t.serialise k) → ((lineOf (received ds.dropLast)).1 = 0 ↔
      (received ds.dropLast).length < t.requestLine.length + 2) := by
    intro hunbroken
    refine ⟨fun hz => ?_, lineOf_short ht hcut⟩
    refine Nat.lt_of_not_le fun hlong => hunbroken ⟨0, .line hne ?_⟩
    rw [lineOf_serialise ht]
    rwa [lineOf_long ht hcut hlong] at hz
  constructor
  · rintro ⟨r, parsed, hr, hdelivered⟩
    obtain ⟨rfl, -⟩ := Prod.mk.inj (Except.ok.inj (hr.symm.trans hwhole))
    obtain ⟨hz, hunbroken⟩ := hiff.mp hdelivered
    exact ⟨(hshort hunbroken).mp hz, hunbroken⟩
  · rintro ⟨hlen, hunbroken⟩
    exact ⟨_, _, hwhole, hiff.mpr ⟨(hshort hunbroken).mpr hlen, hunbroken⟩⟩

def welcome : RequestText :=
  { method := bytes "GET", target := bytes "/", version := bytes "1.1"
    headers := [(bytes "Host", bytes " a")], body := [] }

theorem welcome_wellFormed : welcome.WellFormed :=
  { method := by unfold Token; decide
    target := by unfold Token; decide
    version := by unfold Token; decide
    headers := by unfold HeaderField; decide +kernel }

theorem split_iff_example :
    let ds : List Delivery := [⟨bytes "GET / H", .none⟩, ⟨bytes "TTP/1.1\r\nHost: a\r\n\r\n", .none⟩]
    ∃ whole parsed, Receiver.start.receive ⟨welcome.serialise, .none⟩ = .ok (whole, parsed) ∧
      Delivered whole.request .start [] ds :=
  (split_iff welcome_wellFormed .none (by decide) (by decide)).mpr
    ⟨by decide, unbroken_of_lt welcome_wellFormed (by decide)⟩

/-- A request cut within a header line is not what was sent. -/
theorem split_in_header :
    let ds : List Delivery := [⟨bytes "GET / HTTP/1.1\r\nHo", .none⟩, ⟨bytes "st: a\r\n\r\n", .none⟩]
    welcome.WellFormed ∧ received ds = welcome.serialise ∧ (∀ d ∈ ds, d.chunk ≠ []) ∧
      ¬∃ whole parsed, Receiver.start.receive ⟨welcome.serialise, .none⟩ = .ok (whole, parsed) ∧
        Delivered whole.request .start [] ds := by
  refine ⟨welcome_wellFormed, by decide, by decide, ?_⟩
  rintro ⟨whole, parsed, -, r', hreceive, hread, -⟩
  have hc : Receiver.start.inputbuffer.content = [] := fresh_content
  refine Receiver.receive_line fresh_valid (by decide) ?_ ?_ hreceive (by rw [hc]; exact hread)
  · rw [hc]
    decide +kernel
  · rw [hc]
    exact isRequestLine welcome_wellFormed

end MudouHttp
