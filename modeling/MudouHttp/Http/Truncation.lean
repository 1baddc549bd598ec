import MudouHttp.Http.Pipelining

/-!
# Requests cut off

`parse` succeeds when the buffer is empty, whatever the state is then, and any
line that is no header ends the headers. So it also succeeds on a request that
breaks off at the end of a line, or has something else than a blank line behind
its headers: `parse_complete_iff` says on the bytes alone which these are.
-/

namespace MudouHttp

open BufferBlock (Valid)
open HttpRequest

-- ---------------------------------------------------------------------------
-- Heads of requests
-- ---------------------------------------------------------------------------

inductive HeadersEnd : Bytes → Nat → Prop
  | blank : (lineOf c).1 ≠ 0 → (lineOf c).2 = [] → HeadersEnd c (lineBytes c)
  | header : (lineOf c).1 ≠ 0 → IsHeader (lineOf c).2 → HeadersEnd (c.drop (lineBytes c)) k →
    HeadersEnd c (lineBytes c + k)

/-- Header lines, and then nothing, or a line that is neither a header nor
blank; not if the latter has a body behind it whose size is zero in an `int`. -/
inductive HeadersCut : Bytes → Prop
  | nothing : HeadersCut []
  | other : (lineOf c).1 ≠ 0 → (lineOf c).2 ≠ [] → ¬IsHeader (lineOf c).2 →
    c.drop (lineBytes c) = [] ∨ toInt (c.drop (lineBytes c)).length ≠ 0 → HeadersCut c
  | header : (lineOf c).1 ≠ 0 → IsHeader (lineOf c).2 → HeadersCut (c.drop (lineBytes c)) →
    HeadersCut c

def HeadEnds (c : Bytes) (k : Nat) : Prop :=
  (lineOf c).1 ≠ 0 ∧ IsRequestLine (lineOf c).2 ∧
    ∃ j, k = lineBytes c + j ∧ HeadersEnd (c.drop (lineBytes c)) j

/-- A request line, and headers that the blank line does not end. -/
structure Truncated (c : Bytes) : Prop where
  line : (lineOf c).1 ≠ 0
  requestLine : IsRequestLine (lineOf c).2
  headers : HeadersCut (c.drop (lineBytes c))

theorem blank_notHeader : ¬IsHeader [] := by
  rintro ⟨name, value, h⟩
  cases h

theorem HeadersEnd.not_cut (h : HeadersEnd c k) : ¬HeadersCut c := by
  induction h with
  | blank hn hblank =>
    intro hcut
    cases hcut with
    | nothing => exact hn rfl
    | other _ hne _ _ => exact hne hblank
    | header _ hh _ => exact blank_notHeader (hblank ▸ hh)
  | header hn hh _ ih =>
    intro hcut
    cases hcut with
    | nothing => exact hn rfl
    | other _ _ hno _ => exact hno hh
    | header _ _ hrest => exact ih hrest

-- ---------------------------------------------------------------------------
-- The blank line
-- ---------------------------------------------------------------------------

/-- What has been read of a line stays. -/
theorem Scan.run_line (sc : Scan) (s : Bytes) : sc.line <+: (sc.run s).1.line := by
  induction s generalizing sc with
  | nil => exact List.prefix_rfl
  | cons c s ih =>
    have hgrown : ∀ sc' : Scan, sc.line <+: sc'.line → sc.line <+: (sc'.run s).1.line :=
      fun sc' h => h.trans (ih sc')
    cases hs : sc.state with
    | reading =>
      simp only [Scan.run, hs]
      split
      · exact hgrown _ List.prefix_rfl
      · exact hgrown _ (List.prefix_append ..)
    | foundCr =>
      simp only [Scan.run, hs]
      split
      · exact List.prefix_rfl
      · exact hgrown _ (List.prefix_append ..)

theorem lineOf_snd (c : Bytes) : (lineOf c).2 = (Scan.start.run c).1.line := by
  unfold lineOf Scan.result
  split <;> simp_all

/-- A blank line is found only where a CRLF stands first. -/
theorem lineOf_blank (hn : (lineOf c).1 ≠ 0) (hblank : (lineOf c).2 = []) :
    ∃ rest, c = 13 :: 10 :: rest := by
  rw [lineOf_snd] at hblank
  have hgrown : ∀ (sc : Scan) (s : Bytes), Scan.start.run c = sc.run s → sc.line = [] := by
    intro sc s hrun
    exact List.prefix_nil.mp (hblank ▸ hrun ▸ sc.run_line s)
  match c with
  | [] => exact absurd rfl hn
  | x :: c =>
    by_cases hx : x = 13
    · subst hx
      match c with
      | [] => exact absurd rfl hn
      | y :: c =>
        by_cases hy : y = 10
        · exact ⟨c, by rw [hy]⟩
        · have hline := hgrown { state := .reading, line := [y], consumed := 2 } c
            (by simp [Scan.run, Scan.start, hy])
          cases hline
    · have hline := hgrown { state := .reading, line := [x], consumed := 1 } c
        (by simp [Scan.run, Scan.start, hx])
      cases hline

-- ---------------------------------------------------------------------------
-- parse, in the headers
-- ---------------------------------------------------------------------------

variable {svc : Services}

theorem Parses.headers_done (h : Parses svc rq c .done rq' k) (hs : rq.state = .headers) :
    HeadersCut c ∨ (rq'.state = .finish ∧ ∃ j, HeadersEnd c j ∧ j ≤ k) := by
  generalize ho : Outcome.done = o at h
  induction h with
  | done hfin =>
    rcases hfin with rfl | hfinish
    · exact .inl .nothing
    · cases hs.symm.trans hfinish
  | brokenOff => cases ho
  | rejected => cases ho
  | @next c rq₁ o rq' k rq hc _ hn ha hp ih =>
    subst ho
    have hin : rq.input c = lineOf c := input_line (by simp [hs]) c
    rw [hin] at hn ha hp ih ⊢
    rcases accept_headers_cases hs ha with ⟨hlen, hfinish⟩ | ⟨-, hh, hnext⟩ | ⟨hlen, hh, hnext⟩
    · obtain ⟨-, rfl, -⟩ := hp.finished hfinish
      have hblank : (lineOf c).2 = [] := by
        rw [lineOf_twoBytes hlen hn]
        decide
      exact .inr ⟨hfinish, _, .blank hn hblank, Nat.le_add_right _ _⟩
    · rcases ih hnext rfl with hcut | ⟨hfinish, j, hend, hj⟩
      · exact .inl (.header hn hh hcut)
      · exact .inr ⟨hfinish, _, .header hn hh hend, Nat.add_le_add_left hj _⟩
    · have hbody := hp.body_done hnext
      by_cases hblank : (lineOf c).2 = []
      · refine .inr ⟨?_, _, .blank hn hblank, Nat.le_add_right _ _⟩
        obtain ⟨rest, rfl⟩ := lineOf_blank hn hblank
        rcases hbody with ⟨hrest, -⟩ | ⟨-, rfl⟩
        · replace hrest : rest = [] := hrest
          rw [hrest] at hlen
          exact absurd hlen (by decide)
        · rfl
      · exact .inl (.other hn hblank hh (hbody.imp And.left And.left))

theorem HeadersCut.parses (h : HeadersCut c) (svc : Services) {rq : HttpRequest}
    (hs : rq.state = .headers) : ∃ rq' k, Parses svc rq c .done rq' k := by
  have hin : ∀ c, rq.input c = lineOf c := input_line (by simp [hs])
  induction h generalizing rq with
  | nothing => exact ⟨rq, 0, .done (.inl rfl)⟩
  | @other c hn hne hh hrest =>
    have ha : rq.accept svc (lineOf c).2 c.length = _ := accept_headers svc hs (more_of_line hn hne)
    have hstate : (rq.parseHeader (lineOf c).2).state = .body := parseHeader_other rq hh
    have hlast : ∃ rq' k, Parses svc (rq.parseHeader (lineOf c).2) (c.drop (lineBytes c)) .done rq' k := by
      by_cases hempty : c.drop (lineBytes c) = []
      · exact ⟨_, 0, .done (.inl hempty)⟩
      · exact ⟨_, _, RequestText.parses_rest svc hstate hempty (hrest.resolve_left hempty)⟩
    obtain ⟨rq', k, hp⟩ := hlast
    exact ⟨rq', _, .turn (hin c) (ne_nil_of_line hn) (by simp [hs]) hn ha hp⟩
  | @header c hn hh _ ih =>
    have hne : (lineOf c).2 ≠ [] := fun hblank => blank_notHeader (hblank ▸ hh)
    have ha : rq.accept svc (lineOf c).2 c.length = _ := accept_headers svc hs (more_of_line hn hne)
    have hstate := (parseHeader_state rq hh).trans hs
    obtain ⟨rq', k, hp⟩ := ih hstate (input_line (by simp [hstate]))
    exact ⟨rq', _, .turn (hin c) (ne_nil_of_line hn) (by simp [hs]) hn ha hp⟩

-- ---------------------------------------------------------------------------
-- parse
-- ---------------------------------------------------------------------------

structure Complete (c : Bytes) (rq' : HttpRequest) (left : Bytes) : Prop where
  state : rq'.state = .finish
  taken : ∃ k, HeadEnds c k ∧ left <:+ c.drop k

theorem Parses.complete (h : Parses svc .init c .done rq' k) (hc : c ≠ [])
    (hwhole : ¬Truncated c) : Complete c rq' (c.drop k) := by
  cases h with
  | done hfin =>
    rcases hfin with hempty | hfinish
    · exact absurd hempty hc
    · cases hfinish
  | next _ _ hn ha hp =>
    have hs : HttpRequest.init.state = .requestLine := rfl
    have hline := (accept_requestLine svc hs _).mp ⟨_, ha⟩
    rcases hp.headers_done (accept_requestLine_state hs ha) with hcut | ⟨hfinish, j, hend, hj⟩
    · exact absurd ⟨hn, hline, hcut⟩ hwhole
    · refine ⟨hfinish, _, ⟨hn, hline, j, rfl, hend⟩, ?_⟩
      exact List.drop_suffix_drop_left c (Nat.add_le_add_left hj _)

theorem Truncated.parses (h : Truncated c) (svc : Services) :
    ∃ rq' k, Parses svc .init c .done rq' k := by
  have hs : HttpRequest.init.state = .requestLine := rfl
  obtain ⟨rq₁, ha⟩ := (accept_requestLine svc hs c.length).mpr h.requestLine
  obtain ⟨rq', k, hp⟩ := h.headers.parses svc (accept_requestLine_state hs ha)
  exact ⟨rq', _, .next (ne_nil_of_line h.line) (by decide) h.line ha hp⟩

theorem Truncated.not_complete (h : Truncated c) : ¬Complete c rq' left := by
  rintro ⟨-, k, ⟨-, -, j, -, hend⟩, -⟩
  exact hend.not_cut h.headers

/-- `Init` and `parse` on every valid buffer: if they succeed the request is
complete, exactly if its content is not cut off. -/
theorem parse_complete_iff (svc : Services) {b : BufferBlock} (hb : Valid b) :
    ∃ rq' b' parsed, HttpRequest.init.parse svc b = .ok (rq', b', parsed) ∧
      ((parsed = true → Complete b.content rq' b'.content) ↔ ¬Truncated b.content) := by
  have hr := hb.toRepr
  by_cases hc : b.content = []
  · refine ⟨_, _, _, if_pos (by rw [BufferBlock.readableBytes, hr.total, hc]; rfl), ?_⟩
    exact iff_of_true (by simp) fun h => absurd hc (ne_nil_of_line h.line)
  · obtain ⟨o, rq', k, hp⟩ := Parses.exists svc .init b.content
    refine ⟨_, _, _, HttpRequest.parse_ok hr hc hp, ?_⟩
    constructor
    · intro hcomplete hcut
      obtain ⟨rq₂, k₂, hp₂⟩ := hcut.parses svc
      obtain ⟨rfl, -, -⟩ := hp.unique hp₂
      exact hcut.not_complete (hcomplete rfl)
    · intro hwhole hparsed
      cases o with
      | done =>
        show Complete b.content rq' (b.consumeBytes k).content
        rw [BufferBlock.consumeBytes_content hr]
        exact hp.complete hc hwhole
      | brokenOff => cases hparsed
      | rejected => cases hparsed

def requestLineOnly : BufferBlock := held (bytes "GET / HTTP/1.1\r\n")

theorem requestLineOnly_run : ∃ rq' b',
    HttpRequest.init.parse .none requestLineOnly = .ok (rq', b', true) ∧ rq'.state = .headers := by
  have hrun : (HttpRequest.init.parse .none requestLineOnly).toOption.map
      (fun r => (r.1.state, r.2.2)) = some (.headers, true) := by
    decide +kernel
  obtain ⟨⟨rq', b', parsed⟩, hparse, hview⟩ := view_ok _ hrun
  obtain ⟨hstate, rfl⟩ := Prod.mk.inj hview
  exact ⟨rq', b', hparse, hstate⟩

theorem parse_complete_iff_example : Truncated requestLineOnly.content := by
  obtain ⟨rq', b', hparse, hstate⟩ := requestLineOnly_run
  obtain ⟨rq₂, b₂, parsed, hparse₂, hiff⟩ := parse_complete_iff .none (held_valid _)
  cases hparse.symm.trans hparse₂
  refine not_not.mp fun hwhole => ?_
  have hfinish := (hiff.mpr hwhole rfl).state
  rw [hstate] at hfinish
  cases hfinish

/-- It is parsed, in a state that waits for headers. -/
theorem requestLine_suffices : Valid requestLineOnly ∧ ∃ rq' b',
    HttpRequest.init.parse .none requestLineOnly = .ok (rq', b', true) ∧ rq'.state ≠ .finish := by
  obtain ⟨rq', b', hparse, hstate⟩ := requestLineOnly_run
  refine ⟨held_valid _, rq', b', hparse, ?_⟩
  rw [hstate]
  decide

end MudouHttp
