import MudouHttp.Http.HeaderLines
import MudouHttp.Http.LogTexts
import MudouHttp.Http.Truncation

/-!
# The parts of a request

`Cut` takes a request apart on its bytes. `Cut.parse` and `cut_of_parse`: what
can be taken apart is what `parse` accepts, and the parts say what becomes of the
request and which texts are formatted on the way.
-/

namespace MudouHttp

open BufferBlock (Valid Repr)
open Function (update)
open HttpRequest
open Lib.Regex (fullMatch)

-- ---------------------------------------------------------------------------
-- The parts of a request
-- ---------------------------------------------------------------------------

/-- A body of no bytes is none. -/
structure Parts where
  method : Bytes
  target : Bytes
  version : Bytes
  header : StrMap
  body : Bytes

/-- Header lines up to the end or to another line, with the body behind it, whose
size is not zero in an `int`; the headers before and after them. -/
inductive HeaderPart : StrMap → Bytes → StrMap → Bytes → Prop
  | nothing : HeaderPart m [] m []
  | header : (lineOf c).1 ≠ 0 → fullMatch headerPattern (lineOf c).2 = some [name, value] →
    HeaderPart (update m name (some value)) (c.drop (lineBytes c)) m' rest → HeaderPart m c m' rest
  | other : (lineOf c).1 ≠ 0 → ¬IsHeader (lineOf c).2 → c.drop (lineBytes c) = rest →
    (rest ≠ [] → toInt rest.length ≠ 0) → HeaderPart m c m rest

structure Cut (c : Bytes) (p : Parts) : Prop where
  line : (lineOf c).1 ≠ 0
  requestLine : fullMatch requestLinePattern (lineOf c).2 = some [p.method, p.target, p.version]
  headers : HeaderPart (fun _ => none) (c.drop (lineBytes c)) p.header p.body

def Parts.started (p : Parts) : HttpRequest :=
  { HttpRequest.init with
    state := .headers, method := p.method, path := parsedPath p.target, version := p.version }

/-- The request with its headers, before a body is read. -/
def HttpRequest.headed (rq : HttpRequest) (header : StrMap) : HttpRequest :=
  { rq with state := .body, header := header }

def Parts.head (p : Parts) : HttpRequest := p.started.headed p.header

def HttpRequest.withBody (svc : Services) (rq : HttpRequest) (rest : Bytes) : HttpRequest :=
  if rest = [] then rq else rq.parseBody svc rest

def HttpRequest.restTexts [MySql] (db : Database) (rq : HttpRequest) (rest : Bytes) : List ArrayText :=
  (if rest = [] then [] else rq.bodyTexts db rest) ++ [rq.requestText]

-- ---------------------------------------------------------------------------
-- What parse makes of the parts
-- ---------------------------------------------------------------------------

theorem accept_other (svc : Services) {rq : HttpRequest} (hs : rq.state = .headers) (h : ¬IsHeader line)
    (n : Nat) :
    rq.accept svc line n = some { rq with state := if n ≤ 2 then .finish else .body } := by
  simp only [accept, hs, parseHeader_none rq h]
  split <;> rfl

theorem lineBytes_pos (hn : (lineOf c).1 ≠ 0) : 0 < lineBytes c := by
  have hin : HttpRequest.init.input c = lineOf c := input_line (by decide) c
  rw [lineBytes, ← hin]
  exact input_pos (hin.symm ▸ hn)

theorem accept_line (svc : Services) {p : Parts}
    (hline : fullMatch requestLinePattern line = some [p.method, p.target, p.version]) (n : Nat) :
    HttpRequest.init.accept svc line n = some p.started := by
  have hstarted : HttpRequest.init.parseRequestLine line = some { p.started with path := p.target } := by
    rw [parseRequestLine, hline]
    rfl
  exact congrArg (Option.map parsePath) hstarted

theorem HeaderPart.parses (svc : Services) (h : HeaderPart m c m' rest) {rq : HttpRequest}
    (hs : rq.state = .headers) (hm : rq.header = m) :
    ∃ state k, Parses svc rq c .done { (rq.headed m').withBody svc rest with state := state } k := by
  induction h generalizing rq with
  | nothing =>
    subst hm
    exact ⟨rq.state, 0, .done (.inl rfl)⟩
  | @header c name value m m' rest hn hmatch _ ih =>
    subst hm
    have hheader : IsHeader (lineOf c).2 := ⟨name, value, hmatch⟩
    have hmore := more_of_line hn fun hblank => blank_notHeader (hblank ▸ hheader)
    have ha := (accept_headers svc hs hmore).trans (congrArg some (parseHeader_some hmatch))
    obtain ⟨state, k, hp⟩ := @ih { rq with header := update rq.header name (some value) } hs rfl
    exact ⟨state, _, .turn (input_line (by simp [hs]) c) (ne_nil_of_line hn) (by simp [hs]) hn ha hp⟩
  | @other c rest m hn hother hdrop hcount =>
    subst hm
    have hturn : ∀ {state k}, Parses svc { rq with state := if c.length ≤ 2 then .finish else .body }
          (c.drop (lineBytes c)) .done { (rq.headed rq.header).withBody svc rest with state := state } k →
        ∃ state k, Parses svc rq c .done { (rq.headed rq.header).withBody svc rest with state := state } k :=
      fun hp => ⟨_, _, .turn (input_line (by simp [hs]) c) (ne_nil_of_line hn) (by simp [hs]) hn
        (accept_other svc hs hother c.length) hp⟩
    rw [hdrop] at hturn
    by_cases hrest : rest = []
    · subst hrest
      rw [withBody, if_pos rfl] at hturn
      exact hturn (.done (.inl rfl))
    · have hmore : ¬c.length ≤ 2 := fun hlen => hrest (by
        rw [← hdrop, lineOf_twoBytes hlen hn]
        decide)
      rw [if_neg hmore] at hturn
      rw [withBody, if_neg hrest] at hturn ⊢
      exact hturn (RequestText.parses_rest svc rfl hrest (hcount hrest))

/-- A request that can be taken apart is parsed, and the parts say what it becomes. -/
theorem Cut.parse (svc : Services) {b : BufferBlock} (hb : Valid b) (h : Cut b.content p) :
    ∃ state left, HttpRequest.init.parse svc b =
      .ok ({ p.head.withBody svc p.body with state := state }, left, true) := by
  obtain ⟨state, k, hp⟩ := h.headers.parses svc (show p.started.state = .headers from rfl) rfl
  have hne := ne_nil_of_line h.line
  have hparses := Parses.turn (input_line (by decide) b.content) hne (by decide) h.line
    (accept_line svc h.requestLine b.content.length) hp
  exact ⟨state, _, HttpRequest.parse_ok hb.toRepr hne hparses⟩

-- ---------------------------------------------------------------------------
-- The texts of the parts
-- ---------------------------------------------------------------------------

variable [MySql] (db : Database) (json : Bytes → Option (Bytes → Option Bytes))

theorem parseLoopTexts_turn {rq rq₁ : HttpRequest} {b : BufferBlock} (hr : Repr b)
    (hc : b.content ≠ []) (hs : rq.state ≠ .finish) (hin : rq.input b.content = i) (hn : i.1 ≠ 0)
    (ha : rq.accept (db.services json) i.2 b.content.length = some rq₁) (fuel : Nat) :
    parseLoopTexts db json (fuel + 1) rq b = rq.acceptTexts db i.2 ++
      parseLoopTexts db json fuel rq₁ (b.consumeBytes (toSize i.1)) := by
  have hgo : ¬(b.readableBytes = 0 ∨ rq.state = .finish) := by
    rw [BufferBlock.readableBytes, hr.total, List.length_eq_zero_iff]
    exact not_or.mpr ⟨hc, hs⟩
  have hread := readInput_ok hr rq
  rw [hin] at hread
  have haccept : rq.accept (db.services json) i.2 b.readableBytes = some rq₁ := by
    rwa [BufferBlock.readableBytes, hr.total]
  rw [parseLoopTexts, if_neg hgo, hread]
  simp only [hn, if_false, haccept]

theorem parseLoopTexts_end {rq : HttpRequest} {b : BufferBlock} (hr : Repr b)
    (hfin : b.content = [] ∨ rq.state = .finish) (fuel : Nat) :
    parseLoopTexts db json (fuel + 1) rq b = [rq.requestText] := by
  have hstop : b.readableBytes = 0 ∨ rq.state = .finish := by
    rwa [BufferBlock.readableBytes, hr.total, List.length_eq_zero_iff]
  rw [parseLoopTexts, if_pos hstop]

omit [MySql] in
theorem withBody_text (svc : Services) (rq : HttpRequest) (rest : Bytes) :
    (rq.withBody svc rest).requestText = rq.requestText := by
  unfold withBody
  split
  · rfl
  · have hkeeps := (RequestText.parseBody_keeps svc rq rest).2
    rw [requestText, hkeeps.method, hkeeps.path, hkeeps.version]
    rfl

theorem acceptTexts_line {rq : HttpRequest} (hs : rq.state = .headers) (line : Bytes) :
    rq.acceptTexts db line = [] := by
  simp only [acceptTexts, hs]

theorem acceptTexts_rest {rq : HttpRequest} (hs : rq.state = .body) (line : Bytes) :
    rq.acceptTexts db line = rq.bodyTexts db line := by
  simp only [acceptTexts, hs]

theorem body_texts {rq : HttpRequest} {b : BufferBlock} (hr : Repr b) (hs : rq.state = .body)
    (hcount : b.content ≠ [] → toInt b.content.length ≠ 0) (hfuel : b.content.length < fuel) :
    parseLoopTexts db json fuel rq b = rq.restTexts db b.content := by
  obtain ⟨fuel, rfl⟩ := Nat.exists_eq_succ_of_ne_zero (Nat.ne_of_gt (Nat.zero_lt_of_lt hfuel))
  by_cases hc : b.content = []
  · rw [parseLoopTexts_end db json hr (.inl hc) fuel, restTexts, if_pos hc, List.nil_append]
  · have ha : rq.accept (db.services json) b.content b.content.length =
        some (rq.parseBody (db.services json) b.content) := by simp only [accept, hs]
    have hin : rq.input b.content = (toInt b.content.length, b.content) := input_rest hs _
    have hpos := List.length_pos_iff.mpr hc
    obtain ⟨fuel, rfl⟩ := Nat.exists_eq_succ_of_ne_zero (show fuel ≠ 0 by omega)
    have hn : (toInt b.content.length, b.content).1 ≠ 0 := by
      dsimp only
      exact hcount hc
    have hturn := parseLoopTexts_turn db json hr hc (by simp [hs]) hin hn ha (fuel + 1)
    dsimp only at hturn
    have hend := parseLoopTexts_end db json
      (BufferBlock.consumeBytes_repr hr (toSize (toInt b.content.length)))
      (.inr (show (rq.parseBody (db.services json) b.content).state = .finish from rfl)) fuel
    rw [restTexts, if_neg hc, ← withBody_text (db.services json) rq b.content, withBody, if_neg hc]
    refine hturn.trans ?_
    rw [acceptTexts_rest db hs]
    exact congrArg _ hend

theorem parseLoopTexts_header {rq rq₁ : HttpRequest} {b : BufferBlock} (hr : Repr b)
    (hs : rq.state = .headers) (hn : (lineOf b.content).1 ≠ 0)
    (ha : rq.accept (db.services json) (lineOf b.content).2 b.content.length = some rq₁) (fuel : Nat) :
    parseLoopTexts db json (fuel + 1) rq b =
      parseLoopTexts db json fuel rq₁ (b.consumeBytes (lineBytes b.content)) := by
  have hin : rq.input b.content = lineOf b.content := input_line (by simp [hs]) _
  have hturn := parseLoopTexts_turn db json hr (ne_nil_of_line hn) (by simp [hs]) hin hn ha fuel
  rwa [acceptTexts_line db hs, List.nil_append] at hturn

theorem HeaderPart.texts (h : HeaderPart m c m' rest) {rq : HttpRequest} {b : BufferBlock}
    (hs : rq.state = .headers) (hm : rq.header = m) (hr : Repr b) (hc : b.content = c)
    (hfuel : c.length < fuel) :
    parseLoopTexts db json fuel rq b = (rq.headed m').restTexts db rest := by
  induction h generalizing rq b fuel with
  | nothing =>
    subst hm
    obtain ⟨fuel, rfl⟩ := Nat.exists_eq_succ_of_ne_zero (Nat.ne_of_gt (Nat.zero_lt_of_lt hfuel))
    exact parseLoopTexts_end db json hr (.inl hc) fuel
  | @header c name value m m' rest hn hmatch _ ih =>
    subst hm hc
    obtain ⟨fuel, rfl⟩ := Nat.exists_eq_succ_of_ne_zero (Nat.ne_of_gt (Nat.zero_lt_of_lt hfuel))
    have hheader : IsHeader (lineOf b.content).2 := ⟨name, value, hmatch⟩
    have hmore := more_of_line hn fun hblank => blank_notHeader (hblank ▸ hheader)
    have ha := (accept_headers (db.services json) hs hmore).trans
      (congrArg some (parseHeader_some hmatch))
    have hlt : (b.content.drop (lineBytes b.content)).length < b.content.length :=
      drop_shorter (ne_nil_of_line hn) (Nat.ne_of_gt (lineBytes_pos hn))
    have hrest := @ih fuel { rq with header := update rq.header name (some value) } _ hs rfl
      (BufferBlock.consumeBytes_repr hr _) (BufferBlock.consumeBytes_content hr _) (by omega)
    exact (parseLoopTexts_header db json hr hs hn ha fuel).trans hrest
  | @other c rest m hn hother hdrop hcount =>
    subst hm hc
    obtain ⟨fuel, rfl⟩ := Nat.exists_eq_succ_of_ne_zero (Nat.ne_of_gt (Nat.zero_lt_of_lt hfuel))
    have hne := ne_nil_of_line hn
    have hlt : (b.content.drop (lineBytes b.content)).length < b.content.length :=
      drop_shorter hne (Nat.ne_of_gt (lineBytes_pos hn))
    have hr' := BufferBlock.consumeBytes_repr hr (lineBytes b.content)
    have hc' := BufferBlock.consumeBytes_content hr (lineBytes b.content)
    have hturn := parseLoopTexts_header db json hr hs hn
      (accept_other (db.services json) hs hother b.content.length) fuel
    by_cases hmore : b.content.length ≤ 2
    · -- only the blank line is left
      have hcrlf := lineOf_twoBytes hmore hn
      obtain rfl : rest = [] := by
        rw [← hdrop, hcrlf]
        decide
      rw [if_pos hmore] at hturn
      have hpos := List.length_pos_iff.mpr hne
      obtain ⟨fuel, rfl⟩ := Nat.exists_eq_succ_of_ne_zero (show fuel ≠ 0 by omega)
      exact hturn.trans (parseLoopTexts_end db json hr'
        (.inr (show HttpRequest.state { rq with state := .finish } = .finish from rfl)) fuel)
    · rw [if_neg hmore] at hturn
      rw [← hdrop, ← hc'] at hcount ⊢
      exact hturn.trans (body_texts db json hr' (show (rq.headed rq.header).state = .body from rfl) hcount
        (by rw [hc']; omega))

/-- The parts of a request say what is written while it is parsed. -/
theorem Cut.texts {b : BufferBlock} (hb : Valid b) (h : Cut b.content p) :
    HttpRequest.init.parseTexts db json b = p.head.restTexts db p.body := by
  have hr := hb.toRepr
  have hne := ne_nil_of_line h.line
  have hpos := List.length_pos_iff.mpr hne
  have hread : b.readableBytes ≠ 0 := by
    rw [BufferBlock.readableBytes, hr.total]
    omega
  have hfuel : b.content.length ≤ (b.blocks.map Block.capacity).sum :=
    BufferBlock.queued_length_le hr.sizes b.readPos
  have hlt : (b.content.drop (lineBytes b.content)).length < b.content.length :=
    drop_shorter hne (Nat.ne_of_gt (lineBytes_pos h.line))
  have hin : HttpRequest.init.input b.content = lineOf b.content := input_line (by decide) _
  have ha := accept_line (db.services json) h.requestLine b.content.length
  have hturn := parseLoopTexts_turn db json hr hne (by decide) hin h.line ha
    ((b.blocks.map Block.capacity).sum + 1)
  have hrest := h.headers.texts db json (show p.started.state = .headers from rfl) rfl
    (BufferBlock.consumeBytes_repr hr _) (BufferBlock.consumeBytes_content hr _)
    (show _ < (b.blocks.map Block.capacity).sum + 1 by omega)
  rw [HttpRequest.parseTexts, if_neg hread]
  exact hturn.trans hrest

-- ---------------------------------------------------------------------------
-- What is parsed has parts
-- ---------------------------------------------------------------------------

omit [MySql] in
theorem Parses.headerPart (h : Parses svc rq c .done rq' k) (hs : rq.state = .headers) :
    ∃ m' rest, HeaderPart rq.header c m' rest := by
  generalize ho : Outcome.done = o at h
  induction h with
  | @done c rq hfin =>
    rcases hfin with rfl | hfinish
    · exact ⟨_, _, .nothing⟩
    · cases hs.symm.trans hfinish
  | brokenOff => cases ho
  | rejected => cases ho
  | @next c rq₁ o rq' k rq hc _ hn ha hp ih =>
    subst ho
    have hin : rq.input c = lineOf c := input_line (by simp [hs]) c
    rw [hin] at hn ha hp ih
    rcases accept_headers_cases hs ha with ⟨hlen, -⟩ | ⟨hlen, ⟨name, value, hm⟩, hnext⟩ | ⟨hlen, hh, hnext⟩
    · have hcrlf := lineOf_twoBytes hlen hn
      refine ⟨_, [], .other hn ?_ ?_ nofun⟩
      · rw [hcrlf]
        exact blank_notHeader
      · rw [hcrlf]
        decide
    · obtain ⟨m', rest, hpart⟩ := ih hnext rfl
      rw [accept_headers svc hs hlen, parseHeader_some hm, Option.some.injEq] at ha
      subst ha
      exact ⟨m', rest, .header hn hm hpart⟩
    · exact ⟨_, _, .other hn hh rfl fun hne => ((hp.body_done hnext).resolve_left fun h => hne h.1).1⟩

omit [MySql] in
/-- Whatever is parsed can be taken apart. -/
theorem cut_of_parse {b : BufferBlock} (hb : Valid b)
    (h : HttpRequest.init.parse svc b = .ok (rq', left, true)) : ∃ p, Cut b.content p := by
  have hr := hb.toRepr
  have hne : b.content ≠ [] := by
    intro hempty
    rw [HttpRequest.parse, if_pos (by rw [BufferBlock.readableBytes, hr.total, hempty]; rfl)] at h
    cases h
  obtain ⟨o, rq₁, k, hp⟩ := Parses.exists svc .init b.content
  have hleaves := Except.ok.inj ((HttpRequest.parse_ok hr hne hp).symm.trans h)
  cases o with
  | brokenOff => cases (Prod.mk.inj (Prod.mk.inj hleaves).2).2
  | rejected => cases (Prod.mk.inj (Prod.mk.inj hleaves).2).2
  | done =>
    have hs : HttpRequest.init.state = .requestLine := rfl
    have hin : HttpRequest.init.input b.content = lineOf b.content := input_line (by decide) _
    cases hp with
    | done hfin => exact absurd hfin (not_or.mpr ⟨hne, by decide⟩)
    | next _ _ hn ha hrest =>
      rw [hin] at hn ha hrest
      obtain ⟨method, target, version, hm⟩ := (accept_requestLine svc hs _).mp ⟨_, ha⟩
      obtain ⟨m', rest, hpart⟩ := hrest.headerPart (accept_requestLine_state hs ha)
      rw [(accept_requestLine_keeps hs ha).1] at hpart
      exact ⟨⟨method, target, version, m', rest⟩, hn, hm, hpart⟩

end MudouHttp
