import MudouHttp.Http.Pipelining
import MudouHttp.Lib.Lines

/-!
# Lines before the blank line

A line that does not match the header pattern is not ignored: it ends the
headers as the blank line does, and what follows it is the body. So the lines
before the blank line are recorded and the bytes behind it are the body exactly
if all of them are headers; sizes that an `int` does not hold come in as well
(`blank_line_ends_iff`).
-/

namespace MudouHttp

open Function (update)
open Lib (lines lines_cons)
open Lib.Regex (fullMatch)
open BufferBlock (Valid)
open RequestText
open HttpRequest

structure LinesText where
  requestLine : Bytes
  headers : List Bytes
  body : Bytes

namespace LinesText

def text (t : LinesText) : Bytes :=
  t.requestLine ++ (crlf ++ (lines 13 10 t.headers ++ (crlf ++ t.body)))

structure WellFormed (t : LinesText) : Prop where
  requestLine : IsRequestLine t.requestLine
  oneLine : 13 ∉ t.requestLine
  headers : ∀ line ∈ t.headers, line ≠ [] ∧ 13 ∉ line ∧ 10 ∉ line

/-- The header map after one more line: a header replaces what was recorded for
its name, any other line is ignored. -/
def recordLine (m : StrMap) (line : Bytes) : StrMap :=
  match fullMatch headerPattern line with
  | some [name, value] => update m name (some value)
  | _ => m

/-- The request is complete, with every header line recorded, the others
ignored, and the bytes behind the blank line as its body. -/
structure Recorded (t : LinesText) (rq : HttpRequest) : Prop where
  state : rq.state = .finish
  header : rq.header = afterBody (t.headers.foldl recordLine fun _ => none) t.body
  body : rq.body = t.body

def Fits (line : Bytes) : Prop := line.length + 2 < 2 ^ 31

def BodyFits (body : Bytes) : Prop := body ≠ [] → ¬2 ^ 32 ∣ body.length

structure AllHeaders (t : LinesText) : Prop where
  requestLine : Fits t.requestLine
  headers : ∀ line ∈ t.headers, Fits line ∧ IsHeader line
  body : BodyFits t.body

end LinesText

open LinesText

theorem parseHeader_record {rq : HttpRequest} (h : IsHeader line) :
    rq.parseHeader line = { rq with header := recordLine rq.header line } := by
  obtain ⟨name, value, hm⟩ := h
  rw [parseHeader, recordLine, hm]

theorem more_behind (ls : List Bytes) (body : Bytes) :
    body.length + 2 ≤ (lines 13 10 ls ++ (crlf ++ body)).length := by
  simp only [List.length_append, crlf, List.length_cons, List.length_nil]
  omega

variable {svc : Services}

-- ---------------------------------------------------------------------------
-- Header lines only
-- ---------------------------------------------------------------------------

theorem parses_lines (svc : Services) {ls : List Bytes} {rq : HttpRequest} {body : Bytes}
    (hls : ∀ line ∈ ls, Fits line ∧ IsHeader line) (hcr : ∀ line ∈ ls, 13 ∉ line)
    (hs : rq.state = .headers) (hb : rq.body = []) (hbody : BodyFits body) :
    ∃ rq' k, Parses svc rq (lines 13 10 ls ++ (crlf ++ body)) .done rq' k ∧
      rq'.state = .finish ∧ rq'.header = afterBody (ls.foldl recordLine rq.header) body ∧
      rq'.body = body := by
  induction ls generalizing rq with
  | nil =>
    have hcount : body ≠ [] → toInt body.length ≠ 0 := fun hne => mt toInt_eq_zero.mp (hbody hne)
    obtain ⟨rq', hp, hfinish, hkeeps⟩ := parses_body svc hs hb hcount
    exact ⟨rq', _, hp, hfinish, hkeeps.header, hkeeps.body⟩
  | cons line ls ih =>
    obtain ⟨⟨hfits, hheader⟩, hrest⟩ := List.forall_mem_cons.mp hls
    obtain ⟨hline, hlines⟩ := List.forall_mem_cons.mp hcr
    rw [lines_cons]
    have hstate := (parseHeader_state rq hheader).trans hs
    have hempty : (rq.parseHeader line).body = [] := by rw [parseHeader_record hheader, hb]
    obtain ⟨rq', k, hp, hfinish, hrecorded, hread⟩ := ih hrest hlines hstate hempty
    rw [parseHeader_record hheader] at hrecorded
    have hmore : 2 < (line ++ (crlf ++ (lines 13 10 ls ++ (crlf ++ body)))).length := by
      have hbehind := more_behind ls body
      rw [List.length_append, List.length_append]
      simp only [crlf, List.length_cons, List.length_nil] at hbehind ⊢
      omega
    exact ⟨rq', _, parses_line hline hfits (by simp [hs]) (by simp [hs])
      (accept_headers svc hs hmore) hp, hfinish, hrecorded, hread⟩

-- ---------------------------------------------------------------------------
-- Other lines
-- ---------------------------------------------------------------------------

theorem Parses.line_inv {rq : HttpRequest}
    (h : Parses svc rq (line ++ (crlf ++ rest)) .done rq' k) (hcr : 13 ∉ line) (hfits : Fits line)
    (hb : rq.state ≠ .body) (hf : rq.state ≠ .finish) :
    ∃ rq₁ k', rq.accept svc line (line ++ (crlf ++ rest)).length = some rq₁ ∧
      Parses svc rq₁ rest .done rq' k' := by
  have hin : rq.input (line ++ (crlf ++ rest)) = (toInt (line.length + 2), line) :=
    (input_line hb _).trans (lineOf_crlf hcr rest)
  have hdrop : (line ++ (crlf ++ rest)).drop (line.length + 2) = rest := by
    rw [← List.append_assoc]
    exact List.drop_left' (List.length_append.trans rfl)
  cases h with
  | done hfin => exact absurd hfin (not_or.mpr ⟨by simp [crlf], hf⟩)
  | next _ _ _ ha hp =>
    simp only [hin, toSize_toInt hfits, hdrop] at ha hp
    exact ⟨_, _, ha, hp⟩

theorem accept_line_state {rq : HttpRequest} (hs : rq.state = .requestLine ∨ rq.state = .headers)
    (hn : 2 < n) (ha : rq.accept svc line n = some rq₁) :
    rq₁.state = .headers ∨ rq₁.state = .body := by
  rcases hs with hs | hs
  · exact .inl (accept_requestLine_state hs ha)
  · rcases accept_headers_cases hs ha with ⟨hle, -⟩ | ⟨-, -, h⟩ | ⟨-, -, h⟩
    · exact absurd hn (Nat.not_lt.mpr hle)
    · exact .inl h
    · exact .inr h

/-- Behind a line too long for an `int` nothing is read, or too much. -/
theorem Parses.long_line {rq : HttpRequest}
    (h : Parses svc rq (line ++ (crlf ++ rest)) .done rq' k) (hcr : 13 ∉ line) (hlong : ¬Fits line)
    (hs : rq.state = .requestLine ∨ rq.state = .headers)
    (hmem : (line ++ (crlf ++ rest)).length < 2 ^ 63) (hfinish : rq'.state = .finish) :
    rest.length < rq'.body.length := by
  have hb : rq.state ≠ .body := by rcases hs with hs | hs <;> simp [hs]
  have hf : rq.state ≠ .finish := by rcases hs with hs | hs <;> simp [hs]
  have hin : rq.input (line ++ (crlf ++ rest)) = (toInt (line.length + 2), line) :=
    (input_line hb _).trans (lineOf_crlf hcr rest)
  cases h with
  | done hfin => exact absurd hfin (not_or.mpr ⟨by simp [crlf], hf⟩)
  | next _ _ _ ha hp =>
    simp only [hin] at ha hp
    unfold Fits at hlong
    have hstate := accept_line_state hs (by rw [List.length_append]; omega) ha
    rcases toSize_toInt_large (Nat.le_of_not_lt hlong) with hall | ⟨turns, hturns⟩
    · -- the count is negative: all is consumed
      rw [List.drop_of_length_le (Nat.le_trans (Nat.le_of_lt hmem) hall)] at hp
      obtain ⟨-, rfl, -⟩ := hp.unique (.done (.inl rfl))
      rcases hstate with h | h <;> cases h.symm.trans hfinish
    · -- what is left of the line has a size the `int` takes for zero
      have hpart : toSize (toInt (line.length + 2)) ≤ line.length := by omega
      generalize toSize (toInt (line.length + 2)) = part at hturns hpart hp
      rw [List.drop_append_of_le_length hpart] at hp
      have hne : line.drop part ++ (crlf ++ rest) ≠ [] := by simp [crlf]
      rcases hstate with h | h
      · have hline : lineOf (line.drop part ++ (crlf ++ rest)) =
            (toInt ((line.drop part).length + 2), line.drop part) :=
          lineOf_crlf (fun hmem => hcr (List.mem_of_mem_drop hmem)) rest
        have hzero : toInt ((line.drop part).length + 2) = 0 := by
          rw [toInt_eq_zero, List.length_drop]
          omega
        have hbroken := hp.unique (.brokenOff hne (by simp [h])
          (by rw [input_line (by simp [h]), hline, hzero]))
        cases hbroken.1
      · rcases hp.body_done h with ⟨hempty, -⟩ | ⟨-, rfl⟩
        · exact absurd hempty hne
        · rw [(parseBody_keeps svc _ _).2.body]
          simp only [List.length_append, crlf, List.length_cons, List.length_nil]
          omega

theorem Parses.lines_fit {ls : List Bytes} {rq : HttpRequest} {body : Bytes}
    (h : Parses svc rq (lines 13 10 ls ++ (crlf ++ body)) .done rq' k)
    (hmem : (lines 13 10 ls ++ (crlf ++ body)).length < 2 ^ 63)
    (hls : ∀ line ∈ ls, line ≠ [] ∧ 13 ∉ line ∧ 10 ∉ line) (hs : rq.state = .headers)
    (hfinish : rq'.state = .finish) (hbody : rq'.body = body) :
    (∀ line ∈ ls, Fits line ∧ IsHeader line) ∧ BodyFits body := by
  induction ls generalizing rq k with
  | nil =>
    refine ⟨nofun, fun hne => ?_⟩
    replace h : Parses svc rq ([] ++ (crlf ++ body)) .done rq' k := h
    obtain ⟨rq₁, k', ha, hp⟩ :=
      h.line_inv List.not_mem_nil (by unfold Fits; decide) (by simp [hs]) (by simp [hs])
    have hmore : ¬([] ++ (crlf ++ body)).length ≤ 2 := by
      have hpos := List.length_pos_iff.mpr hne
      simp only [List.length_append, crlf, List.length_cons, List.length_nil]
      omega
    rw [accept_blank svc hs, if_neg hmore, Option.some.injEq] at ha
    subst ha
    rcases hp.body_done rfl with ⟨hempty, -⟩ | ⟨hcount, -⟩
    · exact absurd hempty hne
    · exact mt toInt_eq_zero.mpr hcount
  | cons line ls ih =>
    obtain ⟨⟨-, hcr, -⟩, hrest⟩ := List.forall_mem_cons.mp hls
    have hbehind := more_behind ls body
    have htext : lines 13 10 (line :: ls) ++ (crlf ++ body) =
        line ++ (crlf ++ (lines 13 10 ls ++ (crlf ++ body))) := lines_cons ..
    rw [htext] at h hmem
    have hfits : Fits line := by
      refine not_not.mp fun hlong => ?_
      have hlonger := h.long_line hcr hlong (.inr hs) hmem hfinish
      rw [hbody] at hlonger
      omega
    obtain ⟨rq₁, k', ha, hp⟩ := h.line_inv hcr hfits (by simp [hs]) (by simp [hs])
    simp only [List.length_append, crlf, List.length_cons, List.length_nil] at hmem ha hbehind
    rw [accept_headers svc hs (by omega), Option.some.injEq] at ha
    subst ha
    by_cases hheader : IsHeader line
    · have hstate := (parseHeader_state rq hheader).trans hs
      obtain ⟨hall, hbodyFits⟩ := ih hp (by simp [crlf]; omega) hrest hstate
      exact ⟨List.forall_mem_cons.mpr ⟨⟨hfits, hheader⟩, hall⟩, hbodyFits⟩
    · rcases hp.body_done (parseHeader_other rq hheader) with ⟨hempty, -⟩ | ⟨-, rfl⟩
      · simp [crlf] at hempty
      · rw [(parseBody_keeps svc _ _).2.body] at hbody
        have hsame := congrArg List.length hbody
        simp only [List.length_append, crlf, List.length_cons, List.length_nil] at hsame
        omega

-- ---------------------------------------------------------------------------
-- The whole request
-- ---------------------------------------------------------------------------

theorem accept_requestLine_keeps {rq : HttpRequest} (hs : rq.state = .requestLine)
    (h : rq.accept svc line n = some rq₁) : rq₁.header = rq.header ∧ rq₁.body = rq.body := by
  simp only [accept, hs, parseRequestLine] at h
  split at h
  · cases h
    exact ⟨rfl, rfl⟩
  · cases h

theorem parses_text (svc : Services) {t : LinesText} (ht : t.WellFormed) (h : t.AllHeaders) :
    ∃ rq' k, Parses svc .init t.text .done rq' k ∧ Recorded t rq' := by
  have hs : HttpRequest.init.state = .requestLine := rfl
  obtain ⟨rq₁, ha⟩ := (accept_requestLine svc hs t.text.length).mpr ht.requestLine
  obtain ⟨hheader, hbody⟩ := accept_requestLine_keeps hs ha
  obtain ⟨rq', k, hp, hfinish, hrecorded, hread⟩ :=
    parses_lines svc h.headers (fun line hmem => (ht.headers line hmem).2.1)
      (accept_requestLine_state hs ha) hbody h.body
  rw [hheader] at hrecorded
  exact ⟨rq', _, parses_line ht.oneLine h.requestLine (by decide) (by decide) ha hp,
    hfinish, hrecorded, hread⟩

theorem LinesText.Recorded.allHeaders {t : LinesText} (ht : t.WellFormed) (hmem : t.text.length < 2 ^ 63)
    (hp : Parses svc .init t.text .done rq' k) (h : Recorded t rq') : t.AllHeaders := by
  have hs : HttpRequest.init.state = .requestLine := rfl
  have hbehind := more_behind t.headers t.body
  have hfits : Fits t.requestLine := by
    refine not_not.mp fun hlong => ?_
    have hlonger := hp.long_line ht.oneLine hlong (.inl hs) hmem h.state
    rw [h.body] at hlonger
    omega
  obtain ⟨rq₁, k', ha, hp⟩ := hp.line_inv ht.oneLine hfits (by decide) (by decide)
  have hrest : (lines 13 10 t.headers ++ (crlf ++ t.body)).length < 2 ^ 63 := by
    rw [text, List.length_append, List.length_append] at hmem
    omega
  obtain ⟨hheaders, hbody⟩ :=
    hp.lines_fit hrest ht.headers (accept_requestLine_state hs ha) h.state h.body
  exact ⟨hfits, hheaders, hbody⟩

/-- For every valid buffer that holds a request of whatever lines and body, of
fewer bytes than memory can hold: `Init` and `parse` complete it with all header
lines recorded, the others ignored and the body read exactly if all lines before
the blank line are headers and an `int` counts the sizes. -/
theorem blank_line_ends_iff (svc : Services) {t : LinesText} (ht : t.WellFormed) {b : BufferBlock}
    (hb : Valid b) (hc : b.content = t.text) (hmem : b.content.length < 2 ^ 63) :
    ∃ rq' b' parsed, HttpRequest.init.parse svc b = .ok (rq', b', parsed) ∧
      (parsed = true ∧ Recorded t rq' ↔ t.AllHeaders) := by
  have hne : b.content ≠ [] := by
    rw [hc, text]
    simp [crlf]
  obtain ⟨o, rq', k, hp⟩ := Parses.exists svc .init b.content
  refine ⟨_, _, _, HttpRequest.parse_ok hb.toRepr hne hp, ?_⟩
  rw [hc] at hp hmem
  constructor
  · rintro ⟨hparsed, hrecorded⟩
    cases o with
    | done => exact hrecorded.allHeaders ht hmem hp
    | brokenOff => cases hparsed
    | rejected => cases hparsed
  · intro h
    obtain ⟨rq₂, k₂, hp₂, hrecorded⟩ := parses_text svc ht h
    obtain ⟨rfl, rfl, -⟩ := hp.unique hp₂
    exact ⟨rfl, hrecorded⟩

def aged : LinesText :=
  { requestLine := bytes "GET / HTTP/1.1", headers := [bytes "Age: 1", bytes "Age: 20"]
    body := bytes "ok" }

theorem blank_line_ends_iff_example : ∃ rq' b',
    HttpRequest.init.parse .none (held aged.text) = .ok (rq', b', true) ∧
      rq'.header (bytes "Age") = some (bytes "20") ∧ rq'.body = bytes "ok" := by
  have hrequestLine : IsRequestLine aged.requestLine :=
    ⟨bytes "GET", bytes "/", bytes "1.1", by decide +kernel⟩
  have hheaders : ∀ line ∈ aged.headers, IsHeader line := by
    intro line hmem
    rcases List.mem_pair.mp hmem with rfl | rfl
    · exact ⟨bytes "Age", bytes "1", by decide +kernel⟩
    · exact ⟨bytes "Age", bytes "20", by decide +kernel⟩
  have hwell : aged.WellFormed := ⟨hrequestLine, by decide, by decide⟩
  have hshort : ∀ line ∈ aged.headers, Fits line := by unfold Fits; decide
  have hall : aged.AllHeaders :=
    ⟨by unfold Fits; decide, fun line hmem => ⟨hshort line hmem, hheaders line hmem⟩,
      by unfold BodyFits; decide⟩
  obtain ⟨rq', b', parsed, hparse, hiff⟩ :=
    blank_line_ends_iff .none hwell (held_valid _) (held_content _) (by rw [held_content]; decide)
  obtain ⟨rfl, hrecorded⟩ := hiff.mpr hall
  refine ⟨rq', b', hparse, ?_, hrecorded.body⟩
  rw [hrecorded.header]
  decide +kernel

def malformed : LinesText :=
  { requestLine := bytes "GET / HTTP/1.1", headers := [bytes "no colon", bytes "Age: 1"], body := [] }

/-- It ends the headers: the next one is not recorded, but read as the body. -/
theorem other_line_ends : ∃ rq' b',
    HttpRequest.init.parse .none (held malformed.text) = .ok (rq', b', true) ∧
      rq'.header (bytes "Age") = none ∧ rq'.body = bytes "Age: 1\r\n\r\n" ∧
      malformed.WellFormed ∧ ¬Recorded malformed rq' := by
  have hrequestLine : IsRequestLine malformed.requestLine :=
    ⟨bytes "GET", bytes "/", bytes "1.1", by decide +kernel⟩
  have hrun : (HttpRequest.init.parse .none (held malformed.text)).toOption.map
      (fun r => (r.1.header (bytes "Age"), r.1.body, r.2.2)) =
        some (none, bytes "Age: 1\r\n\r\n", true) := by
    decide +kernel
  obtain ⟨⟨rq', b', parsed⟩, hparse, hview⟩ := view_ok _ hrun
  simp only [Prod.mk.injEq] at hview
  obtain ⟨hage, hbody, rfl⟩ := hview
  refine ⟨rq', b', hparse, hage, hbody, ⟨hrequestLine, by decide, by decide⟩, fun h => ?_⟩
  have hempty := h.body
  rw [hbody] at hempty
  exact absurd hempty (by decide)

end MudouHttp
