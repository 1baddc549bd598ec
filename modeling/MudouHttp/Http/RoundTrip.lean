import MudouHttp.Http.RequestLaws

/-!
# parse undoes serialisation

`RequestText` is a request as its sender sees it. `parse` of its bytes, in any
block layout, takes all of them and gives every part back (`round_trip`). The
derivation of `Parses` follows the text: the request line, the header lines
one by one, the blank line and the body.
-/

namespace MudouHttp

open Function (update update_self update_of_ne)
open Lib.Regex
open BufferBlock (Repr)

/-- A request to be sent. A header is its name and what follows the colon. -/
structure RequestText where
  method : Bytes
  target : Bytes
  version : Bytes
  headers : List (Bytes × Bytes)
  body : Bytes

namespace RequestText

def requestLine (t : RequestText) : Bytes :=
  t.method ++ 32 :: (t.target ++ (bytes " HTTP/" ++ t.version))

def headerLine (h : Bytes × Bytes) : Bytes := h.1 ++ chr ':' :: h.2

def headerLines (hs : List (Bytes × Bytes)) : Bytes := hs.flatMap fun h => headerLine h ++ crlf

def serialise (t : RequestText) : Bytes :=
  t.requestLine ++ (crlf ++ (headerLines t.headers ++ (crlf ++ t.body)))

def Token (s : Bytes) : Prop := 32 ∉ s ∧ 13 ∉ s

def HeaderField (h : Bytes × Bytes) : Prop :=
  h.1 ≠ [] ∧ (∀ c ∈ h.1, HttpRequest.nameChar c = true) ∧ 13 ∉ h.2 ∧ 10 ∉ h.2

structure WellFormed (t : RequestText) : Prop where
  method : Token t.method
  target : Token t.target
  version : Token t.version
  headers : ∀ h ∈ t.headers, HeaderField h

-- ---------------------------------------------------------------------------
-- The two regular expressions
-- ---------------------------------------------------------------------------

theorem takeWhile_before {cls : UInt8 → Bool} (h : ∀ c ∈ s, cls c = true) (hx : cls x = false)
    (rest : Bytes) :
    (s ++ x :: rest).takeWhile cls = s ∧ (s ++ x :: rest).dropWhile cls = x :: rest := by
  rw [List.takeWhile_append_of_pos h, List.dropWhile_append_of_pos h]
  simp [hx]

/-- A class up to a character outside it, and the rest of the pattern. -/
theorem fullMatch_up_to {cls : UInt8 → Bool} {items : List (Item UInt8)} (hn : n ≤ s.length)
    (h : ∀ c ∈ s, cls c = true) (hx : cls x = false)
    (hm : fullMatch items (x :: rest) = some caps) :
    fullMatch (.many n cls true :: items) (s ++ x :: rest) = some (s :: caps) := by
  obtain ⟨ht, hd⟩ := takeWhile_before h hx rest
  rw [fullMatch_many_of_some (by rwa [ht]) (by rw [hd]; exact hm), ht, if_pos rfl]

theorem fullMatch_requestLine {t : RequestText} (h : t.WellFormed) :
    fullMatch HttpRequest.requestLinePattern t.requestLine =
      some [t.method, t.target, t.version] := by
  have hns : ∀ {s}, Token s → ∀ c ∈ s, HttpRequest.notSpace c = true := by
    intro s hs c hc
    have hne : c ≠ 32 := fun he => hs.1 (he ▸ hc)
    simpa [HttpRequest.notSpace] using hne
  have hversion : fullMatch [.many 0 HttpRequest.notSpace true] t.version = some [t.version] := by
    rw [fullMatch_many, if_pos (List.all_eq_true.mpr (hns h.version)), if_pos rfl]
  have htarget : fullMatch (.many 0 HttpRequest.notSpace true ::
      (lits (bytes " HTTP/") ++ [.many 0 HttpRequest.notSpace true]))
      (t.target ++ (bytes " HTTP/" ++ t.version)) = some [t.target, t.version] :=
    fullMatch_up_to (Nat.zero_le _) (hns h.target) rfl ((fullMatch_lits _ _).trans hversion)
  exact fullMatch_up_to (Nat.zero_le _) (hns h.method) rfl htarget

theorem fullMatch_header {h : Bytes × Bytes} (hf : HeaderField h) :
    fullMatch HttpRequest.headerPattern (headerLine h) =
      some [h.1, h.2.dropWhile isspace] := by
  obtain ⟨hne, hname, hcr, hlf⟩ := hf
  have hall : (h.2.dropWhile isspace).all HttpRequest.notLineEnd := by
    rw [List.all_eq_true]
    intro c hc
    have hmem : c ∈ h.2 := (List.dropWhile_suffix isspace).subset hc
    have h10 : c ≠ 10 := fun he => hlf (he ▸ hmem)
    have h13 : c ≠ 13 := fun he => hcr (he ▸ hmem)
    simp [HttpRequest.notLineEnd, h10, h13]
  refine fullMatch_up_to (List.length_pos_iff.mpr hne) hname rfl ?_
  have hrest : fullMatch [.many 0 isspace false, .many 0 HttpRequest.notLineEnd true] h.2 = _ :=
    fullMatch_skip_many h.2
  rw [if_pos hall] at hrest
  simpa [fullMatch] using hrest

theorem requestLine_noCr {t : RequestText} (h : t.WellFormed) : 13 ∉ t.requestLine := by
  have hlit : (13 : UInt8) ∉ bytes " HTTP/" := by decide
  simp only [requestLine, List.mem_append, List.mem_cons, not_or]
  exact ⟨h.method.2, by decide, h.target.2, hlit, h.version.2⟩

theorem headerLine_noCr {h : Bytes × Bytes} (hf : HeaderField h) : 13 ∉ headerLine h := by
  obtain ⟨-, hname, hcr, -⟩ := hf
  simp only [headerLine, List.mem_append, List.mem_cons, not_or]
  refine ⟨fun hc => ?_, by decide, hcr⟩
  have hfalse := hname 13 hc
  revert hfalse
  decide

-- ---------------------------------------------------------------------------
-- The text, line by line
-- ---------------------------------------------------------------------------

variable {svc : Services}

theorem parses_line {rq rq₁ : HttpRequest} {line : Bytes} (hcr : 13 ∉ line) (hlen : line.length + 2 < 2 ^ 31)
    (hb : rq.state ≠ .body) (hf : rq.state ≠ .finish)
    (ha : rq.accept svc line (line ++ (crlf ++ rest)).length = some rq₁)
    (hp : Parses svc rq₁ rest o rq' k) :
    Parses svc rq (line ++ (crlf ++ rest)) o rq' (line.length + 2 + k) := by
  have hin : rq.input (line ++ (crlf ++ rest)) = (toInt (line.length + 2), line) := by
    rw [HttpRequest.input, if_pos hb]
    exact lineOf_crlf hcr rest
  have hdrop : (line ++ (crlf ++ rest)).drop (line.length + 2) = rest := by
    rw [← List.append_assoc]
    exact List.drop_left' (List.length_append.trans rfl)
  have hcount : toInt (line.length + 2) ≠ 0 := by
    rw [toInt_of_lt hlen]
    omega
  have hturn := Parses.turn hin (by simp [crlf]) hf hcount ha (by rwa [toSize_toInt hlen, hdrop])
  rwa [toSize_toInt hlen] at hturn

def stored (m : StrMap) (hs : List (Bytes × Bytes)) : StrMap :=
  hs.foldl (fun m h => update m h.1 (some (h.2.dropWhile isspace))) m

theorem stored_last (m : StrMap) (hafter : ∀ h ∈ after, h.1 ≠ name) :
    stored m (before ++ (name, text) :: after) name = some (text.dropWhile isspace) := by
  rw [stored, List.foldl_append, List.foldl_cons]
  generalize before.foldl _ m = m'
  have hkeep : ∀ m₁ : StrMap, stored m₁ after name = m₁ name := by
    clear m m'
    induction after with
    | nil => exact fun _ => rfl
    | cons h after ih =>
      intro m₁
      refine (ih (fun x hx => hafter x (List.mem_cons_of_mem _ hx)) _).trans ?_
      exact update_of_ne (Ne.symm (hafter h List.mem_cons_self)) _ _
  exact (hkeep _).trans (update_self _ _ _)

structure Alike (rq rq' : HttpRequest) : Prop where
  method : rq'.method = rq.method
  path : rq'.path = rq.path
  version : rq'.version = rq.version
  header : rq'.header = rq.header
  body : rq'.body = rq.body

theorem Alike.refl (rq : HttpRequest) : Alike rq rq := ⟨rfl, rfl, rfl, rfl, rfl⟩

theorem Alike.trans (h : Alike rq rq₁) (h' : Alike rq₁ rq₂) : Alike rq rq₂ :=
  { method := h'.method.trans h.method
    path := h'.path.trans h.path
    version := h'.version.trans h.version
    header := h'.header.trans h.header
    body := h'.body.trans h.body }

theorem Alike.symm (h : Alike rq rq') : Alike rq' rq :=
  { method := h.method.symm
    path := h.path.symm
    version := h.version.symm
    header := h.header.symm
    body := h.body.symm }

theorem touch_isSome (m : StrMap) (key : Bytes) : (touch m key key).isSome := by
  unfold touch
  split
  · assumption
  · rw [update_self]
    rfl

theorem touch_touch (m : StrMap) (key : Bytes) : touch (touch m key) key = touch m key :=
  if_pos (touch_isSome m key)

theorem touch_keeps {m : StrMap} (h : m name = some value) : touch m key name = some value := by
  unfold touch
  split
  · exact h
  · rename_i hnone
    have hne : name ≠ key := by
      rintro rfl
      exact hnone (h ▸ rfl)
    exact (update_of_ne hne _ _).trans h

theorem parseDownload_keeps (svc : Services) (rq : HttpRequest) :
    Alike rq (rq.parseDownload svc) := by
  unfold HttpRequest.parseDownload
  cases svc.json (cstr rq.body) with
  | none => exact ⟨rfl, rfl, rfl, rfl, rfl⟩
  | some doc =>
    dsimp only
    split <;> split <;> exact ⟨rfl, rfl, rfl, rfl, rfl⟩

theorem handleUserCommand_keeps (svc : Services) (rq : HttpRequest) (cmd username password : Bytes) :
    Alike rq (rq.handleUserCommand svc cmd username password) := by
  have hkeep : ∀ success, Alike rq { rq with isSuccessJs := success } :=
    fun _ => ⟨rfl, rfl, rfl, rfl, rfl⟩
  unfold HttpRequest.handleUserCommand
  split
  · exact hkeep _
  · split
    · exact hkeep _
    · exact hkeep rq.isSuccessJs

theorem parsePost_keeps (svc : Services) {rq : HttpRequest}
    (ht : touch rq.header HttpRequest.contentType = rq.header) : Alike rq (rq.parsePost svc) := by
  have hform : ∀ rq : HttpRequest, Alike rq rq.parseFromUrlencoded := by
    intro rq
    unfold HttpRequest.parseFromUrlencoded
    split <;> exact ⟨rfl, rfl, rfl, rfl, rfl⟩
  have hflags : ∀ (rq : HttpRequest) js post, Alike rq { rq with returnJs := js, post := post } :=
    fun _ _ _ => ⟨rfl, rfl, rfl, rfl, rfl⟩
  unfold HttpRequest.parsePost
  rw [ht]
  split
  · dsimp only
    split
    · refine (hform _).trans ?_
      split
      · exact hflags _ _ _
      · exact (hflags _ _ _).trans (handleUserCommand_keeps ..)
    · exact hflags rq rq.returnJs rq.post
  · exact hflags rq rq.returnJs rq.post

/-- The body is read in one piece, and what is parsed already does not change. -/
theorem parseBody_keeps (svc : Services) (rq : HttpRequest) (line : Bytes) :
    (rq.parseBody svc line).state = .finish ∧
      Alike { rq with body := line, header := touch rq.header HttpRequest.contentType }
        (rq.parseBody svc line) := by
  have hfinish : ∀ rq : HttpRequest, Alike rq { rq with state := .finish } :=
    fun _ => ⟨rfl, rfl, rfl, rfl, rfl⟩
  refine ⟨rfl, ?_⟩
  unfold HttpRequest.parseBody
  dsimp only
  split
  · exact (parseDownload_keeps svc _).trans (hfinish _)
  · exact (parsePost_keeps svc (touch_touch _ _)).trans (hfinish _)

/-- The blank line ends the headers, and the request if nothing follows it. -/
theorem accept_blank (svc : Services) {rq : HttpRequest} (hs : rq.state = .headers) (n : Nat) :
    rq.accept svc [] n = some { rq with state := if n ≤ 2 then .finish else .body } := by
  have hblank : rq.parseHeader [] = { rq with state := .body } := rfl
  simp only [HttpRequest.accept, hs, hblank]
  split <;> rfl

theorem parses_rest (svc : Services) {rq : HttpRequest} (hs : rq.state = .body) (hne : rest ≠ [])
    (hcount : toInt rest.length ≠ 0) :
    Parses svc rq rest .done (rq.parseBody svc rest) (toSize (toInt rest.length)) := by
  have hin : rq.input rest = (toInt rest.length, rest) := if_neg (not_not.mpr hs)
  have ha : rq.accept svc rest rest.length = some (rq.parseBody svc rest) := by
    simp only [HttpRequest.accept, hs]
  have hturn := Parses.turn hin hne (by simp [hs]) hcount ha (.done (.inr rfl))
  rwa [Nat.add_zero] at hturn

/-- Reading a body looks the content type up. -/
def afterBody (m : StrMap) (body : Bytes) : StrMap :=
  if body = [] then m else touch m HttpRequest.contentType

theorem afterBody_keeps {m : StrMap} (body : Bytes) (h : m name = some value) :
    afterBody m body name = some value := by
  unfold afterBody
  split
  · exact h
  · exact touch_keeps h

theorem parses_body (svc : Services) {rq : HttpRequest} {body : Bytes} (hs : rq.state = .headers)
    (hb : rq.body = []) (hcount : body ≠ [] → toInt body.length ≠ 0) :
    ∃ rq', Parses svc rq (crlf ++ body) .done rq' (2 + toSize (toInt body.length)) ∧
      rq'.state = .finish ∧
      Alike { rq with body := body, header := afterBody rq.header body } rq' := by
  have hblank : ∀ n rq', Parses svc { rq with
      state := if (crlf ++ body).length ≤ 2 then .finish else .body } body .done rq' n →
      Parses svc rq ([] ++ (crlf ++ body)) .done rq' (([] : Bytes).length + 2 + n) :=
    fun n rq' hp => parses_line List.not_mem_nil (by decide) (by simp [hs]) (by simp [hs])
      (accept_blank svc hs _) hp
  simp only [List.nil_append, List.length_nil, Nat.zero_add] at hblank
  rcases body with - | ⟨c, body⟩
  · exact ⟨_, hblank 0 _ (.done (.inl rfl)), rfl, rfl, rfl, rfl, rfl, hb⟩
  · have hread : (crlf ++ c :: body).length ≤ 2 ↔ False := by simp [crlf]
    have hne : c :: body ≠ [] := List.cons_ne_nil _ _
    simp only [hread, if_false] at hblank
    obtain ⟨hfinish, hkeeps⟩ := parseBody_keeps svc { rq with state := .body } (c :: body)
    refine ⟨_, hblank _ _ (parses_rest svc rfl hne (hcount hne)), hfinish, ?_⟩
    exact ⟨hkeeps.method, hkeeps.path, hkeeps.version, hkeeps.header, hkeeps.body⟩

theorem accept_header (svc : Services) {rq : HttpRequest} (hs : rq.state = .headers)
    (hf : HeaderField h) (hn : 2 < n) :
    rq.accept svc (headerLine h) n = some { rq with
      header := update rq.header h.1 (some (h.2.dropWhile isspace)) } := by
  have hparse : rq.parseHeader (headerLine h) = { rq with
      header := update rq.header h.1 (some (h.2.dropWhile isspace)) } := by
    rw [HttpRequest.parseHeader, fullMatch_header hf]
  simp only [HttpRequest.accept, hs, hparse, Nat.not_le.mpr hn, if_false]

theorem parses_headers (svc : Services) (hs : List (Bytes × Bytes)) {rq : HttpRequest}
    (body : Bytes) (hfields : ∀ h ∈ hs, HeaderField h) (hstate : rq.state = .headers)
    (hb : rq.body = []) (hlen : (headerLines hs ++ (crlf ++ body)).length < 2 ^ 31) :
    ∃ rq', Parses svc rq (headerLines hs ++ (crlf ++ body)) .done rq'
        (headerLines hs ++ (crlf ++ body)).length ∧ rq'.state = .finish ∧
      Alike { rq with body := body, header := afterBody (stored rq.header hs) body } rq' := by
  induction hs generalizing rq with
  | nil =>
    simp only [headerLines, List.flatMap_nil, List.nil_append] at hlen ⊢
    have hsmall : body.length < 2 ^ 31 := by
      rw [List.length_append] at hlen
      omega
    have hcount : body ≠ [] → toInt body.length ≠ 0 := by
      intro hne
      have hpos := List.length_pos_iff.mpr hne
      rw [toInt_of_lt hsmall]
      omega
    have hp := parses_body svc hstate hb hcount
    rw [toSize_toInt hsmall] at hp
    rw [List.length_append]
    exact hp
  | cons h hs ih =>
    obtain ⟨hf, hrest⟩ := List.forall_mem_cons.mp hfields
    have htext : headerLines (h :: hs) ++ (crlf ++ body) =
        headerLine h ++ (crlf ++ (headerLines hs ++ (crlf ++ body))) := by
      simp only [headerLines, List.flatMap_cons, List.append_assoc]
    rw [htext] at hlen ⊢
    have hsplit : (headerLine h ++ (crlf ++ (headerLines hs ++ (crlf ++ body)))).length =
        (headerLine h).length + 2 + (headerLines hs ++ (crlf ++ body)).length := by
      simp only [List.length_append, crlf, List.length_cons, List.length_nil]
      omega
    have hmore : 2 ≤ (headerLines hs ++ (crlf ++ body)).length := by
      simp only [List.length_append, crlf, List.length_cons, List.length_nil]
      omega
    let rq₁ := { rq with header := update rq.header h.1 (some (h.2.dropWhile isspace)) }
    have hstate₁ : rq₁.state = .headers := hstate
    obtain ⟨rq', hp, hfinish, hkeeps⟩ := ih hrest hstate₁ hb (by omega)
    refine ⟨rq', ?_, hfinish, hkeeps⟩
    rw [hsplit]
    exact parses_line (headerLine_noCr hf) (by omega) (by simp [hstate]) (by simp [hstate])
      (accept_header svc hstate hf (by omega)) hp

theorem parses_serialise (svc : Services) {t : RequestText} (ht : t.WellFormed)
    (hlen : t.serialise.length < 2 ^ 31) :
    ∃ rq', Parses svc .init t.serialise .done rq' t.serialise.length ∧ rq'.state = .finish ∧
      rq'.method = t.method ∧ rq'.path = HttpRequest.parsedPath t.target ∧
      rq'.version = t.version ∧ rq'.body = t.body ∧
      rq'.header = afterBody (stored (fun _ => none) t.headers) t.body := by
  have hsplit : t.serialise.length =
      t.requestLine.length + 2 + (headerLines t.headers ++ (crlf ++ t.body)).length := by
    simp only [serialise, List.length_append, crlf, List.length_cons, List.length_nil]
    omega
  let rq₁ : HttpRequest := { HttpRequest.init with
    method := t.method, path := HttpRequest.parsedPath t.target, version := t.version
    state := .headers }
  have hline : ∀ n, HttpRequest.init.accept svc t.requestLine n = some rq₁ := by
    intro n
    simp only [HttpRequest.accept, HttpRequest.init, HttpRequest.parseRequestLine,
      fullMatch_requestLine ht]
    rfl
  have hstate₁ : rq₁.state = .headers := rfl
  obtain ⟨rq', hp, hfinish, hkeeps⟩ :=
    parses_headers svc t.headers t.body ht.headers hstate₁ rfl (by omega)
  refine ⟨rq', ?_, hfinish, hkeeps.method, hkeeps.path, hkeeps.version, hkeeps.body, hkeeps.header⟩
  rw [hsplit]
  exact parses_line (requestLine_noCr ht) (by omega) (by decide) (by decide) (hline _) hp

-- ---------------------------------------------------------------------------
-- The round trip
-- ---------------------------------------------------------------------------

/-- A header written as `name: value`, the value not starting with white space. -/
def Spaced (h : Bytes × Bytes) : Prop :=
  ∃ value, h.2 = 32 :: value ∧ ∀ c, value.head? = some c → isspace c = false

/-- A valid buffer that holds one serialised request, in whatever blocks:
`Init` and `parse` take all of it and give every part of the request back. -/
theorem round_trip (svc : Services) {t : RequestText} (ht : t.WellFormed)
    (hvalues : ∀ h ∈ t.headers, Spaced h) {b : BufferBlock} (hb : BufferBlock.Valid b)
    (hc : b.content = t.serialise) (hlen : b.content.length < 2 ^ 31) :
    ∃ rq' b', HttpRequest.init.parse svc b = .ok (rq', b', true) ∧
      BufferBlock.Valid b' ∧ b'.content = [] ∧ b'.readableBytes = 0 ∧ rq'.state = .finish ∧
      rq'.method = t.method ∧ rq'.path = HttpRequest.parsedPath t.target ∧
      rq'.version = t.version ∧ rq'.body = t.body ∧
      ∀ before name value after, t.headers = before ++ (name, 32 :: value) :: after →
        (∀ h ∈ after, h.1 ≠ name) → rq'.header name = some value := by
  have hr := hb.toRepr
  obtain ⟨rq', hp, hfinish, hmethod, hpath, hversion, hbody, hheader⟩ :=
    parses_serialise svc ht (hc ▸ hlen)
  have hne : b.content ≠ [] := by
    rw [hc, serialise]
    simp [crlf]
  have hempty : (b.consumeBytes b.content.length).content = [] := by
    rw [BufferBlock.consumeBytes_content hr, List.drop_length]
  rw [← hc] at hp
  refine ⟨rq', b.consumeBytes b.content.length, HttpRequest.parse_ok hr hne hp,
    BufferBlock.consumeBytes_valid hb _, hempty, ?_, hfinish, hmethod, hpath, hversion, hbody, ?_⟩
  · rw [BufferBlock.readableBytes, (BufferBlock.consumeBytes_repr hr _).total, hempty]
    rfl
  · intro before name value after hheaders hafter
    rw [hheader]
    refine afterBody_keeps t.body ?_
    rw [hheaders, stored_last _ hafter]
    obtain ⟨value', heq, hhead⟩ := hvalues (name, 32 :: value) (by simp [hheaders])
    obtain rfl : value = value' := (List.cons.inj heq).2
    have hkept : value.dropWhile isspace = value := by
      cases value with
      | nil => rfl
      | cons c value => exact List.dropWhile_cons_of_neg (by simp [hhead c rfl])
    exact congrArg some hkept

/-- Two blocks that part a CR from its LF, a header given twice, and a body. -/
theorem round_trip_example :
    let svc : Services :=
      { register := fun _ _ => false, login := fun _ _ => false, json := fun _ => none }
    let full (s : Bytes) : Block := { data := s, size := s.length, capacity := s.length, room := rfl }
    let b : BufferBlock :=
      { blocks := [full (bytes "PUT / HTTP/1.1\r"), full (bytes "\nAge: 1\r\nAge: 20\r\n\r\nok")]
        totalSize := 37, readPos := 0, writePos := 22, checkPos := 0 }
    ∃ rq' b', HttpRequest.init.parse svc b = .ok (rq', b', true) ∧ b'.readableBytes = 0 ∧
      rq'.path = bytes "/welcome.html" ∧ rq'.header (bytes "Age") = some (bytes "20") ∧
      rq'.body = bytes "ok" := by
  intro svc full b
  let t : RequestText :=
    { method := bytes "PUT", target := bytes "/", version := bytes "1.1"
      headers := [(bytes "Age", bytes " 1"), (bytes "Age", bytes " 20")], body := bytes "ok" }
  have ht : t.WellFormed :=
    { method := by unfold Token; decide
      target := by unfold Token; decide
      version := by unfold Token; decide
      headers := by unfold HeaderField; decide +kernel }
  have hvalues : ∀ h ∈ t.headers, Spaced h := by
    intro h hh
    simp only [t, List.mem_cons, List.not_mem_nil, or_false] at hh
    rcases hh with rfl | rfl
    · exact ⟨bytes "1", rfl, by decide +kernel⟩
    · exact ⟨bytes "20", rfl, by decide +kernel⟩
  have hb : BufferBlock.Valid b := by
    refine ⟨⟨?_, Nat.zero_le _, by decide⟩, ?_⟩
    · intro blk hblk
      rcases List.mem_pair.mp hblk with rfl | rfl
      · exact Nat.le_refl _
      · exact Nat.le_refl _
    · intro blk hblk
      cases hblk
      rfl
  obtain ⟨rq', b', hp, -, -, hread, -, -, hpath, -, hbody, hheader⟩ :=
    round_trip svc ht hvalues hb (by decide) (by decide)
  refine ⟨rq', b', hp, hread, hpath.trans (by decide), ?_, hbody⟩
  exact hheader [(bytes "Age", bytes " 1")] (bytes "Age") (bytes "20") [] rfl (by simp)

end RequestText

end MudouHttp
