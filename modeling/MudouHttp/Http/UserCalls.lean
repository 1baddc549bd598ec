import MudouHttp.Http.Forms
import MudouHttp.Http.Pipelining
import MudouHttp.Http.TextBounds
import MudouHttp.Lib.Asking
import MudouHttp.Mysql.Logins

/-!
# The call a request makes

`parse` calls `UserDao` in the middle of a request, while other threads use the
database. `parseAsking` is `parse` as a program that asks for the result of the
call (`parse_run`). It asks once at most, and the bytes of the request say what
for (`parse_asks_once`).
-/

namespace MudouHttp

open BufferBlock (Valid)
open HttpRequest
open Lib (Asking)
open Lib.Asking (query AsksOnly)

/-- What stops at a call of `UserDao`. -/
abbrev Parsing := Asking UserCall Bool Fault

namespace Services

def answer (svc : Services) : UserCall → Bool
  | .register username password => svc.register username password
  | .login username password => svc.login username password

def answering (json : Bytes → Option (Bytes → Option Bytes)) (result : Bool) : Services :=
  { register := fun _ _ => result, login := fun _ _ => result, json := json }

end Services

namespace HttpRequest

variable (json : Bytes → Option (Bytes → Option Bytes))

def handleUserCommandAsking (rq : HttpRequest) (cmd username password : Bytes) :
    Parsing HttpRequest :=
  if cmd = bytes "register" then do
    let result ← query (.register username password)
    pure { rq with isSuccessJs := result }
  else if cmd = bytes "login" then do
    let result ← query (.login username password)
    pure { rq with isSuccessJs := result }
  else pure rq

def parsePostAsking (rq : HttpRequest) : Parsing HttpRequest :=
  if contains rq.method (bytes "POST") then
    let rq := { rq with header := touch rq.header contentType }
    if lookup rq.header contentType = bytes "application/x-www-form-urlencoded" then
      let rq := rq.parseFromUrlencoded
      match defaultHtmlTag rq.path with
      | none => pure rq
      | some tag =>
        let rq := { rq with
          returnJs := true
          post := touch (touch rq.post (bytes "username")) (bytes "password") }
        rq.handleUserCommandAsking (if tag = 1 then bytes "login" else bytes "register")
          (lookup rq.post (bytes "username")) (lookup rq.post (bytes "password"))
    else pure rq
  else pure rq

/-- A download asks nobody. -/
def parseBodyAsking (rq : HttpRequest) (line : Bytes) : Parsing HttpRequest := do
  let rq := { rq with body := line, header := touch rq.header contentType }
  let rq ← (if contains rq.path (bytes "/download") ∧
      lookup rq.header contentType = bytes "application/json" then
      pure (rq.parseDownload (.answering json false))
    else rq.parsePostAsking)
  pure { rq with state := .finish }

/-- Nothing is asked before the body. -/
def acceptAsking (rq : HttpRequest) (line : Bytes) (readable : Nat) :
    Parsing (Option HttpRequest) :=
  match rq.state with
  | .body => do
    let rq ← rq.parseBodyAsking json line
    pure (some rq)
  | _ => pure (rq.accept (.answering json false) line readable)

def parseLoopAsking (startPos : Nat) :
    Nat → HttpRequest → BufferBlock → Parsing (HttpRequest × BufferBlock × Bool)
  | 0, _, _ => .done (.error .diverges)
  | fuel + 1, rq, buff =>
    if buff.readableBytes = 0 ∨ rq.state = .finish then pure (rq, buff, true)
    else do
      let (consumed, line) ← .done (rq.readInput buff)
      if consumed = 0 then pure (rq, { buff with readPos := startPos }, false)
      else
        match ← rq.acceptAsking json line buff.readableBytes with
        | none => pure (rq, buff, false)
        | some rq => parseLoopAsking startPos fuel rq (buff.consumeBytes (toSize consumed))

def parseAsking (rq : HttpRequest) (buff : BufferBlock) :
    Parsing (HttpRequest × BufferBlock × Bool) :=
  if buff.readableBytes = 0 then pure (rq, buff, false)
  else rq.parseLoopAsking json buff.readPos ((buff.blocks.map Block.capacity).sum + 2) buff

def userCall (rq : HttpRequest) : Option UserCall :=
  if rq.returnJs then
    some ((if rq.path = bytes "/login.html" then UserCall.login else UserCall.register)
      (rq.getPost (bytes "username")) (rq.getPost (bytes "password")))
  else none

end HttpRequest

def Parts.userCall (p : Parts) : Option UserCall :=
  if p.IsForm then
    if p.path = bytes "/register.html" then some (.register p.username p.password)
    else if p.path = bytes "/login.html" then some (.login p.username p.password)
    else none
  else none

-- ---------------------------------------------------------------------------
-- The program and the parser
-- ---------------------------------------------------------------------------

namespace HttpRequest

theorem handleUserCommand_run (svc : Services) (rq : HttpRequest) (cmd username password : Bytes) :
    (rq.handleUserCommandAsking cmd username password).run svc.answer =
      .ok (rq.handleUserCommand svc cmd username password) := by
  unfold handleUserCommandAsking handleUserCommand
  split
  · rfl
  · split <;> rfl

theorem parsePost_run (svc : Services) (rq : HttpRequest) :
    rq.parsePostAsking.run svc.answer = .ok (rq.parsePost svc) := by
  unfold parsePostAsking parsePost
  split
  · dsimp only
    split
    · generalize parseFromUrlencoded _ = rq
      cases defaultHtmlTag rq.path with
      | none => rfl
      | some tag => exact handleUserCommand_run ..
    · rfl
  · rfl

theorem parseBody_run (svc : Services) (rq : HttpRequest) (line : Bytes) :
    (rq.parseBodyAsking svc.json line).run svc.answer = .ok (rq.parseBody svc line) := by
  unfold parseBodyAsking parseBody
  dsimp only
  rw [Asking.run_bind]
  split
  · rfl
  · rw [parsePost_run]
    rfl

theorem accept_run (svc : Services) (rq : HttpRequest) (line : Bytes) (readable : Nat) :
    (rq.acceptAsking svc.json line readable).run svc.answer = .ok (rq.accept svc line readable) := by
  cases hs : rq.state with
  | body =>
    simp only [acceptAsking, accept, hs]
    rw [Asking.run_bind, parseBody_run]
    rfl
  | _ =>
    simp only [acceptAsking, accept, hs]
    rfl

theorem parseLoop_run (svc : Services) (startPos fuel : Nat) (rq : HttpRequest) (buff : BufferBlock) :
    (rq.parseLoopAsking svc.json startPos fuel buff).run svc.answer =
      rq.parseLoop svc startPos fuel buff := by
  induction fuel generalizing rq buff with
  | zero => rfl
  | succ fuel ih =>
    unfold parseLoopAsking parseLoop
    split
    · rfl
    · rw [Asking.run_bind, Asking.run_done]
      cases rq.readInput buff with
      | error fault => rfl
      | ok input =>
        obtain ⟨consumed, line⟩ := input
        rw [ok_bind, ok_bind]
        dsimp only
        split
        · rfl
        · rw [Asking.run_bind, accept_run, ok_bind]
          cases rq.accept svc line buff.readableBytes with
          | none => rfl
          | some rq => exact ih ..

/-- The answers of the database in place of the questions give the parser. -/
theorem parse_run (svc : Services) (rq : HttpRequest) (buff : BufferBlock) :
    (rq.parseAsking svc.json buff).run svc.answer = rq.parse svc buff := by
  unfold parseAsking parse
  split
  · rfl
  · exact parseLoop_run ..

-- ---------------------------------------------------------------------------
-- What is asked
-- ---------------------------------------------------------------------------

theorem handleUserCommand_asks {rq : HttpRequest} (htag : defaultHtmlTag rq.path = some tag)
    (username password : Bytes) :
    AsksOnly (rq.handleUserCommandAsking (if tag = 1 then bytes "login" else bytes "register")
        username password)
      (fun r => .ok (rq.handleUserCommand (.answering json r)
        (if tag = 1 then bytes "login" else bytes "register") username password))
      (some ((if rq.path = bytes "/login.html" then UserCall.login else UserCall.register)
        username password)) := by
  rcases (defaultHtmlTag_some _ _).mp htag with ⟨hpath, rfl⟩ | ⟨hpath, rfl⟩
  · rw [hpath]
    rfl
  · rw [hpath]
    rfl

theorem userCall_none {rq : HttpRequest} (h : rq.returnJs = false) : rq.userCall = none := by
  rw [userCall, h]
  rfl

theorem parsePost_asks {rq : HttpRequest} (h : rq.returnJs = false) :
    ∃ o, AsksOnly rq.parsePostAsking (fun r => .ok (rq.parsePost (.answering json r))) o ∧
      ∀ r, (rq.parsePost (.answering json r)).userCall = o := by
  unfold parsePostAsking parsePost
  split
  · dsimp only
    split
    · obtain ⟨rq₁, hrq, hjs⟩ : ∃ rq₁, parseFromUrlencoded
          { rq with header := touch rq.header contentType } = rq₁ ∧ rq₁.returnJs = false := by
        obtain ⟨post, hpost⟩ :=
          parseFromUrlencoded_eq { rq with header := touch rq.header contentType }
        exact ⟨_, hpost, h⟩
      rw [hrq]
      cases htag : defaultHtmlTag rq₁.path with
      | none => exact ⟨none, fun _ => rfl, fun _ => userCall_none hjs⟩
      | some tag =>
        dsimp only
        refine ⟨_, handleUserCommand_asks ?_ _ _, fun r => ?_⟩
        · exact htag
        · rcases (defaultHtmlTag_some _ _).mp htag with ⟨-, rfl⟩ | ⟨-, rfl⟩ <;> rfl
    · exact ⟨none, fun _ => rfl, fun _ => userCall_none h⟩
  · exact ⟨none, fun _ => rfl, fun _ => userCall_none h⟩

theorem parseBody_asks {rq : HttpRequest} (h : rq.returnJs = false) (line : Bytes) :
    ∃ o, AsksOnly (rq.parseBodyAsking json line)
        (fun r => .ok (rq.parseBody (.answering json r) line)) o ∧
      ∀ r, (rq.parseBody (.answering json r) line).userCall = o := by
  unfold parseBodyAsking parseBody
  dsimp only
  split
  · refine ⟨none, fun _ => rfl, fun r => userCall_none ?_⟩
    obtain ⟨post, hpost⟩ := parseDownload_eq (.answering json r)
      { rq with body := line, header := touch rq.header contentType }
    rw [hpost]
    exact h
  · obtain ⟨o, hasks, hcall⟩ := parsePost_asks
      (show { rq with body := line, header := touch rq.header contentType }.returnJs = false from h)
    exact ⟨o, hasks.bind fun _ => rfl, hcall⟩

theorem acceptAsking_other (json : Bytes → Option (Bytes → Option Bytes)) {rq : HttpRequest}
    (hs : rq.state ≠ .body) (line : Bytes) (n : Nat) (r : Bool) :
      rq.acceptAsking json line n = pure (rq.accept (.answering json r) line n) := by
  cases hstate : rq.state with
  | body => exact absurd hstate hs
  | _ => simp only [acceptAsking, accept, hstate]

theorem parseLoopAsking_finish (json : Bytes → Option (Bytes → Option Bytes)) (startPos fuel : Nat)
    {rq : HttpRequest} (hs : rq.state = .finish) (buff : BufferBlock) :
    ∃ x : Except Fault (HttpRequest × BufferBlock × Bool),
      rq.parseLoopAsking json startPos fuel buff = .done x ∧
      (∀ svc, rq.parseLoop svc startPos fuel buff = x) ∧
      ∀ rq' left parsed, x = .ok (rq', left, parsed) → rq' = rq ∧ parsed = true := by
  cases fuel with
  | zero => exact ⟨.error .diverges, rfl, fun _ => rfl, fun _ _ _ he => by cases he⟩
  | succ fuel =>
    refine ⟨.ok (rq, buff, true), ?_, fun svc => ?_, fun rq' left parsed h => ?_⟩
    · rw [parseLoopAsking, if_pos (.inr hs)]
      rfl
    · rw [parseLoop, if_pos (.inr hs)]
    · cases h
      exact ⟨rfl, rfl⟩

/-- The loop asks once at most, and a request that has asked is parsed. -/
theorem parseLoop_asks (startPos fuel : Nat) {rq : HttpRequest} (h : Bodyless rq)
    (buff : BufferBlock) :
    ∃ o, AsksOnly (rq.parseLoopAsking json startPos fuel buff)
        (fun r => rq.parseLoop (.answering json r) startPos fuel buff) o ∧
      ∀ r rq' left parsed, rq.parseLoop (.answering json r) startPos fuel buff =
        .ok (rq', left, parsed) → rq'.userCall = o ∧ (o ≠ none → parsed = true) := by
  induction fuel generalizing rq buff with
  | zero => exact ⟨none, fun _ => rfl, fun _ _ _ _ he => by cases he⟩
  | succ fuel ih =>
    have hleave : ∀ {b : BufferBlock} {p : Bool} {rq₁ : HttpRequest} {left : BufferBlock}
        {parsed : Bool}, .ok (rq, b, p) = (.ok (rq₁, left, parsed) : Except Fault _) →
        rq₁.userCall = none ∧ ((none : Option UserCall) ≠ none → parsed = true) := by
      intro b p rq₁ left parsed he
      cases he
      exact ⟨userCall_none h.js, fun hne => absurd rfl hne⟩
    unfold parseLoopAsking parseLoop
    split
    · exact ⟨none, fun _ => rfl, fun _ _ _ _ he => hleave he⟩
    · rename_i hgo
      cases hread : rq.readInput buff with
      | error fault => exact ⟨none, fun _ => rfl, fun _ _ _ _ he => by cases he⟩
      | ok input =>
        obtain ⟨consumed, line⟩ := input
        simp only [Asking.ok_bind, MudouHttp.ok_bind]
        split
        · exact ⟨none, fun _ => rfl, fun _ _ _ _ he => hleave he⟩
        · by_cases hs : rq.state = .body
          · have haccept : ∀ svc, rq.accept svc line buff.readableBytes =
                some (rq.parseBody svc line) := fun svc => by simp only [accept, hs]
            obtain ⟨o, hasks, hcall⟩ := @parseBody_asks json rq h.js line
            have hask : AsksOnly (rq.acceptAsking json line buff.readableBytes)
                (fun r => .ok (some (rq.parseBody (.answering json r) line))) o := by
              simp only [acceptAsking, hs]
              exact hasks.bind fun _ => rfl
            have hend := fun r => parseLoopAsking_finish json startPos fuel
              (show (rq.parseBody (.answering json r) line).state = .finish from rfl)
            refine ⟨o, hask.bind fun r => ?_, fun r rq' left parsed he => ?_⟩
            · obtain ⟨x, hprogram, hloop, -⟩ := hend r (buff.consumeBytes (toSize consumed))
              rw [haccept]
              exact hprogram.trans (congrArg _ (hloop _).symm)
            · rw [haccept] at he
              obtain ⟨x, -, hloop, hleft⟩ := hend r (buff.consumeBytes (toSize consumed))
              obtain ⟨rfl, rfl⟩ := hleft _ _ _ ((hloop _).symm.trans he)
              exact ⟨hcall r, fun _ => rfl⟩
          · have hsame := acceptAsking_other json hs line buff.readableBytes
            have haccept : ∀ r, rq.accept (.answering json r) line buff.readableBytes =
                rq.accept (.answering json false) line buff.readableBytes := fun r =>
              Except.ok.inj (Asking.done.inj ((hsame r).symm.trans (hsame false)))
            simp only [hsame false, haccept]
            cases ha : rq.accept (.answering json false) line buff.readableBytes with
            | none => exact ⟨none, fun _ => rfl, fun _ _ _ _ he => hleave he⟩
            | some rq₁ => exact ih (accept_bodyless h hs ha) _

theorem init_bodyless : Bodyless HttpRequest.init := ⟨rfl, rfl, rfl, rfl⟩

theorem parse_asks (json : Bytes → Option (Bytes → Option Bytes)) {rq : HttpRequest}
    (h : Bodyless rq) (buff : BufferBlock) :
    ∃ o, AsksOnly (rq.parseAsking json buff) (fun r => rq.parse (.answering json r) buff) o ∧
      ∀ r rq' left parsed, rq.parse (.answering json r) buff = .ok (rq', left, parsed) →
        rq'.userCall = o ∧ (o ≠ none → parsed = true) := by
  unfold parseAsking parse
  split
  · refine ⟨none, fun _ => rfl, fun r rq' left parsed he => ?_⟩
    cases he
    exact ⟨userCall_none h.js, fun hne => absurd rfl hne⟩
  · exact parseLoop_asks _ _ h buff

theorem parse_returns (svc : Services) {b : BufferBlock} (hb : Valid b) :
    ∃ rq' left parsed, HttpRequest.init.parse svc b = .ok (rq', left, parsed) := by
  by_cases hc : b.content = []
  · refine ⟨.init, b, false, ?_⟩
    rw [parse, if_pos (by rw [BufferBlock.readableBytes, hb.toRepr.total, hc]; rfl)]
  · obtain ⟨o, rq', k, hp⟩ := Parses.exists svc .init b.content
    exact ⟨_, _, _, HttpRequest.parse_ok hb.toRepr hc hp⟩

end HttpRequest

-- ---------------------------------------------------------------------------
-- What the bytes ask for
-- ---------------------------------------------------------------------------

namespace Parts

theorem isForm_fields {p : Parts} (svc : Services) (h : p.IsForm) (key : Bytes) :
    (p.whole svc).getPost key = lookup p.form key := by
  rw [getPost, whole_fields, fields, if_neg (not_isJson h), if_pos h]

theorem whole_userCall (svc : Services) {p : Parts} (h : FlagsOk svc (p.whole svc)) :
    (p.whole svc).userCall = p.userCall := by
  obtain ⟨-, hpath⟩ := whole_keeps svc p
  have hjs : (p.whole svc).returnJs = true ↔
      p.IsForm ∧ (p.path = bytes "/register.html" ∨ p.path = bytes "/login.html") :=
    h.js.trans (whole_isForm svc p)
  have hne : bytes "/register.html" ≠ bytes "/login.html" := by decide
  by_cases hform : p.IsForm
  · rw [Parts.userCall, if_pos hform, HttpRequest.userCall, hpath, isForm_fields svc hform,
      isForm_fields svc hform]
    by_cases hregister : p.path = bytes "/register.html"
    · rw [if_pos (hjs.mpr ⟨hform, .inl hregister⟩), if_pos hregister,
        if_neg (hregister ▸ hne)]
      rfl
    · rw [if_neg hregister]
      by_cases hlogin : p.path = bytes "/login.html"
      · rw [if_pos (hjs.mpr ⟨hform, .inr hlogin⟩), if_pos hlogin, if_pos hlogin]
        rfl
      · rw [if_neg fun hr => (hjs.mp hr).2.elim hregister hlogin, if_neg hlogin]
  · rw [Parts.userCall, if_neg hform, userCall_none]
    exact Bool.eq_false_iff.mpr fun hr => hform (hjs.mp hr).1

end Parts

/-- The request that is parsed has made the call its bytes name. -/
theorem Cut.userCall (svc : Services) {b : BufferBlock} (hb : Valid b) (h : Cut b.content p) :
    ∃ rq' left, HttpRequest.init.parse svc b = .ok (rq', left, true) ∧
      rq'.userCall = p.userCall := by
  obtain ⟨state, left, hparse⟩ := h.parse svc hb
  exact ⟨_, left, hparse, Parts.whole_userCall svc (Parts.flagsOk_state (parse_flags hparse))⟩

/-- A call that is asked for is the one the bytes name, and the answer decides the rest. -/
theorem ask_call {b : BufferBlock} (hb : Valid b)
    (h : HttpRequest.init.parseAsking json b = .ask call next) :
    (∃ p, Cut b.content p ∧ p.userCall = some call) ∧
      ∀ result, next result = .done (HttpRequest.init.parse (.answering json result) b) := by
  obtain ⟨o, hasks, hcall⟩ := parse_asks json init_bodyless b
  cases o with
  | none => cases (hasks true).symm.trans h
  | some call' =>
    cases (show HttpRequest.init.parseAsking json b = .ask call' _ from hasks).symm.trans h
    obtain ⟨rq, left, parsed, hparse⟩ := parse_returns (.answering json true) hb
    obtain ⟨hasked, hparsed⟩ := hcall _ _ _ _ hparse
    obtain rfl := hparsed (by simp)
    obtain ⟨p, hp⟩ := cut_of_parse hb hparse
    obtain ⟨rq', left', hparse', hp'⟩ := hp.userCall (.answering json true) hb
    cases hparse.symm.trans hparse'
    exact ⟨⟨p, hp, hp'.symm.trans hasked⟩, fun _ => rfl⟩

/-- A request is parsed with one call at most, the one its bytes name, and the
answer decides the rest. -/
theorem parse_asks_once (json : Bytes → Option (Bytes → Option Bytes)) {b : BufferBlock}
    (hb : Valid b) :
    (∃ call p, Cut b.content p ∧ p.userCall = some call ∧
      HttpRequest.init.parseAsking json b =
        .ask call fun result => .done (HttpRequest.init.parse (.answering json result) b)) ∨
    (∀ p, Cut b.content p → p.userCall = none) ∧
      ∀ result, HttpRequest.init.parseAsking json b =
        .done (HttpRequest.init.parse (.answering json result) b) := by
  obtain ⟨o, hasks, hcall⟩ := parse_asks json init_bodyless b
  cases o with
  | none =>
    refine .inr ⟨fun p hp => ?_, hasks⟩
    obtain ⟨rq', left, hparse, hp'⟩ := hp.userCall (.answering json true) hb
    exact hp'.symm.trans (hcall _ _ _ _ hparse).1
  | some call =>
    obtain ⟨⟨p, hp, hpcall⟩, -⟩ := ask_call hb hasks
    exact .inl ⟨call, p, hp, hpcall, hasks⟩

theorem userCall_asked {rq : HttpRequest} {b : BufferBlock}
    (h : HttpRequest.init.parse (.answering json result) b = .ok (rq, left, parsed)) :
    (HttpRequest.init.parseAsking json b).asked = rq.userCall := by
  obtain ⟨o, hasks, hcall⟩ := parse_asks json init_bodyless b
  rw [(hcall _ _ _ _ h).1]
  cases o with
  | none =>
    rw [hasks result]
    rfl
  | some call =>
    rw [show HttpRequest.init.parseAsking json b = .ask call _ from hasks]
    rfl

theorem success_userCall {svc : Services} {b : BufferBlock}
    (h : HttpRequest.init.parse svc b = .ok (rq, left, parsed)) :
    rq.isSuccessJs = true ↔ ∃ call, rq.userCall = some call ∧ svc.answer call = true := by
  have hflags := parse_flags h
  rw [hflags.success, ← hflags.js, userResult, HttpRequest.userCall]
  cases rq.returnJs with
  | false => simp
  | true =>
    by_cases hpath : rq.path = bytes "/login.html"
    · simp [hpath, Services.answer]
    · simp [hpath, Services.answer]

theorem answered_parses {b : BufferBlock} (hb : Valid b)
    (h : (HttpRequest.init.parseAsking json b).asked = some call) (result : Bool) :
    ∃ rq left, HttpRequest.init.parse (.answering json result) b = .ok (rq, left, true) ∧
      (rq.isSuccessJs = true ↔ result = true) := by
  obtain ⟨o, -, hcall⟩ := parse_asks json init_bodyless b
  obtain ⟨rq, left, parsed, hparse⟩ := parse_returns (.answering json result) hb
  have huser : rq.userCall = some call := (userCall_asked hparse).symm.trans h
  obtain ⟨ho, hparsed⟩ := hcall _ _ _ _ hparse
  obtain rfl := hparsed (by simp [← ho, huser])
  refine ⟨rq, left, hparse, (success_userCall hparse).trans ?_⟩
  rw [huser]
  cases call <;> simp [Services.answer, Services.answering]

def formText (page body : String) : Bytes :=
  bytes ("POST " ++ page ++ " HTTP/1.1\r\nContent-Type: application/x-www-form-urlencoded\r\n\r\n" ++
    body)

theorem parse_asks_once_example : ∃ p,
    Cut (held (formText "/login" "username=bob&password=a+b")).content p ∧
    p.userCall = some (.login (bytes "bob") (bytes "a b")) ∧
    HttpRequest.init.parseAsking (fun _ => none)
        (held (formText "/login" "username=bob&password=a+b")) =
      .ask (.login (bytes "bob") (bytes "a b")) fun result => .done (HttpRequest.init.parse
        (.answering (fun _ => none) result)
        (held (formText "/login" "username=bob&password=a+b"))) := by
  have hasked : (HttpRequest.init.parseAsking (fun _ => none)
      (held (formText "/login" "username=bob&password=a+b"))).asked =
      some (.login (bytes "bob") (bytes "a b")) := by decide +kernel
  rcases parse_asks_once (fun _ => none)
      (held_valid (formText "/login" "username=bob&password=a+b")) with
    ⟨call, p, hp, hcall, hprogram⟩ | ⟨-, hprogram⟩
  · rw [hprogram] at hasked
    obtain rfl := Option.some.inj hasked
    exact ⟨p, hp, hcall, hprogram⟩
  · rw [hprogram true] at hasked
    exact absurd hasked (by simp [Asking.asked])

-- ---------------------------------------------------------------------------
-- The form of a browser
-- ---------------------------------------------------------------------------

/-- A form for one of the two pages, its fields serialised as a browser does it. -/
structure RequestText.Posts (t : RequestText) (fields : List (Bytes × Bytes)) : Prop where
  wellFormed : t.WellFormed
  method : t.method = bytes "POST"
  page : parsedPath t.target = bytes "/register.html" ∨ parsedPath t.target = bytes "/login.html"
  type : ∃ before after, t.headers = before ++ (contentType, 32 :: formType) :: after ∧
    ∀ h ∈ after, h.1 ≠ contentType
  body : t.body = serialiseForm fields

theorem RequestText.Posts.parses {t : RequestText} (h : t.Posts fields) (hne : fields ≠ [])
    (svc : Services) {b : BufferBlock} (hb : Valid b) (hc : b.content = t.serialise)
    (hlen : b.content.length < 2 ^ 31) :
    ∃ rq' left, HttpRequest.init.parse svc b = .ok (rq', left, true) ∧
      rq'.method = t.method ∧ rq'.path = parsedPath t.target ∧ rq'.body = t.body ∧
      IsForm rq' := by
  obtain ⟨rq', hp, -, hmethod, hpath, -, hbody, hheader⟩ :=
    RequestText.parses_serialise svc h.wellFormed (hc ▸ hlen)
  have hcontent : b.content ≠ [] := by
    rw [hc, RequestText.serialise]
    simp [crlf]
  rw [← hc] at hp
  refine ⟨rq', _, HttpRequest.parse_ok hb.toRepr hcontent hp, hmethod, hpath, hbody, ?_⟩
  obtain ⟨before, after, hheaders, hafter⟩ := h.type
  have htype : rq'.header contentType = some formType := by
    rw [hheader]
    refine RequestText.afterBody_keeps t.body ?_
    rw [hheaders, RequestText.stored_last _ hafter]
    decide
  have hsome : serialiseForm fields ≠ [] := by
    intro hempty
    have hfields := formFields_serialise hne (hempty ▸ Nat.two_pow_pos 31)
    rw [hempty] at hfields
    exact hne hfields.symm
  exact
    { method := by rw [hmethod, h.method]; decide
      type := by rw [lookup, htype]; rfl
      path := by rw [hpath]; exact h.page
      body := by rw [hbody, h.body]; exact hsome }

theorem Parts.form_serialise {p : Parts} (hbody : p.body = serialiseForm entries) (hne : entries ≠ [])
    (hlen : p.body.length < 2 ^ 31) (h : Lib.LastOf entries key value) :
    lookup p.form key = value := by
  have hform : p.form = Lib.assign (fun _ => none) (formFields p.body) :=
    parseFromUrlencodedLoop_ok (formRuns_fields p.body 0 fun _ => none) (Nat.le_refl _)
  rw [lookup, hform, hbody, formFields_serialise hne (hbody ▸ hlen), Lib.assign_last h]
  rfl

/-- A browser's form asks for the call of its page, with the username and the
password typed in, whatever bytes they are. -/
theorem form_asks (json : Bytes → Option (Bytes → Option Bytes)) {t : RequestText}
    (h : t.Posts fields) (husername : Lib.LastOf fields (bytes "username") username)
    (hpassword : Lib.LastOf fields (bytes "password") password) {b : BufferBlock} (hb : Valid b)
    (hc : b.content = t.serialise) (hlen : b.content.length < 2 ^ 31) :
    HttpRequest.init.parseAsking json b =
      .ask ((if parsedPath t.target = bytes "/login.html" then UserCall.login else UserCall.register)
        username password)
      fun result => .done (HttpRequest.init.parse (.answering json result) b) := by
  have hne : fields ≠ [] := by
    obtain ⟨before, after, rfl, -⟩ := husername
    simp
  obtain ⟨rq', left, hparse, -, hpath, hbody, hform⟩ :=
    h.parses hne (.answering json true) hb hc hlen
  obtain ⟨p, hp⟩ := cut_of_parse hb hparse
  obtain ⟨state, left', hwhole⟩ := hp.parse (.answering json true) hb
  cases hparse.symm.trans hwhole
  have hpform : p.IsForm :=
    ((Parts.whole_isForm (.answering json true) p).mp
      ⟨hform.method, hform.type, hform.path, hform.body⟩).1
  have hpbody : p.body = t.body := (Parts.whole_body (.answering json true) p).symm.trans hbody
  have hshort : p.body.length < 2 ^ 31 := by
    rw [hpbody]
    rw [hc, RequestText.serialise] at hlen
    simp only [List.length_append] at hlen
    omega
  have hppath : p.path = parsedPath t.target :=
    (Parts.whole_keeps (.answering json true) p).2.symm.trans hpath
  have hpbody' := hpbody.trans h.body
  have huser : p.userCall = some ((if parsedPath t.target = bytes "/login.html" then UserCall.login
      else UserCall.register) username password) := by
    have hne' : bytes "/login.html" ≠ bytes "/register.html" := by decide
    rw [Parts.userCall, if_pos hpform, hppath, Parts.username, Parts.password,
      Parts.form_serialise hpbody' hne hshort husername, Parts.form_serialise hpbody' hne hshort hpassword]
    rcases h.page with hpage | hpage
    · rw [hpage, if_pos rfl, if_neg hne'.symm]
    · rw [hpage, if_neg hne', if_pos rfl, if_pos rfl]
  obtain ⟨rq₁, left₁, hparse₁, hcall₁⟩ := hp.userCall (.answering json true) hb
  obtain ⟨o, hasks, hcall⟩ := parse_asks json init_bodyless b
  obtain rfl := (hcall _ _ _ _ hparse₁).1.symm.trans (hcall₁.trans huser)
  exact hasks

def bobsForm : List (Bytes × Bytes) :=
  [(bytes "username", bytes "bob"), (bytes "password", bytes "a b*~&=%")]

def bobsRequest : RequestText :=
  { method := bytes "POST", target := bytes "/register", version := bytes "1.1"
    headers := [(bytes "Host", bytes " a"), (contentType, 32 :: formType)]
    body := serialiseForm bobsForm }

theorem bobsRequest_posts : bobsRequest.Posts bobsForm :=
  { wellFormed :=
      { method := by unfold RequestText.Token; decide
        target := by unfold RequestText.Token; decide
        version := by unfold RequestText.Token; decide
        headers := by unfold RequestText.HeaderField; decide +kernel }
    method := rfl
    page := .inl (by decide)
    type := ⟨[(bytes "Host", bytes " a")], [], rfl, List.forall_mem_nil _⟩
    body := rfl }

theorem form_asks_example : HttpRequest.init.parseAsking (fun _ => none) (held bobsRequest.serialise) =
    .ask (.register (bytes "bob") (bytes "a b*~&=%")) fun result => .done (HttpRequest.init.parse
      (.answering (fun _ => none) result) (held bobsRequest.serialise)) := by
  have hasks := form_asks (fun _ => none) bobsRequest_posts
    ⟨[], [(bytes "password", bytes "a b*~&=%")], rfl, by decide⟩
    ⟨[(bytes "username", bytes "bob")], [], rfl, List.not_mem_nil⟩ (held_valid _) (held_content _)
    (by rw [held_content]; decide +kernel)
  have hpage : parsedPath bobsRequest.target ≠ bytes "/login.html" := by decide
  rwa [if_neg hpage] at hasks

end MudouHttp
