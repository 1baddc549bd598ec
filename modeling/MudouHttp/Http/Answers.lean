import MudouHttp.Http.Connection
import MudouHttp.Http.ResponseLaws
import MudouHttp.Http.RoundTrip

/-!
# The response and the request it answers

`onmessage` hands the flags of the request to `HttpResponse::Init` in another
order than its parameters stand in, so that the response answers the request
exactly if all of them are unset: the request is not kept alive and is no
login or register form (`answers_iff`).
-/

namespace MudouHttp

open HttpRequest
open RequestText (parseBody_keeps touch_touch)

-- ---------------------------------------------------------------------------
-- The flags of a request
-- ---------------------------------------------------------------------------

def formType : Bytes := bytes "application/x-www-form-urlencoded"

structure IsForm (rq : HttpRequest) : Prop where
  method : contains rq.method (bytes "POST") = true
  type : lookup rq.header contentType = formType
  path : rq.path = bytes "/register.html" ∨ rq.path = bytes "/login.html"
  body : rq.body ≠ []

def userResult (svc : Services) (rq : HttpRequest) : Bool :=
  (if rq.path = bytes "/login.html" then svc.login else svc.register)
    (rq.getPost (bytes "username")) (rq.getPost (bytes "password"))

structure FlagsOk (svc : Services) (rq : HttpRequest) : Prop where
  js : rq.returnJs = true ↔ IsForm rq
  success : rq.isSuccessJs = true ↔ IsForm rq ∧ userResult svc rq = true
  download : rq.isDownload = false

structure Bodyless (rq : HttpRequest) : Prop where
  js : rq.returnJs = false
  success : rq.isSuccessJs = false
  download : rq.isDownload = false
  body : rq.body = []

theorem Bodyless.flagsOk (h : Bodyless rq) (svc : Services) : FlagsOk svc rq :=
  { js := by
      rw [h.js]
      exact iff_of_false Bool.false_ne_true fun hf => hf.body h.body
    success := by
      rw [h.success]
      exact iff_of_false Bool.false_ne_true fun hf => hf.1.body h.body
    download := h.download }

theorem lookup_touch (m : StrMap) (key name : Bytes) : lookup (touch m key) name = lookup m name := by
  unfold lookup touch
  split
  · rfl
  · rename_i hnone
    by_cases hn : name = key
    · subst hn
      rw [Function.update_self, Option.not_isSome_iff_eq_none.mp hnone]
      rfl
    · rw [Function.update_of_ne hn]

theorem defaultHtmlTag_some (path : Bytes) (tag : Nat) : defaultHtmlTag path = some tag ↔
    path = bytes "/register.html" ∧ tag = 0 ∨ path = bytes "/login.html" ∧ tag = 1 := by
  have hne : bytes "/login.html" ≠ bytes "/register.html" := by decide
  unfold defaultHtmlTag
  split
  · rename_i hp
    subst hp
    simp [hne.symm, eq_comm]
  · split
    · rename_i hp
      subst hp
      simp [hne, eq_comm]
    · simp [*]

theorem parseFromUrlencoded_eq (rq : HttpRequest) :
    ∃ post, rq.parseFromUrlencoded = { rq with post := post } := by
  unfold parseFromUrlencoded
  split
  · exact ⟨rq.post, rfl⟩
  · exact ⟨_, rfl⟩

theorem parseDownload_eq (svc : Services) (rq : HttpRequest) :
    ∃ post, rq.parseDownload svc = { rq with post := post } := by
  unfold parseDownload
  split
  · exact ⟨rq.post, rfl⟩
  · dsimp only
    split <;> split
    · exact ⟨_, rfl⟩
    · exact ⟨_, rfl⟩
    · exact ⟨_, rfl⟩
    · exact ⟨rq.post, rfl⟩

theorem parsePost_other (svc : Services) {rq : HttpRequest}
    (h : ¬(contains rq.method (bytes "POST") = true ∧ lookup rq.header contentType = formType ∧
      (rq.path = bytes "/register.html" ∨ rq.path = bytes "/login.html"))) :
    (rq.parsePost svc).returnJs = rq.returnJs ∧ (rq.parsePost svc).isSuccessJs = rq.isSuccessJs ∧
      (rq.parsePost svc).isDownload = rq.isDownload := by
  unfold parsePost
  split
  · rename_i hmethod
    dsimp only
    split
    · rename_i htype
      rw [lookup_touch] at htype
      obtain ⟨post, hpost⟩ :=
        parseFromUrlencoded_eq { rq with header := touch rq.header contentType }
      rw [hpost]
      cases htag : defaultHtmlTag rq.path with
      | none => exact ⟨rfl, rfl, rfl⟩
      | some tag =>
        have hpath := (defaultHtmlTag_some _ _).mp htag
        exact absurd ⟨hmethod, htype, hpath.imp And.left And.left⟩ h
    · exact ⟨rfl, rfl, rfl⟩
  · exact ⟨rfl, rfl, rfl⟩

theorem parsePost_form (svc : Services) {rq : HttpRequest}
    (hmethod : contains rq.method (bytes "POST") = true)
    (htype : lookup rq.header contentType = formType)
    (hpath : rq.path = bytes "/register.html" ∨ rq.path = bytes "/login.html") :
    (rq.parsePost svc).returnJs = true ∧
      (rq.parsePost svc).isSuccessJs = userResult svc (rq.parsePost svc) ∧
      (rq.parsePost svc).isDownload = rq.isDownload := by
  obtain ⟨post, hpost⟩ := parseFromUrlencoded_eq { rq with header := touch rq.header contentType }
  have htype' : lookup (touch rq.header contentType) contentType =
      bytes "application/x-www-form-urlencoded" := by rw [lookup_touch, htype, formType]
  unfold parsePost
  simp only [hmethod, if_true, htype', hpost]
  rcases hpath with hpath | hpath
  · simp only [handleUserCommand, userResult, hpath]
    exact ⟨rfl, rfl, rfl⟩
  · simp only [handleUserCommand, userResult, hpath]
    exact ⟨rfl, rfl, rfl⟩

theorem parseBody_flags (svc : Services) (h : Bodyless rq) (hline : line ≠ []) :
    FlagsOk svc (rq.parseBody svc line) := by
  have hsame := (parseBody_keeps svc rq line).2
  have hct : lookup (rq.parseBody svc line).header contentType = lookup rq.header contentType := by
    rw [hsame.header, lookup_touch]
  have hform : IsForm (rq.parseBody svc line) ↔
      contains rq.method (bytes "POST") = true ∧ lookup rq.header contentType = formType ∧
        (rq.path = bytes "/register.html" ∨ rq.path = bytes "/login.html") := by
    constructor
    · rintro ⟨hmethod, htype, hpath, -⟩
      rw [hsame.method] at hmethod
      rw [hct] at htype
      rw [hsame.path] at hpath
      exact ⟨hmethod, htype, hpath⟩
    · rintro ⟨hmethod, htype, hpath⟩
      refine ⟨by rwa [hsame.method], by rwa [hct], by rwa [hsame.path], ?_⟩
      rwa [hsame.body]
  let rq₁ := { rq with body := line, header := touch rq.header contentType }
  have hct₁ : lookup rq₁.header contentType = lookup rq.header contentType := lookup_touch ..
  by_cases hf : contains rq.method (bytes "POST") = true ∧ lookup rq.header contentType = formType ∧
      (rq.path = bytes "/register.html" ∨ rq.path = bytes "/login.html")
  · obtain ⟨hmethod, htype, hpath⟩ := hf
    have hjson : ¬(contains rq.path (bytes "/download") = true ∧
        lookup rq₁.header contentType = bytes "application/json") := by
      rintro ⟨-, hjson⟩
      rw [hct₁, htype] at hjson
      exact absurd hjson (by decide)
    have hpost : rq.parseBody svc line = { rq₁.parsePost svc with state := .finish } :=
      congrArg (fun rq : HttpRequest => { rq with state := .finish }) (if_neg hjson)
    obtain ⟨hjs, hsuccess, hdownload⟩ :=
      parsePost_form svc (show contains rq₁.method _ = true from hmethod) (hct₁.trans htype) hpath
    refine ⟨iff_of_true (hpost ▸ hjs) (hform.mpr ⟨hmethod, htype, hpath⟩), ?_, ?_⟩
    · rw [hform, and_iff_right (show _ from ⟨hmethod, htype, hpath⟩), hpost]
      exact Bool.coe_iff_coe.mpr hsuccess
    · rw [hpost]
      exact hdownload.trans h.download
  · have hother : (rq.parseBody svc line).returnJs = rq.returnJs ∧
        (rq.parseBody svc line).isSuccessJs = rq.isSuccessJs ∧
        (rq.parseBody svc line).isDownload = rq.isDownload := by
      unfold parseBody
      dsimp only
      split
      · obtain ⟨post, hpost⟩ := parseDownload_eq svc rq₁
        rw [hpost]
        exact ⟨rfl, rfl, rfl⟩
      · exact parsePost_other svc (by rwa [hct₁])
    obtain ⟨hjs, hsuccess, hdownload⟩ := hother
    rw [← hform] at hf
    refine ⟨iff_of_false ?_ hf, iff_of_false ?_ fun hand => hf hand.1, hdownload.trans h.download⟩
    · rw [hjs, h.js]
      exact Bool.false_ne_true
    · rw [hsuccess, h.success]
      exact Bool.false_ne_true

theorem accept_bodyless (h : Bodyless rq) (hs : rq.state ≠ .body)
    (ha : rq.accept svc line n = some rq₁) : Bodyless rq₁ := by
  cases hstate : rq.state with
  | body => exact absurd hstate hs
  | requestLine =>
    simp only [accept, hstate, parseRequestLine] at ha
    split at ha
    · cases ha
      exact ⟨h.js, h.success, h.download, h.body⟩
    · cases ha
  | headers =>
    have hheader : Bodyless (rq.parseHeader line) := by
      unfold parseHeader
      split <;> exact ⟨h.js, h.success, h.download, h.body⟩
    simp only [accept, hstate, Option.some.injEq] at ha
    subst ha
    split
    · exact ⟨hheader.js, hheader.success, hheader.download, hheader.body⟩
    · exact hheader
  | finish =>
    simp only [accept, hstate, Option.some.injEq] at ha
    exact ha ▸ h
  | error =>
    simp only [accept, hstate, Option.some.injEq] at ha
    exact ha ▸ h

/-- At every turn the body has not been read, or the request is complete. -/
theorem HttpRequest.Visits.flags {b : BufferBlock} (h : Visits svc .init b rq b₁) :
    Bodyless rq ∨ rq.state = .finish ∧ FlagsOk svc rq := by
  induction h with
  | start => exact .inl ⟨rfl, rfl, rfl, rfl⟩
  | @turn rq₁ b₁ consumed line rq₂ _ hgo hread hn ha ih =>
    obtain ⟨-, hfinish⟩ := not_or.mp hgo
    rcases ih with hless | ⟨hstate, -⟩
    · by_cases hs : rq₁.state = .body
      · simp only [accept, hs, Option.some.injEq] at ha
        subst ha
        have hline : line ≠ [] := by
          rintro rfl
          rw [readInput, if_neg (not_not.mpr hs)] at hread
          obtain ⟨rest, -, hrest⟩ := bind_ok hread
          obtain ⟨hcount, rfl⟩ := Prod.mk.inj (Except.ok.inj hrest)
          rw [← hcount, List.length_nil, toInt_of_lt (by decide)] at hn
          exact hn rfl
        exact .inr ⟨(parseBody_keeps svc rq₁ line).1, parseBody_flags svc hless hline⟩
      · exact .inl (accept_bodyless hless hs ha)
    · exact absurd hstate hfinish

theorem parseLoop_visits {b : BufferBlock} (hv : Visits svc rq₀ b rq b₁)
    (h : parseLoop svc startPos fuel rq b₁ = .ok (rq', b', parsed)) :
    ∃ b₂, Visits svc rq₀ b rq' b₂ := by
  induction fuel generalizing rq b₁ with
  | zero => cases h
  | succ fuel ih =>
    unfold parseLoop at h
    split at h
    · cases h
      exact ⟨_, hv⟩
    · rename_i hgo
      obtain ⟨⟨consumed, line⟩, hread, h⟩ := bind_ok h
      dsimp only at h
      split at h
      · cases h
        exact ⟨_, hv⟩
      · rename_i hn
        cases ha : rq.accept svc line b₁.readableBytes with
        | none =>
          rw [ha] at h
          cases h
          exact ⟨_, hv⟩
        | some rq₁ =>
          rw [ha] at h
          exact ih (.turn hv hgo hread hn ha) h

theorem parse_flags {b : BufferBlock}
    (h : HttpRequest.init.parse svc b = .ok (rq', b', parsed)) : FlagsOk svc rq' := by
  have hvisit : ∃ b₁, Visits svc .init b rq' b₁ := by
    unfold parse at h
    split at h
    · cases h
      exact ⟨_, .start⟩
    · exact parseLoop_visits .start h
  obtain ⟨b₁, hvisit⟩ := hvisit
  rcases hvisit.flags with hless | ⟨-, hflags⟩
  · exact hless.flagsOk svc
  · exact hflags

theorem Receiver.receive_flags {r : Receiver} (h : r.receive d = .ok (r', parsed)) :
    FlagsOk d.services r'.request := by
  obtain ⟨b, -, h⟩ := bind_ok h
  obtain ⟨⟨rq', b', parsed'⟩, hparse, h⟩ := bind_ok h
  cases h
  exact parse_flags hparse

-- ---------------------------------------------------------------------------
-- onmessage
-- ---------------------------------------------------------------------------

namespace Connection

theorem initResponse_flags (rq : HttpRequest) (r : HttpResponse) :
    (initResponse rq r).1.isKeepAlive = rq.returnJs ∧ (initResponse rq r).1.isJs = rq.isSuccessJs ∧
      (initResponse rq r).1.isJsSuccess = rq.isDownload ∧
      (initResponse rq r).1.isDownload = rq.isKeepAlive := by
  unfold initResponse
  split <;> exact ⟨rfl, rfl, rfl, rfl⟩

theorem initResponse_mmFile (rq : HttpRequest) (r : HttpResponse) :
    (initResponse rq r).1.mmFile = none := by
  unfold initResponse
  split <;> rfl

theorem append_step {s : Sending} (h : s.InOrder) (text : Bytes) :
    ∃ s', s.step (.append text) = .ok s' ∧ s'.InOrder ∧ s'.appended = s.appended ++ text := by
  obtain ⟨out, hout, -, -⟩ := BufferBlock.append_ok h.buffer text
  have hs : s.step (.append text) =
      .ok { s with outputBuffer := out, appended := s.appended ++ text } := by
    simp only [Sending.step, Sending.apply, hout, bind, Except.bind, pure, Except.pure]
  exact ⟨_, hs, Sending.step_preserves _ (.append text) _ h trivial hs, rfl⟩

theorem appendAll_ok {s : Sending} (h : s.InOrder) (texts : List Bytes) :
    ∃ s', appendAll s texts = .ok s' ∧ s'.InOrder ∧ s'.appended = s.appended ++ texts.flatten := by
  induction texts generalizing s with
  | nil => exact ⟨s, rfl, h, (List.append_nil _).symm⟩
  | cons text texts ih =>
    obtain ⟨s₁, hs₁, h₁, happ₁⟩ := append_step h text
    obtain ⟨s', hs', h', happ'⟩ := ih h₁
    refine ⟨s', ?_, h', ?_⟩
    · rw [appendAll, hs₁]
      exact hs'
    · rw [happ', happ₁, List.flatten_cons, List.append_assoc]

theorem fileTexts_ok {r : HttpResponse} (h : r.FileFits) : ∃ file, fileTexts r = .ok file := by
  unfold fileTexts
  cases hm : r.mmFile with
  | none => exact ⟨[], rfl⟩
  | some mapping => exact ⟨_, if_pos (Nat.le_of_eq (h mapping hm).symm)⟩

theorem respond_ok {c : Connection} (h : c.sending.InOrder) (fs : FileSystem) :
    ∃ c' file, c.respond fs = .ok (c', (initResponse c.request c.response).2 ++
        ((initResponse c.request c.response).1.makeResponse fs).2.2) ∧
      c'.toReceiver = c.toReceiver ∧ c'.sending.InOrder ∧
      c'.response = ((initResponse c.request c.response).1.makeResponse fs).1 ∧
      c'.sending.appended = c.sending.appended ++
        (((initResponse c.request c.response).1.makeResponse fs).2.1.flatten ++ file) := by
  obtain ⟨file, hfile⟩ := fileTexts_ok
    (HttpResponse.makeResponse_file fs (initResponse_mmFile c.request c.response))
  obtain ⟨s, hs, hin, happ⟩ := appendAll_ok h
    (((initResponse c.request c.response).1.makeResponse fs).2.1 ++ file)
  have hsend : s.step .sendinloop = .ok { s with writing := true } := rfl
  have hrespond : c.respond fs = .ok ({ c with
      response := ((initResponse c.request c.response).1.makeResponse fs).1
      sending := { s with writing := true } },
      (initResponse c.request c.response).2 ++
        ((initResponse c.request c.response).1.makeResponse fs).2.2) := by
    simp only [respond, hfile, hs, hsend, bind, Except.bind, pure, Except.pure]
  refine ⟨_, file.flatten, hrespond, rfl,
    Sending.step_preserves _ .sendinloop _ hin trivial hsend, rfl, ?_⟩
  rw [← List.flatten_append]
  exact happ

/-- The kernel takes between one byte and all that is offered, or none for
now. -/
def Admits (c : Connection) : ConnectionEvent → Prop
  | .onmessage _ _ => True
  | .writecallback result => c.sending.Admits (.writecallback c.request.isKeepAlive result)

theorem step_inOrder : Lib.Preserves step Admits fun c => c.sending.InOrder := by
  intro c e c' h ha hs
  cases e with
  | onmessage d fs =>
    obtain ⟨⟨c₁, calls⟩, hmessage, hc⟩ := bind_ok hs
    cases hc
    obtain ⟨⟨r, parsed⟩, -, hrespond⟩ := bind_ok hmessage
    cases parsed with
    | false =>
      cases hrespond
      exact h
    | true =>
      obtain ⟨c₂, file, hrespond₂, -, hin, -⟩ :=
        respond_ok (c := { c with toReceiver := r }) h fs
      cases hrespond.symm.trans hrespond₂
      exact hin
  | writecallback result =>
    obtain ⟨⟨c₁, effects⟩, hwrite, hc⟩ := bind_ok hs
    cases hc
    obtain ⟨⟨s, effects'⟩, hsend, hc⟩ := bind_ok hwrite
    cases hc
    obtain ⟨s₂, effects₂, hsend₂, hin, -⟩ := Sending.writecallback_ok h ha
    cases hsend.symm.trans hsend₂
    exact hin

def KeepsOpen (c : Connection) : Prop :=
  ∀ offered n, .closecallback ∉ (c.sending.written c.request.isKeepAlive offered n).2

theorem keepsOpen_iff {c : Connection} (h : c.sending.InOrder) :
    c.KeepsOpen ↔ c.request.isKeepAlive = true := by
  constructor
  · intro hopen
    cases hk : c.request.isKeepAlive with
    | true => rfl
    | false =>
      have hempty : (c.sending.outputBuffer.consumeBytes
          c.sending.outputBuffer.content.length).readableBytes = 0 := by
        rw [BufferBlock.readableBytes, (BufferBlock.consumeBytes_repr h.buffer.toRepr _).total,
          BufferBlock.consumeBytes_content h.buffer.toRepr, List.drop_length]
        rfl
      have hclosed := hopen [] c.sending.outputBuffer.content.length
      simp only [Sending.written, hempty, hk, if_true] at hclosed
      exact absurd (by decide) hclosed
  · intro hk offered n
    rw [hk]
    unfold Sending.written
    dsimp only
    split
    · simp
    · exact List.not_mem_nil

/-- The response appended as `wire` says of the request what is so. -/
structure Answers (svc : Services) (c : Connection) (wire : Bytes) : Prop where
  keepAlive : c.response.isKeepAlive = c.request.isKeepAlive
  js : c.response.isJs = c.request.returnJs
  success : c.response.isJsSuccess = c.request.isSuccessJs
  download : c.response.isDownload = c.request.isDownload
  saysKeepAlive : SaysKeepAlive wire ↔ c.KeepsOpen
  sendsJson : SendsJson wire ↔ IsForm c.request
  saysSuccess : SaysSuccess wire ↔ IsForm c.request ∧ userResult svc c.request = true

/-- With the flags as they are passed, the response answers the request exactly
if none of them is set. -/
theorem respond_answers {c c' : Connection} {svc : Services}
    (hflags : FlagsOk svc c.request) {fs : FileSystem} {file : Bytes}
    (hsame : c'.toReceiver = c.toReceiver) (hin : c'.sending.InOrder)
    (hresponse : c'.response = ((initResponse c.request c.response).1.makeResponse fs).1) :
    c'.Answers svc (((initResponse c.request c.response).1.makeResponse fs).2.1.flatten ++ file) ↔
      c.request.isKeepAlive = false ∧ ¬IsForm c.request := by
  obtain ⟨hkeep, hjs, hsuccess, hdownload⟩ := initResponse_flags c.request c.response
  have hmake := HttpResponse.makeResponse_flags fs (initResponse c.request c.response).1
  rw [← hresponse] at hmake
  have hrq : c'.request = c.request := congrArg Receiver.request hsame
  constructor
  · intro ha
    have hsuccess' : c.request.isSuccessJs = false := by
      rw [← hrq, ← ha.success, hmake.success, hsuccess, hflags.download]
    have hjs' : c.request.returnJs = false := by
      rw [← hrq, ← ha.js, hmake.js, hjs, hsuccess']
    refine ⟨?_, fun hform => ?_⟩
    · rw [← hrq, ← ha.keepAlive, hmake.keepAlive, hkeep, hjs']
    · rw [hflags.js.mpr hform] at hjs'
      cases hjs'
  · rintro ⟨hclose, hform⟩
    have hjs' : c.request.returnJs = false := Bool.eq_false_iff.mpr (mt hflags.js.mp hform)
    have hsuccess' : c.request.isSuccessJs = false :=
      Bool.eq_false_iff.mpr fun hs => hform (hflags.success.mp hs).1
    have hnojson : ¬SendsJson
        (((initResponse c.request c.response).1.makeResponse fs).2.1.flatten ++ file) := by
      rw [HttpResponse.sendsJson_iff, hjs, hsuccess']
      exact Bool.false_ne_true
    exact
      { keepAlive := by rw [hmake.keepAlive, hkeep, hjs', hrq, hclose]
        js := by rw [hmake.js, hjs, hsuccess', hrq, hjs']
        success := by rw [hmake.success, hsuccess, hflags.download, hrq, hsuccess']
        download := by rw [hmake.download, hdownload, hclose, hrq, hflags.download]
        saysKeepAlive := by
          rw [HttpResponse.saysKeepAlive_iff, keepsOpen_iff hin, hkeep, hrq, hjs', hclose]
        sendsJson := iff_of_false hnojson (by rwa [hrq])
        saysSuccess := iff_of_false (fun hs => hnojson hs.1) fun hs => hform (hrq ▸ hs.1) }

theorem onmessage_parsed {c : Connection} (hparse : c.toReceiver.receive d = .ok (r, true))
    (hrespond : respond { c with toReceiver := r } fs = .ok (c', calls)) :
    c.onmessage d fs = .ok (c', calls) := by
  simp only [onmessage, hparse, bind, Except.bind, if_true, hrespond]

theorem onmessage_answers {c : Connection} (h : c.sending.InOrder)
    (hparse : c.toReceiver.receive d = .ok (r, true)) (fs : FileSystem) :
    ∃ c' calls wire, c.onmessage d fs = .ok (c', calls) ∧ c'.request = r.request ∧
      c'.sending.InOrder ∧ c'.sending.appended = c.sending.appended ++ wire ∧
      (c'.Answers d.services wire ↔ r.request.isKeepAlive = false ∧ ¬IsForm r.request) ∧
      (SaysKeepAlive wire ↔ r.request.returnJs = true) := by
  obtain ⟨c', file, hrespond, hsame, hin, hresponse, happ⟩ :=
    respond_ok (c := { c with toReceiver := r }) h fs
  have hmessage := onmessage_parsed hparse hrespond
  refine ⟨c', _, _, hmessage, congrArg Receiver.request hsame, hin, happ,
    respond_answers (c := { c with toReceiver := r }) (Receiver.receive_flags hparse) hsame hin
      hresponse, ?_⟩
  rw [HttpResponse.saysKeepAlive_iff, (initResponse_flags _ _).1]

/-- For every request that completes on a connection, in any state it can
reach, and every outcome of the file system's calls: the response is appended
without a fault, and it answers the request exactly if the request is not
kept alive and is no login or register form. -/
theorem answers_iff {c : Connection} (h : Lib.Reach step Admits start c)
    (hparse : c.toReceiver.receive d = .ok (r, true)) (fs : FileSystem) :
    ∃ c' calls wire, c.onmessage d fs = .ok (c', calls) ∧ c'.request = r.request ∧
      c'.sending.appended = c.sending.appended ++ wire ∧
      (c'.Answers d.services wire ↔ r.request.isKeepAlive = false ∧ ¬IsForm r.request) := by
  have hin : c.sending.InOrder := h.invariant step_inOrder Sending.start_inOrder
  obtain ⟨c', calls, wire, hmessage, hrq, -, happ, hiff, -⟩ := onmessage_answers hin hparse fs
  exact ⟨c', calls, wire, hmessage, hrq, happ, hiff⟩

def noFiles : FileSystem :=
  { stat := fun _ => none, statError := fun _ => none, openFile := fun _ => none
    mmap := fun _ => none }

def everyFile : FileSystem :=
  { stat := fun _ => some { isDir := false, othersRead := true, size := 2 }
    statError := fun _ => none
    openFile := fun _ => some 3
    mmap := fun _ => some (4096, fun _ => chr 'A') }

theorem receive_view {result : Except Fault (Receiver × Bool)} (view : HttpRequest → β)
    (h : result.toOption.map (fun r => (r.2, view r.1.request)) = some (true, v)) :
    ∃ r, result = .ok (r, true) ∧ view r.request = v := by
  obtain ⟨⟨r, parsed⟩, hresult, hview⟩ := view_ok _ h
  obtain ⟨rfl, hview⟩ := Prod.mk.inj hview
  exact ⟨r, hresult, hview⟩

theorem answers_iff_example : ∃ c' calls wire,
    start.onmessage ⟨bytes "GET / HTTP/1.0\r\n\r\n", .none⟩ noFiles = .ok (c', calls) ∧
      c'.sending.appended = wire ∧ c'.Answers .none wire := by
  have hrun : (start.toReceiver.receive ⟨bytes "GET / HTTP/1.0\r\n\r\n", .none⟩).toOption.map
      (fun r => (r.2, r.1.request.isKeepAlive, r.1.request.body)) = some (true, false, []) := by
    decide +kernel
  obtain ⟨r, hparse, hview⟩ := receive_view (fun rq => (rq.isKeepAlive, rq.body)) hrun
  obtain ⟨hclose, hbody⟩ := Prod.mk.inj hview
  obtain ⟨c', calls, wire, hmessage, -, happ, hiff⟩ := answers_iff .start hparse noFiles
  exact ⟨c', calls, wire, hmessage, happ, hiff.mpr ⟨hclose, fun hform => hform.body hbody⟩⟩

/-- A request that is kept alive is answered with `Connection: close`, and the
connection kept open. -/
theorem keepAlive_answered_close : ∃ c' calls wire,
    start.onmessage ⟨bytes "GET / HTTP/1.1\r\n\r\n", .none⟩ noFiles = .ok (c', calls) ∧
      c'.sending.appended = wire ∧ c'.request.isKeepAlive = true ∧ ¬SaysKeepAlive wire ∧
      c'.KeepsOpen ∧ ¬c'.Answers .none wire := by
  have hrun : (start.toReceiver.receive ⟨bytes "GET / HTTP/1.1\r\n\r\n", .none⟩).toOption.map
      (fun r => (r.2, r.1.request.isKeepAlive, r.1.request.body)) = some (true, true, []) := by
    decide +kernel
  obtain ⟨r, hparse, hview⟩ := receive_view (fun rq => (rq.isKeepAlive, rq.body)) hrun
  obtain ⟨hkeep, hbody⟩ := Prod.mk.inj hview
  obtain ⟨c', calls, wire, hmessage, hrq, hin, happ, hiff, hwire⟩ :=
    onmessage_answers (c := start) Sending.start_inOrder hparse noFiles
  have hflags := Receiver.receive_flags hparse
  refine ⟨c', calls, wire, hmessage, happ, hrq ▸ hkeep, ?_, ?_, ?_⟩
  · rw [hwire, hflags.js]
    exact fun hform => hform.body hbody
  · exact (keepsOpen_iff hin).mpr (hrq ▸ hkeep)
  · rw [hiff, hkeep]
    exact fun ha => Bool.false_ne_true ha.1.symm

end Connection

end MudouHttp
