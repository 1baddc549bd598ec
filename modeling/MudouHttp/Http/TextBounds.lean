import MudouHttp.Http.Answers
import MudouHttp.Http.Mappings
import MudouHttp.Http.RequestParts

/-!
# Requests that fit the local arrays

The lengths of the parts of a request decide whether the texts formatted on the
way to its answer fit their arrays (`texts_fit_iff`); nothing before bounds
these lengths.
-/

namespace MudouHttp

open BufferBlock (Valid)
open HttpRequest

-- ---------------------------------------------------------------------------
-- How long the parts may be
-- ---------------------------------------------------------------------------

namespace Parts

def path (p : Parts) : Bytes := parsedPath p.target

def IsJson (p : Parts) : Prop :=
  p.body ≠ [] ∧ contains p.path (bytes "/download") = true ∧
    lookup p.header contentType = bytes "application/json"

def IsForm (p : Parts) : Prop :=
  p.body ≠ [] ∧ contains p.method (bytes "POST") = true ∧ lookup p.header contentType = formType

instance (p : Parts) : Decidable p.IsJson := inferInstanceAs (Decidable (_ ∧ _ ∧ _))

instance (p : Parts) : Decidable p.IsForm := inferInstanceAs (Decidable (_ ∧ _ ∧ _))

def form (p : Parts) : StrMap := parseFromUrlencodedLoop p.body p.body.length 0 fun _ => none

def username (p : Parts) : Bytes := lookup p.form (bytes "username")

def password (p : Parts) : Bytes := lookup p.form (bytes "password")

def members (doc : Bytes → Option Bytes) : StrMap := fun key =>
  if key = bytes "fileName" ∨ key = bytes "folder" then (doc key).map cstr else none

def fields (p : Parts) (json : Bytes → Option (Bytes → Option Bytes)) : StrMap :=
  if p.IsJson then ((json (cstr p.body)).map members).getD fun _ => none
  else if p.IsForm then p.form
  else fun _ => none

def asked (p : Parts) (json : Bytes → Option (Bytes → Option Bytes)) : Bytes :=
  if contains p.path (bytes "/download") = true ∧ p.method = bytes "POST" then
    bytes "/" ++ lookup (p.fields json) (bytes "folder") ++ bytes "/" ++
      lookup (p.fields json) (bytes "fileName")
  else p.path

/-- The file opened for the answer. The flags do not matter here. -/
def file (p : Parts) (json : Bytes → Option (Bytes → Option Bytes)) (fs : FileSystem) : Bytes :=
  (Exchange.file
    { srcDir := bytes "./html", path := p.asked json, isKeepAlive := false, isJs := false
      isJsSuccess := false, isDownload := false, code := -1, fs := fs }).1

def Succeeds (p : Parts) (svc : Services) : Prop :=
  p.IsForm ∧ (p.path = bytes "/register.html" ∨ p.path = bytes "/login.html") ∧
    (if p.path = bytes "/login.html" then svc.login else svc.register) p.username p.password = true

variable [MySql]

structure UserShort (p : Parts) (db : Database) : Prop where
  login : p.IsForm → p.path = bytes "/login.html" → p.username ≠ [] → p.password ≠ [] →
    db.connected = true → UserDao.LoginShort db p.username p.password
  register : p.IsForm → p.path = bytes "/register.html" → p.username ≠ [] → p.password ≠ [] →
    db.connected = true → UserDao.RegisterShort db p.username p.password

structure Short (p : Parts) (db : Database) (json : Bytes → Option (Bytes → Option Bytes))
    (fs : FileSystem) : Prop where
  request : (cstr p.method).length + (cstr p.path).length + (cstr p.version).length ≤ 245
  body : p.body ≠ [] →
    (cstr p.body).length + (bytes (toString (toInt p.body.length))).length ≤ 244
  user : p.UserShort db
  file : ¬p.Succeeds (db.services json) → fs.openFile (p.file json fs) ≠ none →
    (p.file json fs).length ≤ 245

end Parts

theorem requestText_fits (rq : HttpRequest) : rq.requestText.Fits ↔
    (cstr rq.method).length + (cstr rq.path).length + (cstr rq.version).length ≤ 245 := by
  have h1 : (bytes "[").length = 1 := by decide
  have h2 : (bytes "], [").length = 4 := by decide
  have h3 : (bytes "]").length = 1 := by decide
  simp only [ArrayText.Fits, requestText, List.length_append, h1, h2, h3]
  omega

theorem bodyText_fits (line : Bytes) : (bodyText line).Fits ↔
    (cstr line).length + (bytes (toString (toInt line.length))).length ≤ 244 := by
  have h1 : (bytes "Body:").length = 5 := by decide
  have h2 : (bytes ", len:").length = 6 := by decide
  simp only [ArrayText.Fits, bodyText, List.length_append, h1, h2]
  omega

theorem tagText_fits (h : defaultHtmlTag page = some tag) :
    (ArrayText.mk 128 (bytes "Tag:" ++ bytes (toString tag))).Fits := by
  rcases (defaultHtmlTag_some _ _).mp h with ⟨-, rfl⟩ | ⟨-, rfl⟩
  · show _ ≤ 128
    decide
  · show _ ≤ 128
    decide

namespace Parts

def read (p : Parts) : HttpRequest :=
  { p.head with body := p.body, header := touch p.head.header contentType }

theorem read_type (p : Parts) : lookup p.read.header contentType = lookup p.header contentType :=
  lookup_touch ..

theorem type_iff (p : Parts) : lookup (touch p.read.header contentType) contentType =
    bytes "application/x-www-form-urlencoded" ↔ lookup p.header contentType = formType := by
  rw [lookup_touch, read_type, formType]

variable {p : Parts}

theorem not_isJson (h : p.IsForm) : ¬p.IsJson := by
  rintro ⟨-, -, hjson⟩
  rw [h.2.2] at hjson
  exact absurd hjson (by decide)

theorem read_form (hbody : p.body ≠ []) (header : StrMap) :
    { p.read with header := header }.parseFromUrlencoded =
      { p.read with header := header, post := p.form } := by
  have hne : p.body.isEmpty = false := by simp [hbody]
  rw [parseFromUrlencoded, if_neg (by simp [read, hne])]
  rfl

theorem read_isJson (hbody : p.body ≠ []) :
    contains p.read.path (bytes "/download") = true ∧
      lookup p.read.header contentType = bytes "application/json" ↔ p.IsJson := by
  rw [read_type]
  exact (and_iff_right hbody).symm

section Texts

variable [MySql]

theorem postTexts_form (db : Database) (h : p.IsForm) (htag : defaultHtmlTag p.path = some tag) :
    (∀ t ∈ p.read.postTexts db, t.Fits) ↔
      ∀ t ∈ userTexts db tag p.username p.password, t.Fits := by
  have hmethod : contains p.read.method (bytes "POST") = true := h.2.1
  have htag' : defaultHtmlTag p.read.path = some tag := htag
  unfold postTexts
  dsimp only
  rw [if_pos hmethod, if_pos ((type_iff p).mpr h.2.2), read_form h.1]
  simp only [htag', List.forall_mem_cons, lookup_touch]
  exact and_iff_right (tagText_fits htag)

theorem postTexts_other (db : Database) (hbody : p.body ≠ [])
    (h : ¬(p.IsForm ∧ ∃ tag, defaultHtmlTag p.path = some tag)) : p.read.postTexts db = [] := by
  unfold postTexts
  split
  · rename_i hmethod
    dsimp only
    split
    · rename_i htype
      have hform : p.IsForm := ⟨hbody, hmethod, (type_iff p).mp htype⟩
      rw [read_form hbody]
      cases htag : defaultHtmlTag p.path with
      | none =>
        have htag' : defaultHtmlTag p.read.path = none := htag
        simp only [htag']
      | some tag => exact absurd ⟨hform, tag, htag⟩ h
    · rfl
  · rfl

theorem postTexts_fit (db : Database) (hbody : p.body ≠ []) :
    (∀ t ∈ p.read.postTexts db, t.Fits) ↔ p.UserShort db := by
  have hne : bytes "/login.html" ≠ bytes "/register.html" := by decide
  by_cases h : p.IsForm ∧ ∃ tag, defaultHtmlTag p.path = some tag
  · obtain ⟨hform, tag, htag⟩ := h
    rw [postTexts_form db hform htag]
    rcases (defaultHtmlTag_some _ _).mp htag with ⟨hpath, rfl⟩ | ⟨hpath, rfl⟩
    · refine (UserDao.registerTexts_fit db p.username p.password).trans ?_
      constructor
      · exact fun h => ⟨fun _ hlogin => absurd (hlogin.symm.trans hpath) hne, fun _ _ => h⟩
      · exact fun h => h.register hform hpath
    · refine (UserDao.loginTexts_fit db p.username p.password).trans ?_
      constructor
      · exact fun h => ⟨fun _ _ => h, fun _ hreg => absurd (hpath.symm.trans hreg) hne⟩
      · exact fun h => h.login hform hpath
  · rw [postTexts_other db hbody h]
    refine iff_of_true nofun ⟨fun hform hpath => ?_, fun hform hpath => ?_⟩
    · exact absurd ⟨hform, 1, (defaultHtmlTag_some _ _).mpr (.inr ⟨hpath, rfl⟩)⟩ h
    · exact absurd ⟨hform, 0, (defaultHtmlTag_some _ _).mpr (.inl ⟨hpath, rfl⟩)⟩ h

theorem restTexts_fit (p : Parts) (db : Database) :
    (∀ t ∈ p.head.restTexts db p.body, t.Fits) ↔
      (p.body ≠ [] → (cstr p.body).length + (bytes (toString (toInt p.body.length))).length ≤ 244) ∧
      p.UserShort db ∧
      (cstr p.method).length + (cstr p.path).length + (cstr p.version).length ≤ 245 := by
  have hrequest : p.head.requestText.Fits ↔
      (cstr p.method).length + (cstr p.path).length + (cstr p.version).length ≤ 245 :=
    requestText_fits _
  rw [restTexts, List.forall_mem_append, List.forall_mem_singleton, hrequest, ← and_assoc]
  refine and_congr_left' ?_
  by_cases hbody : p.body = []
  · rw [if_pos hbody]
    have hnone : ¬p.IsForm := fun hform => hform.1 hbody
    exact iff_of_true (List.forall_mem_nil _) ⟨fun hne => absurd hbody hne,
      fun hform => absurd hform hnone, fun hform => absurd hform hnone⟩
  · have htexts : p.head.bodyTexts db p.body =
        (if p.IsJson then [] else p.read.postTexts db) ++ [bodyText p.body] :=
      congrArg (· ++ [bodyText p.body]) (if_congr (read_isJson hbody) rfl rfl)
    rw [if_neg hbody, htexts, List.forall_mem_append, List.forall_mem_singleton, bodyText_fits,
      and_comm]
    refine and_congr ⟨fun h _ => h, fun h => h hbody⟩ ?_
    split
    · rename_i hj
      have hnone : ¬p.IsForm := fun hform => not_isJson hform hj
      exact iff_of_true (List.forall_mem_nil _)
        ⟨fun hform => absurd hform hnone, fun hform => absurd hform hnone⟩
    · exact postTexts_fit db hbody

end Texts

-- ---------------------------------------------------------------------------
-- The request at the end of parse
-- ---------------------------------------------------------------------------

theorem handleUserCommand_post (svc : Services) (rq : HttpRequest) (cmd user word : Bytes) :
    (rq.handleUserCommand svc cmd user word).post = rq.post := by
  unfold handleUserCommand
  split
  · rfl
  · split <;> rfl

def posted (p : Parts) (json : Bytes → Option (Bytes → Option Bytes)) : StrMap :=
  if p.IsJson then ((json (cstr p.body)).map members).getD fun _ => none
  else if p.IsForm then
    match defaultHtmlTag p.path with
    | none => p.form
    | some _ => touch (touch p.form (bytes "username")) (bytes "password")
  else fun _ => none

theorem parsePost_form_post (svc : Services) (h : p.IsForm) : (p.read.parsePost svc).post =
    match defaultHtmlTag p.path with
    | none => p.form
    | some _ => touch (touch p.form (bytes "username")) (bytes "password") := by
  have hmethod : contains p.read.method (bytes "POST") = true := h.2.1
  unfold parsePost
  dsimp only
  rw [if_pos hmethod, if_pos ((type_iff p).mpr h.2.2), read_form h.1]
  cases htag : defaultHtmlTag p.path with
  | none =>
    have htag' : defaultHtmlTag p.read.path = none := htag
    simp only [htag']
  | some tag =>
    have htag' : defaultHtmlTag p.read.path = some tag := htag
    simp only [htag', handleUserCommand_post]

theorem parsePost_other_post (svc : Services) (hbody : p.body ≠ []) (h : ¬p.IsForm) :
    (p.read.parsePost svc).post = fun _ => none := by
  unfold parsePost
  split
  · rename_i hmethod
    dsimp only
    rw [if_neg fun htype => h ⟨hbody, hmethod, (type_iff p).mp htype⟩]
    rfl
  · rfl

theorem parseDownload_post (svc : Services) (p : Parts) : (p.read.parseDownload svc).post =
    ((svc.json (cstr p.body)).map members).getD fun _ => none := by
  have hne : bytes "folder" ≠ bytes "fileName" := by decide
  have hbody : p.read.body = p.body := rfl
  unfold parseDownload
  rw [hbody]
  cases svc.json (cstr p.body) with
  | none => rfl
  | some doc =>
    have hempty : p.read.post = fun _ => none := rfl
    funext key
    simp only [Option.map_some, Option.getD_some, members]
    by_cases hf : key = bytes "folder"
    · subst hf
      cases hname : doc (bytes "fileName") <;> cases hfolder : doc (bytes "folder") <;>
        simp [hempty, hne]
    · by_cases hn : key = bytes "fileName"
      · subst hn
        cases hname : doc (bytes "fileName") <;> cases hfolder : doc (bytes "folder") <;>
          simp [hempty, hne.symm]
      · cases hname : doc (bytes "fileName") <;> cases hfolder : doc (bytes "folder") <;>
          simp [hempty, hf, hn]

def whole (p : Parts) (svc : Services) : HttpRequest := p.head.withBody svc p.body

theorem whole_keeps (svc : Services) (p : Parts) : (p.whole svc).method = p.method ∧
    (p.whole svc).path = p.path := by
  unfold whole withBody
  split
  · exact ⟨rfl, rfl⟩
  · have hkeeps := (RequestText.parseBody_keeps svc p.head p.body).2
    exact ⟨hkeeps.method, hkeeps.path⟩

theorem whole_body (svc : Services) (p : Parts) : (p.whole svc).body = p.body := by
  unfold whole withBody
  split
  · rename_i hbody
    exact hbody.symm
  · exact (RequestText.parseBody_keeps svc p.head p.body).2.body

/-- Reading the body looks the content type up. -/
theorem whole_type (svc : Services) (p : Parts) :
    lookup (p.whole svc).header contentType = lookup p.header contentType := by
  unfold whole withBody
  split
  · rfl
  · rw [(RequestText.parseBody_keeps svc p.head p.body).2.header]
    exact lookup_touch ..

theorem whole_post (svc : Services) (p : Parts) : (p.whole svc).post = p.posted svc.json := by
  unfold whole withBody posted
  split
  · rename_i hbody
    rw [if_neg fun hj : p.IsJson => hj.1 hbody, if_neg fun hf : p.IsForm => hf.1 hbody]
    rfl
  · rename_i hbody
    have hpost : (p.head.parseBody svc p.body).post =
        (if contains p.read.path (bytes "/download") = true ∧
          lookup p.read.header contentType = bytes "application/json" then
            p.read.parseDownload svc else p.read.parsePost svc).post := rfl
    rw [hpost, if_congr (read_isJson hbody) rfl rfl]
    split
    · exact parseDownload_post svc p
    · split
      · rename_i hform
        exact parsePost_form_post svc hform
      · rename_i hform
        exact parsePost_other_post svc hbody hform

theorem posted_fields (p : Parts) (json : Bytes → Option (Bytes → Option Bytes)) (key : Bytes) :
    lookup (p.posted json) key = lookup (p.fields json) key := by
  unfold posted fields
  split
  · rfl
  · split
    · split
      · rfl
      · exact (lookup_touch ..).trans (lookup_touch ..)
    · rfl

theorem whole_fields (svc : Services) (p : Parts) (key : Bytes) :
    lookup (p.whole svc).post key = lookup (p.fields svc.json) key := by
  rw [whole_post, posted_fields]

theorem whole_isForm (svc : Services) (p : Parts) : MudouHttp.IsForm (p.whole svc) ↔
    p.IsForm ∧ (p.path = bytes "/register.html" ∨ p.path = bytes "/login.html") := by
  obtain ⟨hmethod, hpath⟩ := whole_keeps svc p
  have htype := whole_type svc p
  have hbody := whole_body svc p
  constructor
  · rintro ⟨hm, ht, hp, hb⟩
    rw [hmethod] at hm
    rw [htype] at ht
    rw [hpath] at hp
    rw [hbody] at hb
    exact ⟨⟨hb, hm, ht⟩, hp⟩
  · rintro ⟨⟨hb, hm, ht⟩, hp⟩
    exact ⟨by rwa [hmethod], by rwa [htype], by rwa [hpath], by rwa [hbody]⟩

theorem flagsOk_state {st : ParseState} (h : FlagsOk svc { rq with state := st }) : FlagsOk svc rq := by
  have hform : MudouHttp.IsForm { rq with state := st } ↔ MudouHttp.IsForm rq :=
    ⟨fun f => ⟨f.method, f.type, f.path, f.body⟩, fun f => ⟨f.method, f.type, f.path, f.body⟩⟩
  exact ⟨h.js.trans hform, h.success.trans (and_congr_left' hform), h.download⟩

theorem whole_succeeds (svc : Services) (h : FlagsOk svc (p.whole svc)) :
    (p.whole svc).isSuccessJs = true ↔ p.Succeeds svc := by
  obtain ⟨-, hpath⟩ := whole_keeps svc p
  rw [h.success, whole_isForm, and_assoc]
  refine and_congr_right fun hform => and_congr_right fun _ => ?_
  have hfield : ∀ key, (p.whole svc).getPost key = lookup p.form key := by
    intro key
    rw [getPost, whole_fields, fields, if_neg (not_isJson hform), if_pos hform]
  rw [userResult, hfield, hfield, hpath]
  rfl

end Parts

-- ---------------------------------------------------------------------------
-- The answer
-- ---------------------------------------------------------------------------

def Connection.exchange (rq : HttpRequest) (fs : FileSystem) : Exchange :=
  { srcDir := bytes "./html"
    path := if contains rq.path (bytes "/download") = true ∧ rq.method = bytes "POST" then
        bytes "/" ++ rq.getPost (bytes "folder") ++ bytes "/" ++ rq.getPost (bytes "fileName")
      else rq.path
    isKeepAlive := rq.returnJs
    isJs := rq.isSuccessJs
    isJsSuccess := rq.isDownload
    isDownload := rq.isKeepAlive
    code := -1
    fs := fs }

theorem initResponse_ready (rq : HttpRequest) (r : HttpResponse) (fs : FileSystem) :
    Connection.initResponse rq r = r.ready (Connection.exchange rq fs) := by
  unfold Connection.initResponse HttpResponse.ready Connection.exchange
  split <;> rfl

theorem responseTexts_fit (rq : HttpRequest) (r : HttpResponse) (fs : FileSystem) :
    (∀ t ∈ (Connection.initResponse rq r).1.responseTexts fs, t.Fits) ↔
      (rq.isSuccessJs = false → fs.openFile (Connection.exchange rq fs).file.1 ≠ none →
        (Connection.exchange rq fs).file.1.length ≤ 245) := by
  have hprefix : (bytes "file path ").length = 10 := by decide
  have hjs := HttpResponse.headed_isJs r (Connection.exchange rq fs)
  obtain ⟨hpath, -⟩ := HttpResponse.headed_file r (Connection.exchange rq fs)
  have htexts : (Connection.initResponse rq r).1.responseTexts fs =
      (r.headed (Connection.exchange rq fs)).contentTexts fs := by
    rw [initResponse_ready rq r fs]
    rfl
  rw [htexts, HttpResponse.contentTexts, hjs, hpath]
  generalize (Connection.exchange rq fs).file.1 = path
  have hkind : (Connection.exchange rq fs).isJs = rq.isSuccessJs := rfl
  rw [hkind]
  cases rq.isSuccessJs with
  | true => exact iff_of_true (List.forall_mem_nil _) (by simp)
  | false =>
    cases fs.openFile path with
    | none => exact iff_of_true (List.forall_mem_nil _) fun _ hne => absurd rfl hne
    | some fd =>
      simp only [Bool.false_eq_true, if_false, List.forall_mem_singleton, ArrayText.Fits,
        List.length_append, hprefix]
      constructor
      · intro h _ _
        omega
      · intro h
        have hshort := h trivial (Option.some_ne_none fd)
        omega

theorem file_whole (svc : Services) (p : Parts) (fs : FileSystem) :
    (Connection.exchange (p.whole svc) fs).file.1 = p.file svc.json fs := by
  obtain ⟨hmethod, hpath⟩ := p.whole_keeps svc
  have hasked : (Connection.exchange (p.whole svc) fs).path = p.asked svc.json := by
    simp only [Connection.exchange, hmethod, hpath, getPost, p.whole_fields svc]
    rfl
  unfold Parts.file
  rw [← hasked]
  rfl

/-- The texts written while a request is parsed and answered fit their arrays
exactly if its parts are short. -/
theorem texts_fit_iff [MySql] (db : Database) (json : Bytes → Option (Bytes → Option Bytes))
    {b : BufferBlock} (hb : Valid b)
    (h : HttpRequest.init.parse (db.services json) b = .ok (rq, left, true)) (r : HttpResponse)
    (fs : FileSystem) :
    (∀ t ∈ Connection.answerTexts db json b rq r fs, t.Fits) ↔
      ∀ p, Cut b.content p → p.Short db json fs := by
  have hparts : ∀ p, Cut b.content p →
      ((∀ t ∈ Connection.answerTexts db json b rq r fs, t.Fits) ↔ p.Short db json fs) := by
    intro p hcut
    obtain ⟨state, left', hparse⟩ := hcut.parse (db.services json) hb
    cases hparse.symm.trans h
    have hsuccess : (p.whole (db.services json)).isSuccessJs = true ↔ p.Succeeds (db.services json) :=
      Parts.whole_succeeds (db.services json) (Parts.flagsOk_state (parse_flags h))
    have hanswer : (∀ t ∈ (Connection.initResponse
        { p.whole (db.services json) with state := state } r).1.responseTexts fs, t.Fits) ↔
        (¬p.Succeeds (db.services json) → fs.openFile (p.file json fs) ≠ none →
          (p.file json fs).length ≤ 245) := by
      have hfile : (Connection.exchange { p.whole (db.services json) with state := state } fs).file.1 =
          p.file json fs := file_whole (db.services json) p fs
      rw [responseTexts_fit, hfile, ← hsuccess, Bool.not_eq_true]
    rw [Connection.answerTexts, List.forall_mem_append, hcut.texts db json hb, Parts.restTexts_fit]
    refine (and_congr_right' hanswer).trans ⟨?_, ?_⟩
    · rintro ⟨⟨hbody, huser, hrequest⟩, hfile⟩
      exact ⟨hrequest, hbody, huser, hfile⟩
    · rintro ⟨hrequest, hbody, huser, hfile⟩
      exact ⟨⟨hbody, huser, hrequest⟩, hfile⟩
  constructor
  · exact fun hfit p hcut => (hparts p hcut).mp hfit
  · intro hshort
    obtain ⟨p, hcut⟩ := cut_of_parse hb h
    exact (hparts p hcut).mpr (hshort p hcut)

def nothingFound : FileSystem :=
  { stat := fun _ => none, statError := fun _ => none, openFile := fun _ => none
    mmap := fun _ => none }

def unconnected : Database :=
  { connected := false, queried := false, stored := false, inserted := false, rows := [] }

section Served

attribute [local instance] singleByte

theorem texts_fit_iff_example : ∃ rq left,
    HttpRequest.init.parse (unconnected.services fun _ => none) requestLineOnly = .ok (rq, left, true) ∧
      ∀ p, Cut requestLineOnly.content p → p.Short unconnected (fun _ => none) nothingFound := by
  have hrun : (HttpRequest.init.parse (unconnected.services fun _ => none) requestLineOnly).toOption.map
      (fun run => (run.2.2, (Connection.answerTexts unconnected (fun _ => none) requestLineOnly run.1 .new
        nothingFound).all fun t => decide t.Fits)) = some (true, true) := by
    decide +kernel
  obtain ⟨⟨rq, left, parsed⟩, hparse, hview⟩ := view_ok _ hrun
  obtain ⟨rfl, hfit⟩ := Prod.mk.inj hview
  refine ⟨rq, left, hparse, (texts_fit_iff _ _ (held_valid _) hparse .new nothingFound).mp ?_⟩
  exact fun t ht => of_decide_eq_true (List.all_eq_true.mp hfit t ht)

def longPath : BufferBlock :=
  held (bytes "GET /" ++ List.replicate 245 97 ++ bytes " HTTP/1.1\r\n\r\n")

theorem long_path_overflows : ¬∀ (db : Database) (json : Bytes → Option (Bytes → Option Bytes))
    (b : BufferBlock) (rq : HttpRequest) (left : BufferBlock) (r : HttpResponse) (fs : FileSystem),
    Valid b → HttpRequest.init.parse (db.services json) b = .ok (rq, left, true) →
      ∀ t ∈ Connection.answerTexts db json b rq r fs, t.Fits := by
  intro h
  have hrun : (HttpRequest.init.parse (unconnected.services fun _ => none) longPath).toOption.map
      (fun run => (run.2.2, (HttpRequest.init.parseTexts unconnected (fun _ => none) longPath).all
        fun t => decide t.Fits)) = some (true, false) := by
    decide +kernel
  obtain ⟨⟨rq, left, parsed⟩, hparse, hview⟩ := view_ok _ hrun
  obtain ⟨rfl, hfit⟩ := Prod.mk.inj hview
  refine absurd (List.all_eq_true.mpr fun t ht => decide_eq_true ?_) (Bool.eq_false_iff.mp hfit)
  exact h _ _ _ rq left .new nothingFound (held_valid _) hparse t (List.mem_append_left _ ht)

end Served

end MudouHttp
