import MudouHttp.Http.Forms
import MudouHttp.Http.TextBounds

/-!
# The spelling of header names

`header_` has each name as it was received, and `Connection` and `Content-Type`
are looked up in it. `spelling_iff`: two requests that differ in the case of
header names only are taken for the same exactly if the headers spelled
`Connection` agree in what counts for the version, and those spelled
`Content-Type` have the body read in the same way, or the body is one for which
that makes no difference.
-/

namespace MudouHttp

open BufferBlock (Valid)
open Function (update_of_ne)
open HttpRequest
open Lib (LastOf assign assign_iff cut cut_eq_none cut_eq_some)

-- ---------------------------------------------------------------------------
-- Two spellings of a request
-- ---------------------------------------------------------------------------

namespace RequestText

def SameHeader (h h' : Bytes × Bytes) : Prop := h.1.map tolower = h'.1.map tolower ∧ h.2 = h'.2

structure Recased (t t' : RequestText) : Prop where
  method : t.method = t'.method
  target : t.target = t'.target
  version : t.version = t'.version
  headers : List.Forall₂ SameHeader t.headers t'.headers
  body : t.body = t'.body

theorem cut_line {t : RequestText} (ht : t.WellFormed) (hc : Cut t.serialise p) :
    p.method = t.method ∧ p.target = t.target ∧ p.version = t.version := by
  have hline : (lineOf t.serialise).2 = t.requestLine :=
    congrArg Prod.snd (lineOf_crlf (requestLine_noCr ht) (headerLines t.headers ++ (crlf ++ t.body)))
  have hmatch := hc.requestLine
  rw [hline, fullMatch_requestLine ht] at hmatch
  simp only [Option.some.injEq, List.cons.injEq, and_true] at hmatch
  obtain ⟨hmethod, htarget, hversion⟩ := hmatch
  exact ⟨hmethod.symm, htarget.symm, hversion.symm⟩

theorem cut_parts {t : RequestText} (ht : t.WellFormed) (hlen : t.serialise.length < 2 ^ 31)
    (hc : Cut t.serialise p) (svc : Services) : p.body = t.body ∧
      (p.whole svc).header = afterBody (stored (fun _ => none) t.headers) t.body := by
  obtain ⟨rq', hp, -, -, -, -, hbody, hheader⟩ := parses_serialise svc ht hlen
  rw [← held_content t.serialise] at hp hc
  have hne : (held t.serialise).content ≠ [] := by
    rw [held_content, serialise]
    simp [crlf]
  obtain ⟨state, left, hparse⟩ := hc.parse svc (held_valid t.serialise)
  cases hparse.symm.trans (HttpRequest.parse_ok (held_valid t.serialise).toRepr hne hp)
  exact ⟨(Parts.whole_body svc p).symm.trans hbody, hheader⟩

theorem Recased.parts {t t' : RequestText} (hr : Recased t t') (ht : t.WellFormed) (ht' : t'.WellFormed)
    (hc : Cut t.serialise p) (hc' : Cut t'.serialise p') : p.path = p'.path ∧ p.version = p'.version := by
  obtain ⟨-, htarget, hversion⟩ := cut_line ht hc
  obtain ⟨-, htarget', hversion'⟩ := cut_line ht' hc'
  exact ⟨by rw [Parts.path, htarget, hr.target, ← htarget', Parts.path],
    by rw [hversion, hr.version, ← hversion']⟩

end RequestText

-- ---------------------------------------------------------------------------
-- What the exact names decide
-- ---------------------------------------------------------------------------

namespace Parts

variable {p p' : Parts}

/-- The header spelled `Connection` has this value, in whatever case. -/
def Says (p : Parts) (value : Bytes) : Prop :=
  (p.header (bytes "Connection")).map (·.map tolower) = some value

instance (p : Parts) (value : Bytes) : Decidable (p.Says value) :=
  inferInstanceAs (Decidable (_ = some value))

/-- By default a connection persists in HTTP/1.1 only. -/
def Persists (p : Parts) : Prop :=
  if p.version = bytes "1.1" then ¬p.Says (bytes "close") else p.Says (bytes "keep-alive")

theorem whole_connection (svc : Services) (p : Parts) :
    (p.whole svc).header (bytes "Connection") = p.header (bytes "Connection") ∧
      (p.whole svc).version = p.version := by
  unfold whole withBody
  split
  · exact ⟨rfl, rfl⟩
  · have hkeeps := (RequestText.parseBody_keeps svc p.head p.body).2
    refine ⟨?_, hkeeps.version⟩
    rw [hkeeps.header]
    show touch p.header contentType (bytes "Connection") = p.header (bytes "Connection")
    unfold touch
    split
    · rfl
    · exact update_of_ne (by decide) _ _

theorem whole_isKeepAlive (svc : Services) (p : Parts) : (p.whole svc).isKeepAlive = true ↔ p.Persists := by
  have hne : bytes "keep-alive" ≠ bytes "close" := by decide
  obtain ⟨hconn, hversion⟩ := whole_connection svc p
  unfold HttpRequest.isKeepAlive Persists Says
  rw [hconn, hversion]
  cases (p.header (bytes "Connection")).map (·.map tolower) with
  | none => by_cases hv : p.version = bytes "1.1" <;> simp [hv]
  | some value =>
    by_cases hclose : value = bytes "close"
    · subst hclose
      by_cases hv : p.version = bytes "1.1" <;> simp [hv, hne.symm]
    · by_cases hkeep : value = bytes "keep-alive"
      · subst hkeep
        by_cases hv : p.version = bytes "1.1" <;> simp [hv, hne]
      · by_cases hv : p.version = bytes "1.1" <;> simp [hv, hclose, hkeep]

theorem posted_username (json : Bytes → Option (Bytes → Option Bytes))
    (hpath : p.path = bytes "/register.html" ∨ p.path = bytes "/login.html") :
    (p.posted json (bytes "username")).isSome = true ↔ p.IsForm := by
  have hjson : ¬p.IsJson := by
    rintro ⟨-, hdownload, -⟩
    rcases hpath with hpath | hpath
    · rw [hpath] at hdownload
      exact absurd hdownload (by decide)
    · rw [hpath] at hdownload
      exact absurd hdownload (by decide)
  obtain ⟨tag, htag⟩ : ∃ tag, defaultHtmlTag p.path = some tag := by
    rcases hpath with hpath | hpath
    · exact ⟨0, (defaultHtmlTag_some _ _).mpr (.inl ⟨hpath, rfl⟩)⟩
    · exact ⟨1, (defaultHtmlTag_some _ _).mpr (.inr ⟨hpath, rfl⟩)⟩
  unfold posted
  rw [if_neg hjson, htag]
  by_cases hform : p.IsForm
  · rw [if_pos hform]
    refine iff_of_true ?_ hform
    obtain ⟨name, hname⟩ := Option.isSome_iff_exists.mp (RequestText.touch_isSome p.form (bytes "username"))
    show (touch (touch p.form (bytes "username")) (bytes "password") (bytes "username")).isSome = true
    rw [RequestText.touch_keeps hname]
    rfl
  · rw [if_neg hform]
    exact iff_of_false Bool.false_ne_true hform

def SameConnection (p p' : Parts) : Prop :=
  if p.version = bytes "1.1" then p.Says (bytes "close") ↔ p'.Says (bytes "close")
  else p.Says (bytes "keep-alive") ↔ p'.Says (bytes "keep-alive")

theorem sameConnection_iff (hversion : p.version = p'.version) :
    (p.Persists ↔ p'.Persists) ↔ p.SameConnection p' := by
  unfold Persists SameConnection
  rw [← hversion]
  split
  · exact not_iff_not
  · exact Iff.rfl

end Parts

-- ---------------------------------------------------------------------------
-- What a body brings in
-- ---------------------------------------------------------------------------

def Member (json : Bytes → Option (Bytes → Option Bytes)) (body key value : Bytes) : Prop :=
  (key = bytes "fileName" ∨ key = bytes "folder") ∧
    ∃ doc text, json (cstr body) = some doc ∧ doc key = some text ∧ cstr text = value

def IsPage (path : Bytes) : Prop := path = bytes "/register.html" ∨ path = bytes "/login.html"

/-- The last field of the form with this key. A page that takes the form takes a
username or a password that is missing for an empty one. -/
def Field (path body key value : Bytes) : Prop :=
  LastOf (formFields body) key value ∨
    IsPage path ∧ (key = bytes "username" ∨ key = bytes "password") ∧
      (∀ v, ¬LastOf (formFields body) key v) ∧ value = []

inductive BodyKind
  | json
  | form
  | unread

/-- A body without `=` has no fields, and no other has none. -/
theorem formFields_nil {body : Bytes} : formFields body = [] ↔ chr '=' ∉ body := by
  have hfield : ∀ piece, formField piece = none ↔ chr '=' ∉ piece := fun piece => by
    rw [formField, Option.map_eq_none_iff, cut_eq_none]
  -- on the pieces between two `&`
  induction hlen : body.length using Nat.strongRecOn generalizing body with
  | ind n ih =>
    cases hcut : cut (chr '&') body with
    | none =>
      rw [formFields_last (cut_eq_none.mp hcut), ← hfield]
      cases formField body <;> simp
    | some pair =>
      obtain ⟨piece, rest⟩ := pair
      obtain ⟨rfl, hpiece⟩ := cut_eq_some.mp hcut
      have hrest : formFields rest = [] ↔ chr '=' ∉ rest :=
        ih rest.length (by rw [← hlen]; simp; omega) rfl
      have hamp : chr '=' ≠ chr '&' := by decide
      rw [formFields_piece hpiece, List.append_eq_nil_iff, hrest, List.mem_append, List.mem_cons,
        not_or, not_or, and_iff_right hamp, ← hfield piece]
      refine and_congr_left' ?_
      cases formField piece <;> simp

theorem touch_iff {m : StrMap} : touch m name key = some value ↔
    m key = some value ∨ key = name ∧ m key = none ∧ value = [] := by
  unfold touch
  by_cases hkey : key = name
  · subst hkey
    cases hm : m key with
    | none => simp [eq_comm]
    | some v => simp [hm]
  · split
    · simp [hkey]
    · rw [update_of_ne hkey]
      simp [hkey]

theorem touch_none {m : StrMap} : touch m name key = none ↔ m key = none ∧ key ≠ name := by
  simp only [Option.eq_none_iff_forall_ne_some, ne_eq, touch_iff, not_or, forall_and]
  refine and_congr_right fun hm => ⟨fun h hkey => h [] ⟨hkey, hm, rfl⟩, fun h _ hkey => h hkey.1⟩

theorem touch_pair {m : StrMap} : touch (touch m name) name' key = some value ↔
    m key = some value ∨ (key = name ∨ key = name') ∧ m key = none ∧ value = [] := by
  rw [touch_iff, touch_iff, touch_none]
  grind

namespace Parts

variable {p p' : Parts}

def bodyKind (p : Parts) : BodyKind :=
  if p.IsJson then .json else if p.IsForm then .form else .unread

def Brings (json : Bytes → Option (Bytes → Option Bytes)) (p : Parts) (key value : Bytes) : Prop :=
  match p.bodyKind with
  | .json => Member json p.body key value
  | .form => Field p.path p.body key value
  | .unread => False

theorem members_iff {doc : Bytes → Option Bytes} : members doc key = some value ↔
    (key = bytes "fileName" ∨ key = bytes "folder") ∧ ∃ text, doc key = some text ∧ cstr text = value := by
  unfold members
  split
  · rename_i hkey
    simp [hkey, Option.map_eq_some_iff]
  · rename_i hkey
    simp [hkey]

theorem form_iff : p.form key = some value ↔ LastOf (formFields p.body) key value := by
  have hform : p.form = assign (fun _ => none) (formFields p.body) :=
    parseFromUrlencodedLoop_ok (formRuns_fields p.body 0 fun _ => none) (Nat.le_refl _)
  rw [hform, assign_iff]

theorem posted_iff (json : Bytes → Option (Bytes → Option Bytes)) :
    p.posted json key = some value ↔ p.Brings json key value := by
  unfold posted Brings bodyKind
  split
  · simp only [Member]
    cases json (cstr p.body) with
    | none => simp
    | some doc => simp [members_iff]
  · split
    · have hform : ∀ key, p.form key = none ↔ ∀ v, ¬LastOf (formFields p.body) key v := fun key => by
        simp only [← form_iff, Option.eq_none_iff_forall_ne_some]
      cases htag : defaultHtmlTag p.path with
      | none =>
        have hpage : ¬IsPage p.path := by
          rintro (hpath | hpath)
          · cases htag.symm.trans ((defaultHtmlTag_some _ _).mpr (.inl ⟨hpath, rfl⟩))
          · cases htag.symm.trans ((defaultHtmlTag_some _ _).mpr (.inr ⟨hpath, rfl⟩))
        simp [form_iff, Field, hpage]
      | some tag =>
        have hpage : IsPage p.path := ((defaultHtmlTag_some _ _).mp htag).imp And.left And.left
        rw [touch_pair, form_iff, hform, Field]
        simp only [hpage, true_and]
    · simp

theorem posted_eq_iff (json : Bytes → Option (Bytes → Option Bytes)) :
    p.posted json = p'.posted json ↔ ∀ key value, p.Brings json key value ↔ p'.Brings json key value := by
  simp only [← posted_iff]
  constructor
  · intro h key value
    rw [h]
  · intro h
    funext key
    exact Option.ext (h key)

/-- The headers spelled `Content-Type` have the body read in the same way, or it
is one for which that makes no difference. (The two bodies differ at most where
a line is longer than an `int` can say.) -/
def SameFields (json : Bytes → Option (Bytes → Option Bytes)) (p p' : Parts) : Prop :=
  match p.bodyKind, p'.bodyKind with
  | .unread, .unread => True
  | .json, .json => p.body = p'.body ∨
    ∀ key value, Member json p.body key value ↔ Member json p'.body key value
  | .form, .form => p.body = p'.body ∨
    ∀ key value, Field p.path p.body key value ↔ Field p'.path p'.body key value
  | .json, .unread => ∀ key value, ¬Member json p.body key value
  | .unread, .json => ∀ key value, ¬Member json p'.body key value
  | .form, .unread => chr '=' ∉ p.body ∧ ¬IsPage p.path
  | .unread, .form => chr '=' ∉ p'.body ∧ ¬IsPage p'.path
  | .json, .form => ∀ key value, Member json p.body key value ↔ LastOf (formFields p'.body) key value
  | .form, .json => ∀ key value, LastOf (formFields p.body) key value ↔ Member json p'.body key value

/-- A form brings in nothing if it has no fields and is for no page. -/
theorem no_field {path body : Bytes} :
    (∀ key value, ¬Field path body key value) ↔ chr '=' ∉ body ∧ ¬IsPage path := by
  rw [← formFields_nil]
  constructor
  · intro h
    have hnone : ∀ key value, ¬LastOf (formFields body) key value :=
      fun key value hlast => h key value (.inl hlast)
    refine ⟨List.eq_nil_iff_forall_not_mem.mpr fun field hmem => ?_, fun hpage => ?_⟩
    · obtain ⟨value, hlast⟩ := Lib.lastOf_of_mem (List.mem_map_of_mem hmem)
      exact hnone _ value hlast
    · exact h (bytes "username") [] (.inr ⟨hpage, .inl rfl, hnone _, rfl⟩)
  · rintro ⟨hnil, hpage⟩ key value (⟨before, after, hfields, -⟩ | ⟨hpath, -⟩)
    · rw [hnil] at hfields
      exact absurd hfields (by simp)
    · exact hpage hpath

/-- A download is no page that takes a form. -/
theorem field_of_json (h : p.bodyKind = .json) (body key value : Bytes) :
    Field p.path body key value ↔ LastOf (formFields body) key value := by
  have hjson : p.IsJson := by
    unfold bodyKind at h
    split at h
    · assumption
    · split at h <;> cases h
  have hpage : ¬IsPage p.path := by
    rintro (hpath | hpath)
    · exact absurd (hpath ▸ hjson.2.1) (by decide)
    · exact absurd (hpath ▸ hjson.2.1) (by decide)
  simp [Field, hpage]

theorem sameFields_iff (json : Bytes → Option (Bytes → Option Bytes)) (hpath : p.path = p'.path) :
    p.posted json = p'.posted json ↔ SameFields json p p' := by
  rw [posted_eq_iff]
  unfold Brings SameFields
  cases hr : p.bodyKind with
  | json =>
    cases hr' : p'.bodyKind with
    | json =>
      refine ⟨.inr, fun h => h.elim (fun hbody => ?_) id⟩
      simp only [hbody, implies_true]
    | form => simp only [← hpath, field_of_json hr]
    | unread => simp only [iff_false]
  | form =>
    cases hr' : p'.bodyKind with
    | json => simp only [hpath, field_of_json hr']
    | form =>
      refine ⟨.inr, fun h => h.elim (fun hbody => ?_) id⟩
      simp only [hpath, hbody, implies_true]
    | unread => simp only [iff_false, no_field]
  | unread =>
    cases hr' : p'.bodyKind with
    | json => simp only [false_iff]
    | form => simp only [false_iff, no_field]
    | unread => simp only [implies_true]

theorem same_user (json : Bytes → Option (Bytes → Option Bytes)) (hpath : p.path = p'.path)
    (hpost : p.posted json = p'.posted json)
    (hpage : p.path = bytes "/register.html" ∨ p.path = bytes "/login.html") :
    (p.IsForm ↔ p'.IsForm) ∧ (p.IsForm → p.username = p'.username ∧ p.password = p'.password) := by
  have hforms : p.IsForm ↔ p'.IsForm := by
    rw [← posted_username json hpage, hpost, posted_username json (hpath ▸ hpage)]
  have hfield : ∀ {p : Parts}, p.IsForm → ∀ key, lookup p.form key = lookup (p.posted json) key := by
    intro p hform key
    rw [posted_fields, fields, if_neg (not_isJson hform), if_pos hform]
  refine ⟨hforms, fun hform => ⟨?_, ?_⟩⟩
  · rw [username, hfield hform, hpost, ← hfield (hforms.mp hform), username]
  · rw [password, hfield hform, hpost, ← hfield (hforms.mp hform), password]

end Parts

-- ---------------------------------------------------------------------------
-- Two spellings, one answer
-- ---------------------------------------------------------------------------

/-- What the rest of the server learns of the two requests is the same. -/
structure SameRequest (rq rq' : HttpRequest) : Prop where
  isKeepAlive : rq.isKeepAlive = rq'.isKeepAlive
  post : rq.post = rq'.post
  returnJs : rq.returnJs = rq'.returnJs
  isSuccessJs : rq.isSuccessJs = rq'.isSuccessJs

theorem sameRequest_iff {svc : Services} {p p' : Parts} (hf : FlagsOk svc (p.whole svc))
    (hf' : FlagsOk svc (p'.whole svc)) (hpath : p.path = p'.path) (hversion : p.version = p'.version) :
    SameRequest (p.whole svc) (p'.whole svc) ↔
      p.SameConnection p' ∧ Parts.SameFields svc.json p p' := by
  have hkeep : (p.whole svc).isKeepAlive = (p'.whole svc).isKeepAlive ↔ p.SameConnection p' := by
    rw [Bool.eq_iff_iff, Parts.whole_isKeepAlive, Parts.whole_isKeepAlive,
      Parts.sameConnection_iff hversion]
  constructor
  · intro h
    refine ⟨hkeep.mp h.isKeepAlive, (Parts.sameFields_iff svc.json hpath).mp ?_⟩
    rw [← Parts.whole_post, ← Parts.whole_post]
    exact h.post
  · rintro ⟨hconn, hfields⟩
    have hpost := (Parts.sameFields_iff svc.json hpath).mpr hfields
    have huser := Parts.same_user svc.json hpath hpost
    refine ⟨hkeep.mpr hconn, by rw [Parts.whole_post, hpost, Parts.whole_post], ?_, ?_⟩
    · rw [Bool.eq_iff_iff, hf.js, hf'.js, Parts.whole_isForm, Parts.whole_isForm, ← hpath]
      exact and_congr_left fun hpage => (huser hpage).1
    · rw [Bool.eq_iff_iff, Parts.whole_succeeds svc hf, Parts.whole_succeeds svc hf']
      unfold Parts.Succeeds
      rw [← hpath]
      constructor
      · rintro ⟨hform, hpage, hok⟩
        obtain ⟨hforms, hsame⟩ := huser hpage
        obtain ⟨hname, hword⟩ := hsame hform
        exact ⟨hforms.mp hform, hpage, by rwa [← hname, ← hword]⟩
      · rintro ⟨hform, hpage, hok⟩
        obtain ⟨hforms, hsame⟩ := huser hpage
        obtain ⟨hname, hword⟩ := hsame (hforms.mpr hform)
        exact ⟨hforms.mpr hform, hpage, by rwa [hname, hword]⟩

/-- Two complete requests that differ in the case of header names only are
taken for the same exactly if the headers spelled `Connection` agree in what
counts for the version, and those spelled `Content-Type` have the body read in
the same way, or the body is one for which that makes no difference. -/
theorem spelling_iff (svc : Services) {t t' : RequestText} (ht : t.WellFormed) (ht' : t'.WellFormed)
    (hr : t.Recased t') {b b' : BufferBlock} (hb : Valid b) (hb' : Valid b')
    (hc : b.content = t.serialise) (hc' : b'.content = t'.serialise)
    (hparse : HttpRequest.init.parse svc b = .ok (rq, left, true))
    (hparse' : HttpRequest.init.parse svc b' = .ok (rq', left', true)) :
    SameRequest rq rq' ↔ ∀ p p', Cut b.content p → Cut b'.content p' →
      p.SameConnection p' ∧ Parts.SameFields svc.json p p' := by
  have hparts : ∀ p p', Cut b.content p → Cut b'.content p' →
      (SameRequest rq rq' ↔ p.SameConnection p' ∧ Parts.SameFields svc.json p p') := by
    intro p p' hcut hcut'
    obtain ⟨state, _, hrun⟩ := hcut.parse svc hb
    obtain ⟨state', _, hrun'⟩ := hcut'.parse svc hb'
    cases hrun.symm.trans hparse
    cases hrun'.symm.trans hparse'
    obtain ⟨hpath, hversion⟩ := hr.parts ht ht' (hc ▸ hcut) (hc' ▸ hcut')
    rw [← sameRequest_iff (Parts.flagsOk_state (parse_flags hparse))
      (Parts.flagsOk_state (parse_flags hparse')) hpath hversion]
    exact ⟨fun h => ⟨h.isKeepAlive, h.post, h.returnJs, h.isSuccessJs⟩,
      fun h => ⟨h.isKeepAlive, h.post, h.returnJs, h.isSuccessJs⟩⟩
  constructor
  · exact fun hsame p p' hcut hcut' => (hparts p p' hcut hcut').mp hsame
  · intro hall
    obtain ⟨p, hcut⟩ := cut_of_parse hb hparse
    obtain ⟨p', hcut'⟩ := cut_of_parse hb' hparse'
    exact (hparts p p' hcut hcut').mpr (hall p p' hcut hcut')

def withHeader (name value : String) : RequestText :=
  { method := bytes "GET", target := bytes "/", version := bytes "1.1"
    headers := [(bytes name, bytes value)], body := [] }

theorem withHeader_wellFormed (h : RequestText.HeaderField (bytes name, bytes value)) :
    (withHeader name value).WellFormed where
  method := show 32 ∉ bytes "GET" ∧ 13 ∉ bytes "GET" by decide
  target := show 32 ∉ bytes "/" ∧ 13 ∉ bytes "/" by decide
  version := show 32 ∉ bytes "1.1" ∧ 13 ∉ bytes "1.1" by decide
  headers := by
    intro field hfield
    rwa [List.mem_singleton.mp hfield]

theorem withHeader_recased (h : (bytes name).map tolower = (bytes name').map tolower) :
    (withHeader name value).Recased (withHeader name' value) :=
  ⟨rfl, rfl, rfl, .cons ⟨h, rfl⟩ .nil, rfl⟩

def badDownload (name : String) : RequestText :=
  { method := bytes "POST", target := bytes "/download", version := bytes "1.1"
    headers := [(bytes "Connection", bytes " close"), (bytes name, bytes " application/json")]
    body := bytes "x" }

theorem badDownload_wellFormed (h : RequestText.HeaderField (bytes name, bytes " application/json")) :
    (badDownload name).WellFormed where
  method := show 32 ∉ bytes "POST" ∧ 13 ∉ bytes "POST" by decide
  target := show 32 ∉ bytes "/download" ∧ 13 ∉ bytes "/download" by decide
  version := show 32 ∉ bytes "1.1" ∧ 13 ∉ bytes "1.1" by decide
  headers := by
    refine List.forall_mem_cons.mpr ⟨?_, List.forall_mem_singleton.mpr h⟩
    unfold RequestText.HeaderField
    decide +kernel

/-- The body is read in two ways, and brings in nothing in either. -/
theorem spelling_iff_example : ∃ rq left rq' left',
    HttpRequest.init.parse .none (held (badDownload "Content-Type").serialise) = .ok (rq, left, true) ∧
    HttpRequest.init.parse .none (held (badDownload "content-type").serialise) =
      .ok (rq', left', true) ∧ SameRequest rq rq' := by
  have hrun : (HttpRequest.init.parse .none (held (badDownload "Content-Type").serialise)).toOption.map
      (fun run => run.2.2) = some true := by decide +kernel
  have hrun' : (HttpRequest.init.parse .none (held (badDownload "content-type").serialise)).toOption.map
      (fun run => run.2.2) = some true := by decide +kernel
  obtain ⟨⟨rq, left, parsed⟩, hparse, rfl⟩ := view_ok _ hrun
  obtain ⟨⟨rq', left', parsed'⟩, hparse', rfl⟩ := view_ok _ hrun'
  have ht : (badDownload "Content-Type").WellFormed :=
    badDownload_wellFormed (by unfold RequestText.HeaderField; decide +kernel)
  have ht' : (badDownload "content-type").WellFormed :=
    badDownload_wellFormed (by unfold RequestText.HeaderField; decide +kernel)
  have hr : (badDownload "Content-Type").Recased (badDownload "content-type") :=
    ⟨rfl, rfl, rfl, .cons ⟨rfl, rfl⟩ (.cons ⟨by decide, rfl⟩ .nil), rfl⟩
  refine ⟨rq, left, rq', left', hparse, hparse', (spelling_iff .none ht ht' hr (held_valid _)
    (held_valid _) (held_content _) (held_content _) hparse hparse').mpr fun p p' hcut hcut' => ?_⟩
  rw [held_content] at hcut hcut'
  obtain ⟨hbody, hheader⟩ := RequestText.cut_parts ht (by decide +kernel) hcut .none
  obtain ⟨-, hheader'⟩ := RequestText.cut_parts ht' (by decide +kernel) hcut' .none
  obtain ⟨-, htarget, -⟩ := RequestText.cut_line ht hcut
  have htype : lookup p.header contentType = bytes "application/json" := by
    rw [← Parts.whole_type .none, hheader]
    decide +kernel
  have htype' : lookup p'.header contentType = [] := by
    rw [← Parts.whole_type .none, hheader']
    decide +kernel
  have hconn : p.header (bytes "Connection") = some (bytes "close") := by
    rw [← (Parts.whole_connection .none p).1, hheader]
    decide +kernel
  have hconn' : p'.header (bytes "Connection") = some (bytes "close") := by
    rw [← (Parts.whole_connection .none p').1, hheader']
    decide +kernel
  have hjson : p.bodyKind = .json := by
    refine if_pos ⟨?_, ?_, htype⟩
    · rw [hbody]
      exact List.cons_ne_nil _ _
    · rw [Parts.path, htarget]
      decide
  have hunread : p'.bodyKind = .unread := by
    have hno : ¬p'.IsJson := fun h => absurd (htype'.symm.trans h.2.2) (by decide)
    have hno' : ¬p'.IsForm := fun h => absurd (htype'.symm.trans h.2.2) (by decide)
    rw [Parts.bodyKind, if_neg hno, if_neg hno']
  constructor
  · simp only [Parts.SameConnection, Parts.Says, hconn, hconn']
    split <;> trivial
  · simp only [Parts.SameFields, hjson, hunread]
    rintro key value ⟨-, doc, text, hdoc, -⟩
    cases hdoc

/-- A client that spells `connection: close` is kept waiting for the close. -/
theorem lower_case_ignored : ¬∀ (svc : Services) (t t' : RequestText) (b b' : BufferBlock)
    (rq rq' : HttpRequest) (left left' : BufferBlock), t.WellFormed → t'.WellFormed → t.Recased t' →
      Valid b → Valid b' → b.content = t.serialise → b'.content = t'.serialise →
      HttpRequest.init.parse svc b = .ok (rq, left, true) →
      HttpRequest.init.parse svc b' = .ok (rq', left', true) → SameRequest rq rq' := by
  intro hall
  have hrun : (HttpRequest.init.parse .none (held (withHeader "Connection" " close").serialise)).toOption.map
      (fun run => (run.2.2, run.1.isKeepAlive)) = some (true, false) := by decide +kernel
  have hrun' : (HttpRequest.init.parse .none (held (withHeader "connection" " close").serialise)).toOption.map
      (fun run => (run.2.2, run.1.isKeepAlive)) = some (true, true) := by decide +kernel
  obtain ⟨⟨rq, left, parsed⟩, hparse, hview⟩ := view_ok _ hrun
  obtain ⟨⟨rq', left', parsed'⟩, hparse', hview'⟩ := view_ok _ hrun'
  obtain ⟨rfl, hclose⟩ := Prod.mk.inj hview
  obtain ⟨rfl, hkeep⟩ := Prod.mk.inj hview'
  have hfield : RequestText.HeaderField (bytes "Connection", bytes " close") := by
    unfold RequestText.HeaderField
    decide +kernel
  have hfield' : RequestText.HeaderField (bytes "connection", bytes " close") := by
    unfold RequestText.HeaderField
    decide +kernel
  have hsame := hall .none _ _ _ _ rq rq' left left' (withHeader_wellFormed hfield)
    (withHeader_wellFormed hfield') (withHeader_recased (by decide)) (held_valid _) (held_valid _)
    (held_content _) (held_content _) hparse hparse'
  exact absurd (hclose.symm.trans (hsame.isKeepAlive.trans hkeep)) (by decide)

end MudouHttp
