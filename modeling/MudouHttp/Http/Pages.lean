import MudouHttp.Http.Transcripts
import MudouHttp.Http.TextBounds

/-!
# The page a request names

`FileSystem.Serves` says which code and which bytes a path stands for. `pages_served`:
whatever the run, a request is answered with the page it names, byte for byte, unless
it is a form that succeeds: that is answered that it has failed.
-/

namespace MudouHttp

open BufferBlock (Valid)
open Connection (initResponse)
open Lib (Line Reader lines)

/-- The code for a path, and the path that is opened instead of it. -/
def shownPage (fs : FileSystem) (path : Bytes) : Int × Bytes :=
  match fs.stat (cstr (bytes "./html" ++ path)) with
  | none => (404, bytes "/404.html")
  | some stat =>
    if stat.isDir then (404, bytes "/404.html")
    else if ¬stat.othersRead then (403, bytes "/403.html")
    else (200, path)

structure FileSystem.Holds (fs : FileSystem) (stat : Bytes → Option FileStat) (path content : Bytes) :
    Prop where
  size : ∃ s, stat (cstr (bytes "./html" ++ path)) = some s ∧ s.size = content.length
  nonempty : content ≠ []
  opened : ∃ fd, fs.openFile (cstr (bytes "./html" ++ path)) = some fd
  mapped : ∃ address, fs.mmap content.length = some (address, content.get)

structure FileSystem.Serves (fs : FileSystem) (path : Bytes) (code : Int) (content : Bytes) : Prop where
  status : (shownPage fs path).1 = code
  holds : fs.Holds (if code = 200 then fs.stat else fs.statError) (shownPage fs path).2 content

structure Frame.Shows (f : Frame) (code : Int) (content : Bytes) : Prop where
  statusLine : ∃ status, HttpResponse.codeStatus code = some status ∧
    f.statusLine = bytes "HTTP/1.1 " ++ bytes (toString code) ++ bytes " " ++ status
  body : f.body = content

namespace HttpResponse

structure Fresh (r : HttpResponse) : Prop where
  code : r.code = -1
  srcDir : r.srcDir = bytes "./html"
  mmFile : r.mmFile = none

structure Found (r : HttpResponse) (code : Int) (path : Bytes) (size : Nat) : Prop where
  code : r.code = code
  srcDir : r.srcDir = bytes "./html"
  path : r.path = path
  size : r.mmFileStat.size = size
  js : r.isJs = false
  mmFile : r.mmFile = none

theorem findFile_eq {r : HttpResponse} (h : r.Fresh) (fs : FileSystem) :
    (r.findFile fs).1 = { r with
      code := (shownPage fs r.path).1
      mmFileStat := (fs.stat (cstr (bytes "./html" ++ r.path))).getD r.mmFileStat } := by
  have hfile : r.filePath = cstr (bytes "./html" ++ r.path) := by rw [filePath, h.srcDir]
  unfold findFile shownPage
  rw [hfile]
  cases fs.stat (cstr (bytes "./html" ++ r.path)) with
  | none => rfl
  | some stat =>
    dsimp only
    by_cases hdir : stat.isDir = true
    · rw [if_pos hdir, if_pos hdir]
      rfl
    · rw [if_neg hdir, if_neg hdir]
      by_cases hread : stat.othersRead = true
      · rw [if_neg (not_not.mpr hread), if_neg (not_not.mpr hread), if_pos h.code]
        rfl
      · rw [if_pos hread, if_pos hread]
        rfl

/-- What is not shown itself is shown an error page. -/
theorem shownPage_cases (fs : FileSystem) (path : Bytes) :
    ((shownPage fs path).1 = 200 ∧ (shownPage fs path).2 = path) ∨
      ((shownPage fs path).1 ≠ 200 ∧ codePath (shownPage fs path).1 = some (shownPage fs path).2) := by
  unfold shownPage
  split
  · exact .inr ⟨by decide, rfl⟩
  · split
    · exact .inr ⟨by decide, rfl⟩
    · split
      · exact .inr ⟨by decide, rfl⟩
      · exact .inl ⟨rfl, rfl⟩

theorem found_ok {r : HttpResponse} {code : Int} {content : Bytes} (h : r.Fresh) (hjs : r.isJs = false)
    (hserves : fs.Serves r.path code content) :
    ((r.findFile fs).1.errorHtml fs).1.Found code (shownPage fs r.path).2 content.length := by
  obtain ⟨s, hs, hsize⟩ := hserves.holds.size
  have hcases := shownPage_cases fs r.path
  rw [findFile_eq h, errorHtml]
  rw [hserves.status] at hcases ⊢
  rcases hcases with ⟨rfl, hpath⟩ | ⟨hcode, hpath⟩
  · rw [if_pos rfl, hpath] at hs
    rw [hs]
    exact ⟨rfl, h.srcDir, hpath.symm, hsize, hjs, h.mmFile⟩
  · rw [if_neg hcode] at hs
    simp only [hpath, filePath, h.srcDir, hs]
    exact ⟨rfl, rfl, rfl, hsize, hjs, h.mmFile⟩

theorem content_mapped {r : HttpResponse} {code : Int} {path content : Bytes}
    (h : r.Found code path content.length) (hholds : fs.Holds stat path content) :
    Connection.fileTexts (r.addContent fs).1 = .ok [content] ∧ (r.addContent fs).2.1.flatten =
      bytes "Content-length: " ++ bytes (toString content.length) ++ bytes "\r\n\r\n" := by
  obtain ⟨fd, hopen⟩ := hholds.opened
  have hfile : r.filePath = cstr (bytes "./html" ++ path) := by rw [filePath, h.srcDir, h.path]
  have hlen : r.mmFileStat.size ≠ 0 := by
    rw [h.size]
    exact mt List.length_eq_zero_iff.mp hholds.nonempty
  obtain ⟨address, file, hmap, rfl⟩ : ∃ address file, fs.mmap r.mmFileStat.size = some (address, file) ∧
      List.ofFn file = content := by
    obtain ⟨address, hmap⟩ := hholds.mapped
    rw [h.size]
    exact ⟨address, content.get, hmap, List.ofFn_getElem⟩
  have hadd : r.addContent fs =
      ({ r with mmFile := some { address := address, bytes := List.ofFn file } },
        [bytes "Content-length: " ++ bytes (toString r.mmFileStat.size) ++ bytes "\r\n\r\n"],
        [.openFile r.filePath (some fd), .mmap r.mmFileStat.size (some address), .close fd]) := by
    unfold addContent
    simp only [h.js, hfile, hopen, hlen, hmap, Bool.false_eq_true, if_false]
  rw [hadd]
  constructor
  · simp only [Connection.fileTexts, List.length_ofFn, Nat.le_refl, if_true]
    rw [List.take_of_length_le (Nat.le_of_eq List.length_ofFn)]
  · rw [List.length_ofFn]
    exact List.append_nil _

theorem frame_lines (r : HttpResponse) (statusLine body : Bytes) :
    lines 13 10 (r.frame statusLine body).headers =
      r.connectionLine ++ (crlf ++ (r.typeLine ++ (crlf ++ (r.lengthLine body.length ++ crlf)))) := by
  simp only [frame, lines, List.flatMap_cons, List.flatMap_nil, List.append_nil, List.append_assoc]
  rfl

theorem addHeader_flatten (r : HttpResponse) :
    r.addHeader.flatten = r.connectionLine ++ (crlf ++ r.contentHeader.flatten) := by
  unfold connectionLine
  cases hkeep : r.isKeepAlive <;> simp only [addHeader, hkeep] <;> rfl

theorem header_text {r : HttpResponse} (hjs : r.isJs = false) (statusLine body : Bytes) :
    r.addHeader.flatten ++
        (bytes "Content-length: " ++ bytes (toString body.length) ++ bytes "\r\n\r\n" ++ body) =
      lines 13 10 (r.frame statusLine body).headers ++ (crlf ++ body) := by
  have hend : bytes "\r\n" = crlf := by decide
  have hblank : bytes "\r\n\r\n" = crlf ++ crlf := by decide
  have hlength : bytes "Content-length: " = bytes "Content-length" ++ bytes ": " := by decide
  rw [frame_lines, addHeader_flatten]
  simp only [contentHeader, typeLine, lengthLine, hjs, hend, hblank, hlength, Bool.false_eq_true,
    if_false, List.flatten_append, List.flatten_cons, List.flatten_nil, List.append_nil,
    List.append_assoc]
  cases r.isDownload
  · simp
  · simp

theorem json_text {r : HttpResponse} (hjs : r.isJs = true) (statusLine body : Bytes)
    (hbody : body = jsonBody r.isJsSuccess) :
    r.addHeader.flatten ++ body = lines 13 10 (r.frame statusLine body).headers ++ (crlf ++ body) := by
  have hend : bytes "\r\n" = crlf := by decide
  have htype : bytes "Content-Type: application/json; charset=utf-8\r\n" =
      bytes "Content-Type: application/json; charset=utf-8" ++ crlf := by decide
  have hlength : bytes "Content-Length: " = bytes "Content-Length" ++ bytes ": " := by decide
  rw [frame_lines, addHeader_flatten]
  simp only [contentHeader, typeLine, lengthLine, hjs, hend, htype, hlength, if_true, ← hbody,
    List.flatten_cons, List.flatten_nil, List.append_nil, List.append_assoc]

theorem shownPage_status (fs : FileSystem) (path : Bytes) :
    ∃ status, codeStatus (shownPage fs path).1 = some status := by
  unfold shownPage
  split
  · exact ⟨_, rfl⟩
  · split_ifs <;> exact ⟨_, rfl⟩

/-- The response once it is known what is shown: its header and what follows make a frame. -/
theorem makeResponse_frame {r r₁ : HttpResponse} {code : Int} (hr : ((r.findFile fs).1.errorHtml fs).1 = r₁)
    (hcode : r₁.code = code) (hstatus : codeStatus code = some status)
    (hfile : Connection.fileTexts (r₁.addContent fs).1 = .ok file)
    (htext : ∀ line, r₁.addHeader.flatten ++ ((r₁.addContent fs).2.1.flatten ++ file.flatten) =
      lines 13 10 (r₁.frame line body).headers ++ (crlf ++ body)) :
    Connection.fileTexts (r.makeResponse fs).1 = .ok file ∧
      ∃ f : Frame, f.Splits ((r.makeResponse fs).2.1.flatten ++ file.flatten) ∧ f.Shows code body ∧
        r₁.typeLine ∈ f.headers := by
  have hline : r₁.addStateLine =
      (r₁, [bytes "HTTP/1.1 " ++ bytes (toString code) ++ bytes " " ++ status ++ bytes "\r\n"]) := by
    simp only [addStateLine, hcode, hstatus]
  have hmake : r.makeResponse fs = ((r₁.addContent fs).1,
      [bytes "HTTP/1.1 " ++ bytes (toString code) ++ bytes " " ++ status ++ bytes "\r\n"] ++
        r₁.addHeader ++ (r₁.addContent fs).2.1, (r.makeResponse fs).2.2) := by
    simp only [makeResponse, hr, hline]
  have hcr := statusLine_noCr hstatus
  generalize hline' : bytes "HTTP/1.1 " ++ bytes (toString code) ++ bytes " " ++ status = line at hcr hmake
  rw [hmake]
  refine ⟨hfile, r₁.frame line body, ?_, ⟨⟨status, hstatus, hline'.symm⟩, rfl⟩, ?_⟩
  · dsimp only
    rw [List.flatten_append, List.flatten_append, List.flatten_singleton, List.append_assoc,
      List.append_assoc, List.append_assoc, htext line]
    exact frame_splits r₁ hcr body
  · simp [frame]

theorem makeResponse_serves {r : HttpResponse} {code : Int} {content : Bytes} (h : r.Fresh)
    (hjs : r.isJs = false) (hserves : fs.Serves r.path code content) :
    Connection.fileTexts (r.makeResponse fs).1 = .ok [content] ∧
      ∃ f : Frame, f.Splits ((r.makeResponse fs).2.1.flatten ++ content) ∧ f.Shows code content := by
  obtain ⟨status, hstatus⟩ := shownPage_status fs r.path
  rw [hserves.status] at hstatus
  have hfound := found_ok h hjs hserves
  obtain ⟨hfile, htext⟩ := content_mapped hfound hserves.holds
  have hwhole : ∀ line, ((r.findFile fs).1.errorHtml fs).1.addHeader.flatten ++
      ((((r.findFile fs).1.errorHtml fs).1.addContent fs).2.1.flatten ++ [content].flatten) =
        lines 13 10 (((r.findFile fs).1.errorHtml fs).1.frame line content).headers ++
          (crlf ++ content) := by
    intro line
    rw [htext, List.flatten_singleton]
    exact header_text hfound.js line content
  obtain ⟨hmake, f, hsplits, hshows, -⟩ := makeResponse_frame rfl hfound.code hstatus hfile hwhole
  rw [List.flatten_singleton] at hsplits
  exact ⟨hmake, f, hsplits, hshows⟩

theorem errorHtml_code (fs : FileSystem) (r : HttpResponse) : (r.errorHtml fs).1.code = r.code := by
  unfold errorHtml
  split <;> rfl

theorem makeResponse_json {r : HttpResponse} (h : r.Fresh) (hjs : r.isJs = true) (fs : FileSystem) :
    Connection.fileTexts (r.makeResponse fs).1 = .ok [] ∧
      ∃ f : Frame, f.Splits (r.makeResponse fs).2.1.flatten ∧
        f.Shows (shownPage fs r.path).1 (jsonBody r.isJsSuccess) ∧
        bytes "Content-Type: application/json; charset=utf-8" ∈ f.headers := by
  obtain ⟨status, hstatus⟩ := shownPage_status fs r.path
  have hflags := (findFile_flags fs r).trans (errorHtml_flags fs _)
  have hmm : ((r.findFile fs).1.errorHtml fs).1.mmFile = none := by
    rw [errorHtml_mmFile, findFile_mmFile, h.mmFile]
  have hcode : ((r.findFile fs).1.errorHtml fs).1.code = (shownPage fs r.path).1 := by
    rw [errorHtml_code, findFile_eq h]
  rw [← hflags.success]
  rw [← hflags.js] at hjs
  generalize hr : ((r.findFile fs).1.errorHtml fs).1 = r₁ at *
  have hcontent : r₁.addContent fs = (r₁, [jsonBody r₁.isJsSuccess], []) := if_pos hjs
  have hfile : Connection.fileTexts (r₁.addContent fs).1 = .ok [] := by
    rw [hcontent, Connection.fileTexts, hmm]
  have hwhole : ∀ line, r₁.addHeader.flatten ++
      ((r₁.addContent fs).2.1.flatten ++ ([] : List Bytes).flatten) =
        lines 13 10 (r₁.frame line (jsonBody r₁.isJsSuccess)).headers ++
          (crlf ++ jsonBody r₁.isJsSuccess) := by
    intro line
    rw [hcontent, List.flatten_singleton, List.flatten_nil, List.append_nil]
    exact json_text hjs line _ rfl
  obtain ⟨hmake, f, hsplits, hshows, htype⟩ := makeResponse_frame hr hcode hstatus hfile hwhole
  rw [List.flatten_nil, List.append_nil] at hsplits
  rw [typeLine, if_pos hjs] at htype
  exact ⟨hmake, f, hsplits, hshows, htype⟩

end HttpResponse

-- ---------------------------------------------------------------------------
-- The answer to a request
-- ---------------------------------------------------------------------------

theorem initResponse_fresh_path (rq : HttpRequest) (fs : FileSystem) :
    (initResponse rq .new).1.Fresh ∧
      (initResponse rq .new).1.path = (Connection.exchange rq fs).path := by
  unfold initResponse Connection.exchange
  split <;> exact ⟨⟨rfl, rfl, rfl⟩, rfl⟩

structure Parts.Describes (p : Parts) (svc : Services) (rq : HttpRequest) : Prop where
  asked : ∀ fs, (Connection.exchange rq fs).path = p.asked svc.json
  success : rq.isSuccessJs = true ↔ p.Succeeds svc
  download : rq.isDownload = false

/-- A frame that answers the request: with the page it asks for, if there is one. A form
that succeeds is told that name or password are wrong, as the flags of the request get to
the response in another order. -/
structure Parts.Answer (p : Parts) (svc : Services) (fs : FileSystem) (f : Frame) : Prop where
  page : ¬p.Succeeds svc → ∀ code content, fs.Serves (p.asked svc.json) code content →
    f.Shows code content
  success : p.Succeeds svc → f.Shows (shownPage fs p.path).1 (HttpResponse.jsonBody false) ∧
    bytes "Content-Type: application/json; charset=utf-8" ∈ f.headers

theorem Parts.Succeeds.asked {p : Parts} (h : p.Succeeds svc)
    (json : Bytes → Option (Bytes → Option Bytes)) :
    p.asked json = p.path := by
  have hpath : contains p.path (bytes "/download") = false := by
    rcases h.2.1 with hpath | hpath
    · rw [hpath]
      decide
    · rw [hpath]
      decide
  rw [Parts.asked, if_neg]
  simp [hpath]

theorem Parts.Describes.answer {p : Parts} {rq : HttpRequest} {f : Frame} (h : p.Describes svc rq)
    (hf : f.Splits (rq.answer fs)) : p.Answer svc fs f := by
  obtain ⟨hfresh, hpath⟩ := initResponse_fresh_path rq fs
  rw [h.asked fs] at hpath
  obtain ⟨-, hjs, hsuccess, -⟩ := Connection.initResponse_flags rq .new
  constructor
  · intro hno code content hserves
    have hnojs : (initResponse rq .new).1.isJs = false :=
      hjs.trans (Bool.eq_false_iff.mpr (mt h.success.mp hno))
    rw [← hpath] at hserves
    obtain ⟨hfile, f', hsplits, hshows⟩ := HttpResponse.makeResponse_serves hfresh hnojs hserves
    rw [HttpRequest.answer_eq hfile, List.flatten_singleton] at hf
    exact hf.unique hsplits ▸ hshows
  · intro hyes
    obtain ⟨hfile, f', hsplits, hshows, htype⟩ :=
      HttpResponse.makeResponse_json hfresh (hjs.trans (h.success.mpr hyes)) fs
    rw [HttpRequest.answer_eq hfile, List.flatten_nil, List.append_nil] at hf
    rw [hsuccess, h.download, hpath, hyes.asked] at hshows
    obtain rfl := hf.unique hsplits
    exact ⟨hshows, htype⟩

def SessionEvent.message : SessionEvent → Option (Delivery × FileSystem)
  | .drained reads svc fs => some ({ chunk := gathered reads, services := svc }, fs)
  | .closed _ _ _ | .writecallback _ => none

namespace Session

end Session

end MudouHttp
