import MudouHttp.Http.Answers

/-!
# How a response is framed

What `MakeResponse` appends, with the mapped file behind it, always splits into
a status line, three header lines, a blank line and a body as long as the
length header says. Of a download the second header line carries two headers
and none is named `Content-type`: `framed_iff`.
-/

namespace MudouHttp

open Lib (Line lines)

-- ---------------------------------------------------------------------------
-- Header lines
-- ---------------------------------------------------------------------------

def headerName (line : Bytes) : Bytes := (line.takeWhile (· ≠ chr ':')).map tolower

def headerValue (line : Bytes) : Bytes := (line.dropWhile (· ≠ chr ':')).drop 2

def CarriesOne (line : Bytes) : Prop :=
  ∃ name value, line = name ++ (bytes ": " ++ value) ∧ name ≠ [] ∧ chr ':' ∉ name ∧
    ¬bytes ": " <:+: value

theorem upTo_colon (hname : chr ':' ∉ name) (value : Bytes) :
    (name ++ (bytes ": " ++ value)).takeWhile (· ≠ chr ':') = name ∧
      (name ++ (bytes ": " ++ value)).dropWhile (· ≠ chr ':') = bytes ": " ++ value := by
  have hall : ∀ c ∈ name, decide (c ≠ chr ':') = true :=
    fun c hc => decide_eq_true fun heq => hname (heq ▸ hc)
  rw [List.takeWhile_append_of_pos hall, List.dropWhile_append_of_pos hall]
  exact ⟨List.append_nil _, rfl⟩

theorem headerName_eq (hname : chr ':' ∉ name) (value : Bytes) :
    headerName (name ++ (bytes ": " ++ value)) = name.map tolower := by
  rw [headerName, (upTo_colon hname value).1]

theorem headerValue_eq (hname : chr ':' ∉ name) (value : Bytes) :
    headerValue (name ++ (bytes ": " ++ value)) = value := by
  rw [headerValue, (upTo_colon hname value).2]
  rfl

theorem CarriesOne.of_notMem (hne : name ≠ []) (hname : chr ':' ∉ name)
    (hvalue : chr ':' ∉ value) : CarriesOne (name ++ (bytes ": " ++ value)) :=
  ⟨name, value, rfl, hne, hname, fun hin => hvalue (hin.subset List.mem_cons_self)⟩

theorem digits_noSep (n : Nat) : (13 : UInt8) ∉ bytes (toString n) ∧ chr ':' ∉ bytes (toString n) :=
  ⟨fun h => absurd (decimal_digits n _ h).1 (by decide),
    fun h => absurd (decimal_digits n _ h).2 (by decide)⟩

-- ---------------------------------------------------------------------------
-- Frames
-- ---------------------------------------------------------------------------

structure Frame where
  statusLine : Bytes
  headers : List Bytes
  body : Bytes

namespace Frame

/-- Split at CRLF up to the blank line, the bytes are this frame. -/
structure Splits (f : Frame) (wire : Bytes) : Prop where
  text : wire = lines 13 10 (f.statusLine :: f.headers) ++ (crlf ++ f.body)
  statusLine : Line 13 10 f.statusLine
  headers : ∀ line ∈ f.headers, Line 13 10 line ∧ line ≠ []

theorem Splits.unique {f f' : Frame} (h : f.Splits wire) (h' : f'.Splits wire) : f = f' := by
  have htext := h.text.symm.trans h'.text
  rw [Lib.lines_cons, Lib.lines_cons] at htext
  obtain ⟨hstatus, htext⟩ := Line.inj (by decide) h.statusLine h'.statusLine htext
  obtain ⟨hheaders, hbody⟩ : f.headers = f'.headers ∧ f.body = f'.body :=
    Lib.lines_inj (by decide) h.headers h'.headers htext
  cases f
  cases f'
  exact (Frame.mk.injEq ..).mpr ⟨hstatus, hheaders, hbody⟩

def named (f : Frame) (name : Bytes) : List Bytes := f.headers.filter fun line => headerName line = name

structure Correct (f : Frame) : Prop where
  statusLine : ∃ code status, HttpResponse.codeStatus code = some status ∧
    f.statusLine = bytes "HTTP/1.1 " ++ bytes (toString code) ++ bytes " " ++ status
  headers : ∀ line ∈ f.headers, CarriesOne line
  connection : (f.named (bytes "connection")).length = 1
  contentType : (f.named (bytes "content-type")).length = 1
  contentLength : (f.named (bytes "content-length")).map headerValue = [bytes (toString f.body.length)]

end Frame

def CorrectlyFramed (wire : Bytes) : Prop := ∃ f : Frame, f.Splits wire ∧ f.Correct

theorem Frame.Splits.correctlyFramed_iff {f : Frame} (h : f.Splits wire) :
    CorrectlyFramed wire ↔ f.Correct := by
  constructor
  · rintro ⟨f', hsplits, hcorrect⟩
    exact h.unique hsplits ▸ hcorrect
  · exact fun hcorrect => ⟨f, h, hcorrect⟩

-- ---------------------------------------------------------------------------
-- The three header lines
-- ---------------------------------------------------------------------------

theorem hexDigit_noCr (c : UInt8) : hexDigit (c / 16) ≠ 13 ∧ hexDigit (c % 16) ≠ 13 := by
  have hall : ∀ n : Fin 256, hexDigit (UInt8.ofNat n / 16) ≠ 13 ∧ hexDigit (UInt8.ofNat n % 16) ≠ 13 := by
    decide +kernel
  have hc := hall ⟨c.toNat, c.toNat_lt⟩
  rwa [UInt8.ofNat_toNat] at hc

theorem urlEncode_noCr (s : Bytes) : (13 : UInt8) ∉ urlEncode s := by
  intro hmem
  obtain ⟨c, -, hc⟩ := List.mem_flatMap.mp hmem
  by_cases hun : unreserved c = true
  · rw [if_pos hun, List.mem_singleton] at hc
    rw [← hc] at hun
    exact absurd hun (by decide)
  · obtain ⟨hhigh, hlow⟩ := hexDigit_noCr c
    have hpercent : (13 : UInt8) ≠ chr '%' := by decide
    rw [if_neg hun] at hc
    simp only [List.mem_cons, hpercent, hhigh.symm, hlow.symm, List.not_mem_nil, or_self] at hc

namespace HttpResponse

def connectionLine (r : HttpResponse) : Bytes :=
  bytes (if r.isKeepAlive then "Connection: keep-alive" else "Connection: close")

def typeLine (r : HttpResponse) : Bytes :=
  if r.isJs then bytes "Content-Type: application/json; charset=utf-8"
  else
    (if r.isDownload then
      bytes "Content_Disposition: attachment; filename*=UTF-8''" ++ (urlEncode r.path ++ bytes "/r/n")
      else []) ++ (bytes "Content-type: " ++ r.getFileType)

def lengthLine (r : HttpResponse) (n : Nat) : Bytes :=
  bytes (if r.isJs then "Content-Length" else "Content-length") ++ (bytes ": " ++ bytes (toString n))

theorem getFileType_mem (r : HttpResponse) :
    r.getFileType ∈ bytes "text/plain" :: suffixTypes.map Prod.snd := by
  have hlookup : ∀ suffix, (suffixType suffix).getD (bytes "text/plain") ∈
      bytes "text/plain" :: suffixTypes.map Prod.snd := by
    intro suffix
    cases h : suffixType suffix with
    | none => exact List.mem_cons_self
    | some type =>
      obtain ⟨before, after, hsplit, -⟩ := List.lookup_eq_some_iff.mp h
      refine List.mem_cons_of_mem _ (List.mem_map.mpr ⟨(suffix, type), ?_, rfl⟩)
      rw [hsplit]
      exact List.mem_append_right _ List.mem_cons_self
  unfold getFileType
  dsimp only
  split
  · exact List.mem_cons_self
  · exact hlookup _

theorem getFileType_noSep (r : HttpResponse) :
    (13 : UInt8) ∉ r.getFileType ∧ chr ':' ∉ r.getFileType := by
  have hall : ∀ type ∈ bytes "text/plain" :: suffixTypes.map Prod.snd,
      (13 : UInt8) ∉ type ∧ chr ':' ∉ type := by
    decide +kernel
  exact hall _ (getFileType_mem r)

theorem errorContent_text (r : HttpResponse) (message : Bytes) :
    ∃ body, (r.errorContent message).flatten =
      bytes "Content-length: " ++ bytes (toString body.length) ++ bytes "\r\n\r\n" ++ body := by
  unfold errorContent
  exact ⟨_, by rw [List.flatten_cons, List.flatten_singleton]⟩

/-- Whether the file is mapped or not, as many bytes follow as are announced. -/
theorem addContent_text (fs : FileSystem) {r : HttpResponse} (h : r.mmFile = none)
    (hjs : r.isJs = false) :
    ∃ file body, Connection.fileTexts (r.addContent fs).1 = .ok file ∧
      (r.addContent fs).2.1.flatten ++ file.flatten =
        bytes "Content-length: " ++ bytes (toString body.length) ++ bytes "\r\n\r\n" ++ body := by
  have hnone : Connection.fileTexts r = .ok [] := by
    rw [Connection.fileTexts, h]
  have herror : ∀ message, ∃ file body, Connection.fileTexts r = .ok file ∧
      (r.errorContent message).flatten ++ file.flatten =
        bytes "Content-length: " ++ bytes (toString body.length) ++ bytes "\r\n\r\n" ++ body := by
    intro message
    obtain ⟨body, hbody⟩ := errorContent_text r message
    exact ⟨[], body, hnone, (List.append_nil _).trans hbody⟩
  unfold addContent
  rw [hjs]
  simp only [Bool.false_eq_true, if_false]
  split
  · exact herror _
  · split
    · exact herror _
    · rename_i address file _
      refine ⟨[List.ofFn file], List.ofFn file, ?_, ?_⟩
      · simp only [Connection.fileTexts, List.length_ofFn, Nat.le_refl, if_true, List.take_of_length_le]
      · rw [List.length_ofFn, List.flatten_singleton, List.flatten_singleton]

theorem content_text (fs : FileSystem) {r : HttpResponse} (h : r.mmFile = none) :
    ∃ file body, Connection.fileTexts (r.addContent fs).1 = .ok file ∧
      r.addHeader.flatten ++ ((r.addContent fs).2.1.flatten ++ file.flatten) =
        lines 13 10 [r.connectionLine, r.typeLine, r.lengthLine body.length] ++ (crlf ++ body) := by
  have hconnection : ∀ rest, ([bytes "Connection: ", bytes (if r.isKeepAlive then "keep-alive\r\n" else
      "close\r\n")] ++ rest).flatten = r.connectionLine ++ (crlf ++ rest.flatten) := by
    intro rest
    unfold connectionLine
    cases r.isKeepAlive <;> rfl
  have hlines : ∀ a b c body : Bytes, lines 13 10 [a, b, c] ++ (crlf ++ body) =
      a ++ (crlf ++ (b ++ (crlf ++ (c ++ (crlf ++ (crlf ++ body)))))) := by
    intro a b c body
    rw [Lib.lines_cons, Lib.lines_cons, Lib.lines_cons]
    rfl
  have hend : bytes "\r\n" = crlf := by decide
  have hblank : bytes "\r\n\r\n" = crlf ++ crlf := by decide
  have hjson : bytes "Content-Type: application/json; charset=utf-8\r\n" =
      bytes "Content-Type: application/json; charset=utf-8" ++ crlf := by decide
  have hlength : bytes "Content-Length: " = bytes "Content-Length" ++ bytes ": " := by decide
  have hlength' : bytes "Content-length: " = bytes "Content-length" ++ bytes ": " := by decide
  cases hjs : r.isJs with
  | true =>
    refine ⟨[], jsonBody r.isJsSuccess, ?_, ?_⟩
    · rw [addContent, if_pos hjs, Connection.fileTexts, h]
    · rw [addContent, if_pos hjs, hlines, addHeader, hconnection]
      simp only [contentHeader, typeLine, lengthLine, hjs, if_true, hend, hjson, hlength,
        List.flatten_cons, List.flatten_nil, List.append_nil, List.append_assoc]
  | false =>
    obtain ⟨file, body, hfile, htext⟩ := addContent_text fs h hjs
    refine ⟨file, body, hfile, ?_⟩
    rw [htext, hlines, addHeader, hconnection]
    cases hd : r.isDownload with
    | true =>
      simp only [contentHeader, typeLine, lengthLine, hjs, hd, Bool.false_eq_true, if_false, if_true,
        hend, hblank, hlength', List.flatten_append, List.flatten_cons, List.flatten_nil,
        List.append_nil, List.append_assoc]
    | false =>
      simp only [contentHeader, typeLine, lengthLine, hjs, hd, Bool.false_eq_true, if_false, hend,
        hblank, hlength', List.flatten_cons, List.flatten_nil, List.append_nil, List.nil_append,
        List.append_assoc]

theorem connectionLine_ok (r : HttpResponse) :
    (13 : UInt8) ∉ r.connectionLine ∧ r.connectionLine ≠ [] ∧ CarriesOne r.connectionLine ∧
      headerName r.connectionLine = bytes "connection" := by
  have hvalue : ∃ value, r.connectionLine = bytes "Connection" ++ (bytes ": " ++ value) ∧
      (13 : UInt8) ∉ r.connectionLine ∧ chr ':' ∉ value := by
    unfold connectionLine
    cases r.isKeepAlive
    · exact ⟨bytes "close", by decide⟩
    · exact ⟨bytes "keep-alive", by decide⟩
  obtain ⟨value, heq, hcr, hcolon⟩ := hvalue
  refine ⟨hcr, ?_⟩
  rw [heq]
  exact ⟨by simp [bytes], .of_notMem (by decide) (by decide) hcolon, headerName_eq (by decide) value⟩

theorem lengthLine_ok (r : HttpResponse) (n : Nat) :
    (13 : UInt8) ∉ r.lengthLine n ∧ r.lengthLine n ≠ [] ∧ CarriesOne (r.lengthLine n) ∧
      headerName (r.lengthLine n) = bytes "content-length" ∧
      headerValue (r.lengthLine n) = bytes (toString n) := by
  obtain ⟨hcr, hcolon⟩ := digits_noSep n
  have hname : ∀ js : Bool, (13 : UInt8) ∉ bytes (if js then "Content-Length" else "Content-length") ∧
      bytes (if js then "Content-Length" else "Content-length") ≠ [] ∧
      chr ':' ∉ bytes (if js then "Content-Length" else "Content-length") ∧
      (bytes (if js then "Content-Length" else "Content-length")).map tolower =
        bytes "content-length" := by
    decide
  obtain ⟨hnameCr, hne, hnameColon, hlower⟩ := hname r.isJs
  unfold lengthLine
  refine ⟨?_, fun hnil => hne (List.append_eq_nil_iff.mp hnil).1, .of_notMem hne hnameColon hcolon,
    (headerName_eq hnameColon _).trans hlower, headerValue_eq hnameColon _⟩
  have hcolonCr : (13 : UInt8) ∉ bytes ": " := by decide
  simp only [List.mem_append, hnameCr, hcolonCr, hcr, or_self, not_false_eq_true]

/-- Of a download it is not named `Content-type`. -/
theorem typeLine_ok (r : HttpResponse) :
    (13 : UInt8) ∉ r.typeLine ∧ r.typeLine ≠ [] ∧
      if r.isJs = true ∨ r.isDownload = false then
        CarriesOne r.typeLine ∧ headerName r.typeLine = bytes "content-type"
      else headerName r.typeLine = bytes "content_disposition" := by
  obtain ⟨htypeCr, htypeColon⟩ := getFileType_noSep r
  have hname : bytes "Content-type: " = bytes "Content-type" ++ bytes ": " := by decide
  have hnameCr : (13 : UInt8) ∉ bytes "Content-type: " := by decide
  unfold typeLine
  cases hjs : r.isJs with
  | true =>
    have heq : bytes "Content-Type: application/json; charset=utf-8" =
        bytes "Content-Type" ++ (bytes ": " ++ bytes "application/json; charset=utf-8") := by decide
    simp only [if_true, true_or]
    exact ⟨by decide, by decide, heq ▸ .of_notMem (by decide) (by decide) (by decide), by decide⟩
  | false =>
    cases hd : r.isDownload with
    | true =>
      have heq : bytes "Content_Disposition: attachment; filename*=UTF-8''" =
          bytes "Content_Disposition" ++ (bytes ": " ++ bytes "attachment; filename*=UTF-8''") := by
        decide
      have hstart : (13 : UInt8) ∉ bytes "Content_Disposition: attachment; filename*=UTF-8''" := by
        decide
      have hend : (13 : UInt8) ∉ bytes "/r/n" := by decide
      have hurl := urlEncode_noCr r.path
      simp only [if_true, Bool.false_eq_true, Bool.true_eq_false, or_self, if_false]
      refine ⟨?_, ?_, ?_⟩
      · simp only [List.mem_append, hstart, hurl, hend, hnameCr, htypeCr, or_self, not_false_eq_true]
      · simp [bytes]
      · rw [heq]
        simp only [List.append_assoc]
        exact headerName_eq (by decide) _
    | false =>
      simp only [Bool.false_eq_true, if_false, List.nil_append, or_true, if_true]
      refine ⟨?_, by simp [bytes], ?_⟩
      · simp only [List.mem_append, hnameCr, htypeCr, or_self, not_false_eq_true]
      · rw [hname, List.append_assoc]
        exact ⟨.of_notMem (by decide) (by decide) htypeColon, headerName_eq (by decide) _⟩

def frame (r : HttpResponse) (statusLine body : Bytes) : Frame :=
  { statusLine := statusLine
    headers := [r.connectionLine, r.typeLine, r.lengthLine body.length]
    body := body }

theorem frame_splits (r : HttpResponse) (hstatus : 13 ∉ statusLine) (body : Bytes) :
    (r.frame statusLine body).Splits
      (statusLine ++ (crlf ++ (lines 13 10 (r.frame statusLine body).headers ++ (crlf ++ body)))) := by
  refine ⟨(Lib.lines_cons ..).symm, .of_notMem hstatus, fun line hmem => ?_⟩
  simp only [frame, List.mem_cons, List.not_mem_nil, or_false] at hmem
  rcases hmem with rfl | rfl | rfl
  · exact ⟨.of_notMem (connectionLine_ok r).1, (connectionLine_ok r).2.1⟩
  · exact ⟨.of_notMem (typeLine_ok r).1, (typeLine_ok r).2.1⟩
  · exact ⟨.of_notMem (lengthLine_ok r _).1, (lengthLine_ok r _).2.1⟩

theorem frame_correct_iff {code : Int} (r : HttpResponse) (hcode : codeStatus code = some status)
    (body : Bytes) :
    (r.frame (bytes "HTTP/1.1 " ++ bytes (toString code) ++ bytes " " ++ status) body).Correct ↔
      r.isJs = true ∨ r.isDownload = false := by
  obtain ⟨-, -, hone, hconnection⟩ := connectionLine_ok r
  obtain ⟨-, -, htype⟩ := typeLine_ok r
  obtain ⟨-, -, hone', hlength, hvalue⟩ := lengthLine_ok r body.length
  have hnamed : ∀ statusLine name, (r.frame statusLine body).named name =
      (if bytes "connection" = name then [r.connectionLine] else []) ++
        ((if headerName r.typeLine = name then [r.typeLine] else []) ++
          if bytes "content-length" = name then [r.lengthLine body.length] else []) := by
    intro statusLine name
    unfold Frame.named frame
    simp only [List.filter_cons, List.filter_nil, hconnection, hlength, decide_eq_true_eq]
    split_ifs <;> rfl
  constructor
  · intro hcorrect
    by_contra hnot
    rw [if_neg hnot] at htype
    have htypes := hcorrect.contentType
    have hconnection' : bytes "connection" ≠ bytes "content-type" := by decide
    have hdisposition : bytes "content_disposition" ≠ bytes "content-type" := by decide
    have hlength' : bytes "content-length" ≠ bytes "content-type" := by decide
    rw [hnamed, htype, if_neg hconnection', if_neg hdisposition, if_neg hlength'] at htypes
    cases htypes
  · intro hkind
    rw [if_pos hkind] at htype
    obtain ⟨hone'', htype⟩ := htype
    refine ⟨⟨code, status, hcode, rfl⟩, fun line hmem => ?_, ?_, ?_, ?_⟩
    · simp only [frame, List.mem_cons, List.not_mem_nil, or_false] at hmem
      rcases hmem with rfl | rfl | rfl
      · exact hone
      · exact hone''
      · exact hone'
    · rw [hnamed, htype]
      rfl
    · rw [hnamed, htype]
      rfl
    · rw [hnamed, htype]
      exact congrArg (fun value => [value]) hvalue

theorem makeResponse_splits (fs : FileSystem) {r : HttpResponse} (h : r.mmFile = none) :
    ∃ file r₁ code status body, SameFlags r r₁ ∧
      Connection.fileTexts (r.makeResponse fs).1 = .ok file ∧ codeStatus code = some status ∧
      (r₁.frame (bytes "HTTP/1.1 " ++ bytes (toString code) ++ bytes " " ++ status) body).Splits
        ((r.makeResponse fs).2.1.flatten ++ file.flatten) := by
  have hflags := (findFile_flags fs r).trans <| (errorHtml_flags fs _).trans <| addStateLine_flags _
  have hmap : ((r.findFile fs).1.errorHtml fs).1.addStateLine.1.mmFile = none := by
    rw [addStateLine_mmFile, errorHtml_mmFile, findFile_mmFile, h]
  obtain ⟨code, status, hstatus, hline⟩ := addStateLine_ok ((r.findFile fs).1.errorHtml fs).1
  obtain ⟨file, body, hfile, htext⟩ := content_text fs hmap
  refine ⟨file, _, code, status, body, hflags, hfile, hstatus, ?_⟩
  have htexts : (r.makeResponse fs).2.1 =
      ((r.findFile fs).1.errorHtml fs).1.addStateLine.2 ++
        ((r.findFile fs).1.errorHtml fs).1.addStateLine.1.addHeader ++
          (((r.findFile fs).1.errorHtml fs).1.addStateLine.1.addContent fs).2.1 := rfl
  have hcr := statusLine_noCr hstatus
  generalize bytes "HTTP/1.1 " ++ bytes (toString code) ++ bytes " " ++ status = line at hline hcr ⊢
  rw [htexts, List.flatten_append, List.flatten_append, hline]
  simp only [List.append_assoc]
  rw [htext]
  exact frame_splits _ hcr body

/-- For every path, flags and outcomes of the file system's calls: the response is
framed as it should be exactly if it is no download, or JSON. -/
theorem framed_iff (fs : FileSystem) (r : HttpResponse) (srcDir path : Bytes)
    (isKeepAlive isJs isJsSuccess isDownload : Bool) (code : Int) :
    ∃ file, Connection.fileTexts
        ((r.init srcDir path isKeepAlive isJs isJsSuccess isDownload code).1.makeResponse fs).1 =
          .ok file ∧
      (CorrectlyFramed
        (((r.init srcDir path isKeepAlive isJs isJsSuccess isDownload code).1.makeResponse fs).2.1.flatten
          ++ file.flatten) ↔ isJs = true ∨ isDownload = false) := by
  obtain ⟨file, r₁, code₁, status, body, hflags, hfile, hcode, hsplits⟩ := makeResponse_splits fs
    (r := (r.init srcDir path isKeepAlive isJs isJsSuccess isDownload code).1) rfl
  refine ⟨file, hfile, ?_⟩
  rw [hsplits.correctlyFramed_iff, frame_correct_iff r₁ hcode, hflags.js, hflags.download]
  rfl

/-- Between the file name and the next header stands `/r/n`, which is no CRLF. -/
theorem download_header_glued :
    let r := ((new.init (bytes "./html") (bytes "/a.txt") true false false true (-1)).1.makeResponse
      Connection.everyFile)
    ∃ file, Connection.fileTexts r.1 = .ok file ∧
      r.2.1.flatten ++ file.flatten = bytes ("HTTP/1.1 200 OK\r\nConnection: keep-alive\r\n" ++
        "Content_Disposition: attachment; filename*=UTF-8''%2Fa.txt/r/nContent-type: text/plain\r\n" ++
        "Content-length: 2\r\n\r\nAA") ∧
      ¬CorrectlyFramed (r.2.1.flatten ++ file.flatten) := by
  intro r
  obtain ⟨file, r₁, code, status, body, hflags, hfile, hcode, hsplits⟩ := makeResponse_splits
    Connection.everyFile (r := (new.init (bytes "./html") (bytes "/a.txt") true false false true (-1)).1) rfl
  refine ⟨file, hfile, ?_, ?_⟩
  · have hfile' : Connection.fileTexts r.1 = .ok [bytes "AA"] := by decide +kernel
    obtain rfl := Except.ok.inj (hfile.symm.trans hfile')
    decide +kernel
  · rw [hsplits.correctlyFramed_iff, frame_correct_iff r₁ hcode, hflags.js, hflags.download]
    decide

end HttpResponse

end MudouHttp
