import MudouHttp.Http.Response
import MudouHttp.Lib.Lines

/-!
# What MakeResponse writes

The four flags are what `Init` made them (`makeResponse_flags`), and the
response says what they say: its second line whether the connection is kept
alive, its third whether the body is JSON (`saysKeepAlive_iff`,
`sendsJson_iff`).
-/

namespace MudouHttp

-- ---------------------------------------------------------------------------
-- The wire
-- ---------------------------------------------------------------------------

/-- The line after the status line. -/
def SaysKeepAlive (wire : Bytes) : Prop :=
  ∃ status rest, 13 ∉ status ∧
    wire = status ++ (crlf ++ (bytes "Connection: keep-alive" ++ (crlf ++ rest)))

/-- The line after that. -/
def SendsJson (wire : Bytes) : Prop :=
  ∃ status connection rest, 13 ∉ status ∧ 13 ∉ connection ∧
    wire = status ++ (crlf ++ (connection ++ (crlf ++ (bytes "Content-Type: application/json" ++ rest))))

def SaysSuccess (wire : Bytes) : Prop := SendsJson wire ∧ HttpResponse.jsonBody true <:+ wire

theorem first_line_inj (hs : 13 ∉ s) (ht : 13 ∉ t) (h : s ++ (crlf ++ rest) = t ++ (crlf ++ rest')) :
    s = t ∧ rest = rest' :=
  Lib.Line.inj (by decide) (.of_notMem hs) (.of_notMem ht) h

namespace HttpResponse

-- ---------------------------------------------------------------------------
-- The flags
-- ---------------------------------------------------------------------------

structure SameFlags (r r' : HttpResponse) : Prop where
  keepAlive : r'.isKeepAlive = r.isKeepAlive
  js : r'.isJs = r.isJs
  success : r'.isJsSuccess = r.isJsSuccess
  download : r'.isDownload = r.isDownload

theorem SameFlags.trans (h : SameFlags r r₁) (h' : SameFlags r₁ r₂) : SameFlags r r₂ :=
  { keepAlive := h'.keepAlive.trans h.keepAlive
    js := h'.js.trans h.js
    success := h'.success.trans h.success
    download := h'.download.trans h.download }

theorem findFile_flags (fs : FileSystem) (r : HttpResponse) : SameFlags r (r.findFile fs).1 := by
  unfold findFile
  split
  · exact ⟨rfl, rfl, rfl, rfl⟩
  · dsimp only
    split
    · exact ⟨rfl, rfl, rfl, rfl⟩
    · split
      · exact ⟨rfl, rfl, rfl, rfl⟩
      · split <;> exact ⟨rfl, rfl, rfl, rfl⟩

theorem errorHtml_flags (fs : FileSystem) (r : HttpResponse) : SameFlags r (r.errorHtml fs).1 := by
  unfold errorHtml
  split <;> exact ⟨rfl, rfl, rfl, rfl⟩

theorem addStateLine_flags (r : HttpResponse) : SameFlags r r.addStateLine.1 := by
  unfold addStateLine
  cases codeStatus r.code <;> exact ⟨rfl, rfl, rfl, rfl⟩

theorem codeStatus_noCr (code : Int) (status : Bytes) (h : codeStatus code = some status) :
    (13 : UInt8) ∉ bytes (toString code) ∧ (13 : UInt8) ∉ status := by
  unfold codeStatus at h
  split at h
  · cases h; decide
  · cases h; decide
  · cases h; decide
  · cases h; decide
  · cases h

/-- A code without a text becomes 400. -/
theorem addStateLine_ok (r : HttpResponse) :
    ∃ code status, codeStatus code = some status ∧ r.addStateLine.2.flatten =
      bytes "HTTP/1.1 " ++ bytes (toString code) ++ bytes " " ++ status ++ crlf := by
  unfold addStateLine
  cases h : codeStatus r.code with
  | some status => exact ⟨r.code, status, h, List.append_nil _⟩
  | none => exact ⟨400, bytes "Bad Request", rfl, List.append_nil _⟩

theorem statusLine_noCr {code : Int} (h : codeStatus code = some status) :
    (13 : UInt8) ∉ bytes "HTTP/1.1 " ++ bytes (toString code) ++ bytes " " ++ status := by
  obtain ⟨hcode, hstatus⟩ := codeStatus_noCr code status h
  have hversion : (13 : UInt8) ∉ bytes "HTTP/1.1 " := by decide
  have hspace : (13 : UInt8) ∉ bytes " " := by decide
  simp only [List.mem_append, hversion, hcode, hspace, hstatus, or_self, not_false_eq_true]

theorem addStateLine_text (r : HttpResponse) :
    ∃ status, 13 ∉ status ∧ r.addStateLine.2.flatten = status ++ crlf := by
  obtain ⟨code, status, hstatus, hline⟩ := addStateLine_ok r
  exact ⟨_, statusLine_noCr hstatus, hline⟩

theorem addContent_flags (fs : FileSystem) (r : HttpResponse) :
    SameFlags r (r.addContent fs).1 := by
  unfold addContent
  split
  · exact ⟨rfl, rfl, rfl, rfl⟩
  · split
    · exact ⟨rfl, rfl, rfl, rfl⟩
    · dsimp only
      split <;> exact ⟨rfl, rfl, rfl, rfl⟩

theorem makeResponse_flags (fs : FileSystem) (r : HttpResponse) :
    SameFlags r (r.makeResponse fs).1 :=
  (findFile_flags fs r).trans <| (errorHtml_flags fs _).trans <|
    (addStateLine_flags _).trans (addContent_flags fs _)

-- ---------------------------------------------------------------------------
-- The file
-- ---------------------------------------------------------------------------

/-- A mapped file is `FileLen()` bytes long. -/
def FileFits (r : HttpResponse) : Prop :=
  ∀ mapping, r.mmFile = some mapping → mapping.bytes.length = r.mmFileStat.size

theorem findFile_mmFile (fs : FileSystem) (r : HttpResponse) :
    (r.findFile fs).1.mmFile = r.mmFile := by
  unfold findFile
  split
  · rfl
  · dsimp only
    split
    · rfl
    · split
      · rfl
      · split <;> rfl

theorem errorHtml_mmFile (fs : FileSystem) (r : HttpResponse) :
    (r.errorHtml fs).1.mmFile = r.mmFile := by
  unfold errorHtml
  split <;> rfl

theorem addStateLine_mmFile (r : HttpResponse) : r.addStateLine.1.mmFile = r.mmFile := by
  unfold addStateLine
  cases codeStatus r.code <;> rfl

theorem addContent_file (fs : FileSystem) {r : HttpResponse} (h : r.mmFile = none) :
    FileFits (r.addContent fs).1 := by
  have hnone : FileFits r := fun mapping hm => absurd (h.symm.trans hm) (Option.some_ne_none _).symm
  unfold addContent
  split
  · exact hnone
  · split
    · exact hnone
    · dsimp only
      split
      · exact hnone
      · intro mapping hm
        cases hm
        exact List.length_ofFn

theorem makeResponse_file (fs : FileSystem) {r : HttpResponse} (h : r.mmFile = none) :
    FileFits (r.makeResponse fs).1 := by
  have hmap : ((r.findFile fs).1.errorHtml fs).1.addStateLine.1.mmFile = none := by
    rw [addStateLine_mmFile, errorHtml_mmFile, findFile_mmFile, h]
  exact addContent_file fs hmap

-- ---------------------------------------------------------------------------
-- The texts
-- ---------------------------------------------------------------------------

/-- The line that tells the kinds of response apart starts like this. -/
def contentKind (r : HttpResponse) : Bytes :=
  if r.isJs then bytes "Content-Type: application/json; charset=utf-8\r\n"
  else if r.isDownload then bytes "Content_Disposition: attachment; filename*=UTF-8''"
  else bytes "Content-type: "

theorem contentHeader_text (r : HttpResponse) :
    ∃ rest, r.contentHeader.flatten = r.contentKind ++ rest := by
  unfold contentHeader contentKind
  split
  · exact ⟨_, List.flatten_cons⟩
  · split
    · exact ⟨_, by simp only [List.flatten_append, List.flatten_cons, List.append_assoc]; rfl⟩
    · exact ⟨_, by simp only [List.nil_append, List.flatten_cons, List.append_assoc]; rfl⟩

theorem addHeader_text (r : HttpResponse) :
    ∃ rest, r.addHeader.flatten =
      bytes (if r.isKeepAlive then "Connection: keep-alive" else "Connection: close") ++
        (crlf ++ (r.contentKind ++ rest)) := by
  have hconnection : bytes "Connection: " ++
      bytes (if r.isKeepAlive then "keep-alive\r\n" else "close\r\n") =
      bytes (if r.isKeepAlive then "Connection: keep-alive" else "Connection: close") ++ crlf := by
    cases r.isKeepAlive <;> decide
  obtain ⟨rest, hrest⟩ := contentHeader_text r
  refine ⟨rest, ?_⟩
  unfold addHeader
  rw [List.flatten_append, hrest, List.flatten_cons, List.flatten_singleton, hconnection,
    List.append_assoc]

theorem makeResponse_text (fs : FileSystem) (r : HttpResponse) :
    ∃ status rest, 13 ∉ status ∧ (r.makeResponse fs).2.1.flatten = status ++ (crlf ++
      (bytes (if r.isKeepAlive then "Connection: keep-alive" else "Connection: close") ++
        (crlf ++ (r.contentKind ++ rest)))) := by
  have hflags := (findFile_flags fs r).trans <| (errorHtml_flags fs _).trans <| addStateLine_flags _
  obtain ⟨status, hstatus, hline⟩ := addStateLine_text ((r.findFile fs).1.errorHtml fs).1
  obtain ⟨rest, hheader⟩ := addHeader_text ((r.findFile fs).1.errorHtml fs).1.addStateLine.1
  have hkind : ((r.findFile fs).1.errorHtml fs).1.addStateLine.1.contentKind = r.contentKind := by
    rw [contentKind, contentKind, hflags.js, hflags.download]
  rw [hflags.keepAlive, hkind] at hheader
  unfold makeResponse
  dsimp only
  generalize ((r.findFile fs).1.errorHtml fs).1.addStateLine.1.addContent fs = content
  refine ⟨status, rest ++ content.2.1.flatten, hstatus, ?_⟩
  rw [List.flatten_append, List.flatten_append, hline, hheader]
  simp only [List.append_assoc]

theorem connection_noCr (keepAlive : Bool) :
    (13 : UInt8) ∉ bytes (if keepAlive then "Connection: keep-alive" else "Connection: close") := by
  cases keepAlive <;> decide

theorem saysKeepAlive_iff (fs : FileSystem) (r : HttpResponse) (file : Bytes) :
    SaysKeepAlive ((r.makeResponse fs).2.1.flatten ++ file) ↔ r.isKeepAlive = true := by
  obtain ⟨status, rest, hstatus, htext⟩ := makeResponse_text fs r
  rw [htext]
  simp only [List.append_assoc]
  constructor
  · rintro ⟨status', rest', hstatus', h⟩
    obtain ⟨-, h⟩ := first_line_inj hstatus hstatus' h
    obtain ⟨hline, -⟩ := first_line_inj (connection_noCr _) (by decide) h
    cases hk : r.isKeepAlive with
    | true => rfl
    | false =>
      rw [hk] at hline
      exact absurd hline (by decide)
  · intro hk
    rw [hk]
    exact ⟨status, _, hstatus, rfl⟩

theorem sendsJson_iff (fs : FileSystem) (r : HttpResponse) (file : Bytes) :
    SendsJson ((r.makeResponse fs).2.1.flatten ++ file) ↔ r.isJs = true := by
  obtain ⟨status, rest, hstatus, htext⟩ := makeResponse_text fs r
  rw [htext]
  simp only [List.append_assoc]
  constructor
  · rintro ⟨status', connection, rest', hstatus', hconnection, h⟩
    obtain ⟨-, h⟩ := first_line_inj hstatus hstatus' h
    obtain ⟨-, h⟩ := first_line_inj (connection_noCr _) hconnection h
    cases hj : r.isJs with
    | true => rfl
    | false =>
      -- the two other kinds differ from it within nine bytes
      have hnine : r.contentKind.take 9 = (bytes "Content-Type: application/json").take 9 := by
        have hlong : 9 ≤ r.contentKind.length := by
          rw [contentKind, hj]
          cases r.isDownload <;> decide
        have htake := congrArg (List.take 9) h
        rwa [List.take_append_of_le_length hlong, List.take_append_of_le_length (by decide)] at htake
      rw [contentKind, hj] at hnine
      cases hd : r.isDownload with
      | true =>
        rw [hd] at hnine
        exact absurd hnine (by decide)
      | false =>
        rw [hd] at hnine
        exact absurd hnine (by decide)
  · intro hj
    have hkind : r.contentKind =
        bytes "Content-Type: application/json" ++ bytes "; charset=utf-8\r\n" := by
      rw [contentKind, hj, if_pos rfl]
      decide
    refine ⟨status, _, bytes "; charset=utf-8\r\n" ++ (rest ++ file), hstatus,
      connection_noCr r.isKeepAlive, ?_⟩
    rw [hkind, List.append_assoc]

end HttpResponse

end MudouHttp
