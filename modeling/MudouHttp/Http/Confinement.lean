import MudouHttp.Http.Answers
import MudouHttp.Lib.Paths

/-!
# The files a response is made of

`stat` and `open` are given `./html` and what the request asks for, as it is
written there; the error pages are the only other files. Nothing looks for
`..`, so that a path is kept below `./html` exactly if it does not lead out of
it, or back into it: `confined_iff`.
-/

namespace MudouHttp

open Lib (Move Place resolve Closed Stays)

-- ---------------------------------------------------------------------------
-- Paths
-- ---------------------------------------------------------------------------

/-- Of a relative path; empty components and `.` do not move. -/
def moves (path : Bytes) : List (Move Bytes) :=
  (path.splitOn (chr '/')).filterMap fun name =>
    if name = [] ∨ name = bytes "." then none
    else if name = bytes ".." then some .up
    else some (.into name)

def documentRoot : Bytes := bytes "html"

/-- A relative path that, resolved lexically, is in the document root. -/
def Confined (path : Bytes) : Prop :=
  path.head? ≠ some (chr '/') ∧ (resolve (moves path)).Inside documentRoot

theorem moves_append (path rest : Bytes) :
    moves (path ++ chr '/' :: rest) = moves path ++ moves rest := by
  rw [moves, List.splitOn_append_cons_self, List.filterMap_append]
  rfl

/-- From where the server runs, the path asked for with `html` before it enters
`html` and does not lead out of it again. -/
def LeadsInside (path : Bytes) : Prop :=
  ∃ pre post, moves (documentRoot ++ cstr path) = pre ++ .into documentRoot :: post ∧
    Closed pre ∧ Stays post

theorem leadsInside_of_stays (h : Stays (moves (cstr path))) : LeadsInside (chr '/' :: path) := by
  have hstep : cstr (chr '/' :: path) = chr '/' :: cstr path := List.takeWhile_cons_of_pos (by decide)
  refine ⟨[], moves (cstr path), ?_, ⟨Lib.stays_nil, rfl⟩, h⟩
  rw [hstep, moves_append]
  rfl

theorem confined_filePath (path : Bytes) :
    Confined (cstr (bytes "./html" ++ path)) ↔ LeadsInside path := by
  have hpath : cstr (bytes "./html" ++ path) = bytes "." ++ chr '/' :: (documentRoot ++ cstr path) := by
    have hall : (bytes "./html").all (· ≠ 0) = true := by decide
    unfold cstr
    rw [List.takeWhile_append_of_pos (List.all_eq_true.mp hall)]
    rfl
  have hmoves : moves (bytes "." ++ chr '/' :: (documentRoot ++ cstr path)) =
      moves (documentRoot ++ cstr path) := by
    rw [moves_append]
    rfl
  rw [Confined, hpath, hmoves, Lib.inside_iff]
  refine and_iff_right ?_
  show some (chr '.') ≠ some (chr '/')
  decide

-- ---------------------------------------------------------------------------
-- What MakeResponse opens
-- ---------------------------------------------------------------------------

def filePaths (calls : List Syscall) : List Bytes :=
  calls.filterMap fun
    | .stat path | .openFile path _ => some path
    | .mmap .. | .close _ | .munmap .. => none

theorem filePaths_append (calls calls' : List Syscall) :
    filePaths (calls ++ calls') = filePaths calls ++ filePaths calls' := List.filterMap_append ..

namespace HttpResponse

def Opens (r : HttpResponse) (path : Bytes) : Prop :=
  path = r.filePath ∨ ∃ code page, codePath code = some page ∧ path = cstr (r.srcDir ++ page)

theorem findFile_paths (fs : FileSystem) (r : HttpResponse) :
    (r.findFile fs).1.srcDir = r.srcDir ∧ (r.findFile fs).1.path = r.path ∧
      filePaths (r.findFile fs).2 = [r.filePath] := by
  unfold findFile
  split
  · exact ⟨rfl, rfl, rfl⟩
  · dsimp only
    split
    · exact ⟨rfl, rfl, rfl⟩
    · split
      · exact ⟨rfl, rfl, rfl⟩
      · split <;> exact ⟨rfl, rfl, rfl⟩

theorem errorHtml_paths (fs : FileSystem) (r : HttpResponse) :
    r.Opens (r.errorHtml fs).1.filePath ∧
      ∀ path ∈ filePaths (r.errorHtml fs).2, r.Opens path := by
  unfold errorHtml
  split
  · rename_i page hpage
    have hopens : r.Opens (cstr (r.srcDir ++ page)) := .inr ⟨r.code, page, hpage, rfl⟩
    exact ⟨hopens, fun path hmem => List.mem_singleton.mp hmem ▸ hopens⟩
  · exact ⟨.inl rfl, nofun⟩

theorem addStateLine_path (r : HttpResponse) : r.addStateLine.1.filePath = r.filePath := by
  unfold addStateLine
  cases codeStatus r.code <;> rfl

theorem addContent_paths (fs : FileSystem) (r : HttpResponse) :
    ∀ path ∈ filePaths (r.addContent fs).2.2, path = r.filePath := by
  unfold addContent
  split
  · nofun
  · split
    · exact fun path hmem => List.mem_singleton.mp hmem
    · dsimp only
      split
      · exact fun path hmem => List.mem_singleton.mp hmem
      · exact fun path hmem => List.mem_singleton.mp hmem

theorem makeResponse_paths (fs : FileSystem) (r : HttpResponse) :
    r.filePath ∈ filePaths (r.makeResponse fs).2.2 ∧
      ∀ path ∈ filePaths (r.makeResponse fs).2.2, r.Opens path := by
  obtain ⟨hdir, hpath, hfind⟩ := findFile_paths fs r
  have hsame : (r.findFile fs).1.filePath = r.filePath := by
    rw [filePath, hdir, hpath, filePath]
  have hopens : ∀ path, (r.findFile fs).1.Opens path → r.Opens path := by
    intro path hp
    rw [Opens, hsame, hdir] at hp
    exact hp
  obtain ⟨hpage, herror⟩ := errorHtml_paths fs (r.findFile fs).1
  have hcalls : (r.makeResponse fs).2.2 = (r.findFile fs).2 ++ ((r.findFile fs).1.errorHtml fs).2 ++
      (((r.findFile fs).1.errorHtml fs).1.addStateLine.1.addContent fs).2.2 := rfl
  rw [hcalls, filePaths_append, filePaths_append, hfind]
  refine ⟨List.mem_append_left _ (List.mem_append_left _ List.mem_cons_self), fun path hmem => ?_⟩
  rcases List.mem_append.mp hmem with hmem | hmem
  · rcases List.mem_append.mp hmem with hmem | hmem
    · exact .inl (List.mem_singleton.mp hmem)
    · exact hopens path (herror path hmem)
  · rw [addContent_paths fs _ path hmem, addStateLine_path]
    exact hopens _ hpage

end HttpResponse

-- ---------------------------------------------------------------------------
-- onmessage
-- ---------------------------------------------------------------------------

namespace Connection

def requestedPath (rq : HttpRequest) : Bytes :=
  if contains rq.path (bytes "/download") ∧ rq.method = bytes "POST" then
    bytes "/" ++ rq.getPost (bytes "folder") ++ bytes "/" ++ rq.getPost (bytes "fileName")
  else rq.path

theorem initResponse_paths (rq : HttpRequest) (r : HttpResponse) :
    (initResponse rq r).1.srcDir = bytes "./html" ∧ (initResponse rq r).1.path = requestedPath rq ∧
      filePaths (initResponse rq r).2 = [] := by
  have hunmap : filePaths r.unmapFile.2 = [] := by
    unfold HttpResponse.unmapFile
    cases r.mmFile <;> rfl
  unfold initResponse requestedPath
  split
  · exact ⟨rfl, rfl, hunmap⟩
  · exact ⟨rfl, rfl, hunmap⟩

theorem errorPages_confined (h : HttpResponse.codePath code = some page) :
    Confined (cstr (bytes "./html" ++ page)) := by
  unfold HttpResponse.codePath at h
  unfold Confined
  split at h
  · cases h; decide
  · cases h; decide
  · cases h; decide
  · cases h

/-- For every request that completes on a connection, in any state it can reach:
`stat` and `open` are given paths in the document root exactly if the path asked for
leads there. -/
theorem confined_iff {c : Connection} (h : Lib.Reach step Admits start c)
    (hparse : c.toReceiver.receive d = .ok (r, true)) (fs : FileSystem) :
    ∃ c' calls, c.onmessage d fs = .ok (c', calls) ∧
      ((∀ path ∈ filePaths calls, Confined path) ↔ LeadsInside (requestedPath r.request)) := by
  have hin : c.sending.InOrder := h.invariant step_inOrder Sending.start_inOrder
  obtain ⟨c', file, hrespond, -⟩ := respond_ok (c := { c with toReceiver := r }) hin fs
  refine ⟨c', _, onmessage_parsed hparse hrespond, ?_⟩
  obtain ⟨hdir, hpath, hunmap⟩ := initResponse_paths r.request c.response
  obtain ⟨hfile, hopens⟩ :=
    HttpResponse.makeResponse_paths fs (initResponse r.request c.response).1
  have hasked : (initResponse r.request c.response).1.filePath =
      cstr (bytes "./html" ++ requestedPath r.request) := by
    rw [HttpResponse.filePath, hdir, hpath]
  rw [filePaths_append, hunmap, List.nil_append, ← confined_filePath, ← hasked]
  constructor
  · exact fun hall => hall _ hfile
  · intro hconfined path hmem
    rcases hopens path hmem with rfl | ⟨code, page, hpage, rfl⟩
    · exact hconfined
    · rw [hdir]
      exact errorPages_confined hpage

theorem confined_iff_example : ∃ c' calls,
    start.onmessage ⟨bytes "GET /images/../a.png HTTP/1.1\r\n\r\n", .none⟩ noFiles = .ok (c', calls) ∧
      ∀ path ∈ filePaths calls, Confined path := by
  have hrun : (start.toReceiver.receive
      ⟨bytes "GET /images/../a.png HTTP/1.1\r\n\r\n", .none⟩).toOption.map
      (fun r => (r.2, requestedPath r.1.request)) =
        some (true, chr '/' :: bytes "images/../a.png") := by
    decide +kernel
  obtain ⟨r, hparse, hpath⟩ := receive_view requestedPath hrun
  obtain ⟨c', calls, hmessage, hiff⟩ := confined_iff .start hparse noFiles
  refine ⟨c', calls, hmessage, hiff.mpr ?_⟩
  rw [hpath]
  exact leadsInside_of_stays (Lib.stays_of_resolve (by decide))

/-- A file outside the document root is sent. -/
theorem passwd_opened : ∃ c' calls,
    start.onmessage ⟨bytes "GET /../../etc/passwd HTTP/1.1\r\n\r\n", .none⟩ everyFile =
      .ok (c', calls) ∧
    filePaths calls = [bytes "./html/../../etc/passwd", bytes "./html/../../etc/passwd"] ∧
    ¬∀ path ∈ filePaths calls, Confined path := by
  have hrun : (start.onmessage
      ⟨bytes "GET /../../etc/passwd HTTP/1.1\r\n\r\n", .none⟩ everyFile).toOption.map
      (fun r => filePaths r.2) =
        some [bytes "./html/../../etc/passwd", bytes "./html/../../etc/passwd"] := by
    decide +kernel
  obtain ⟨⟨c', calls⟩, hmessage, hpaths⟩ := view_ok _ hrun
  refine ⟨c', calls, hmessage, hpaths, fun hall => ?_⟩
  have hconfined := hall (bytes "./html/../../etc/passwd") (hpaths ▸ List.mem_cons_self)
  exact absurd hconfined.2 (by decide)

end Connection

end MudouHttp
