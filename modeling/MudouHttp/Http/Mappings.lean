import MudouHttp.Http.ResponseLaws
import MudouHttp.Lib.Ledger

/-!
# Files and mappings of a response

One `HttpResponse` serves a connection: `Init` and `MakeResponse` in pairs, and
`~HttpResponse` in the end. Every mapping is unmapped once and with its length.
`AddContent_` closes the descriptor of a file that it has mapped, and of no other
(`released_iff`).
-/

namespace MudouHttp

def Syscall.descriptorUse : Syscall → Option (Lib.Use Nat)
  | .openFile _ (some fd) => some (.acquire fd)
  | .close fd => some (.release fd)
  | _ => none

/-- A mapping is known by its address and its length. -/
def Syscall.mappingUse : Syscall → Option (Lib.Use (Nat × Nat))
  | .mmap length (some address) => some (.acquire (address, length))
  | .munmap address length => some (.release (address, length))
  | _ => none

structure Exchange where
  srcDir : Bytes
  path : Bytes
  isKeepAlive : Bool
  isJs : Bool
  isJsSuccess : Bool
  isDownload : Bool
  code : Int
  fs : FileSystem

namespace Exchange

def stat (x : Exchange) : Option FileStat := x.fs.stat (cstr (x.srcDir ++ x.path))

def status (x : Exchange) : Int :=
  match x.stat with
  | none => 404
  | some stat =>
    if stat.isDir then 404
    else if ¬stat.othersRead then 403
    else if x.code = -1 then 200
    else x.code

/-- The path to open and the last size a `stat` has reported: those of the file
asked for, or of an error page. -/
def file (x : Exchange) : Bytes × Nat :=
  let asked := x.stat.getD HttpResponse.noStat
  match HttpResponse.codePath x.status with
  | none => (cstr (x.srcDir ++ x.path), asked.size)
  | some page =>
    let path := cstr (x.srcDir ++ page)
    (path, ((x.fs.statError path).getD asked).size)

/-- A file that can be opened is not empty and can be mapped. -/
def Maps (x : Exchange) : Prop :=
  x.isJs = false → x.fs.openFile x.file.1 ≠ none →
    x.file.2 ≠ 0 ∧ (x.fs.mmap x.file.2).isSome = true

end Exchange

namespace HttpResponse

def ready (r : HttpResponse) (x : Exchange) : HttpResponse × List Syscall :=
  r.init x.srcDir x.path x.isKeepAlive x.isJs x.isJsSuccess x.isDownload x.code

def exchange (r : HttpResponse) (x : Exchange) : HttpResponse × List Syscall :=
  let (r, released) := r.ready x
  let (r, _, calls) := r.makeResponse x.fs
  (r, released ++ calls)

def exchanges (r : HttpResponse) : List Exchange → HttpResponse × List Syscall
  | [] => (r, [])
  | x :: xs =>
    let (r, calls) := r.exchange x
    let (r, rest) := r.exchanges xs
    (r, calls ++ rest)

def lifetime (xs : List Exchange) : List Syscall :=
  let (r, calls) := new.exchanges xs
  calls ++ r.unmapFile.2

def headed (r : HttpResponse) (x : Exchange) : HttpResponse :=
  (((r.ready x).1.findFile x.fs).1.errorHtml x.fs).1.addStateLine.1

def moments (r : HttpResponse) (x : Exchange) : List HttpResponse :=
  let unmapped := r.unmapFile.1
  let ready := (r.ready x).1
  let found := (ready.findFile x.fs).1
  let page := (found.errorHtml x.fs).1
  let line := page.addStateLine.1
  [r, unmapped, ready, found, page, line, (line.addContent x.fs).1]

def allMoments (r : HttpResponse) : List Exchange → List HttpResponse
  | [] => [r, r.unmapFile.1]
  | x :: xs => r.moments x ++ (r.exchange x).1.allMoments xs

structure Released (xs : List Exchange) : Prop where
  closed : ∀ past x rest, xs = past ++ x :: rest →
    Lib.settle [] ((((new.exchanges past).1.ready x).1.makeResponse x.fs).2.2.filterMap
      Syscall.descriptorUse) = some []
  unmapped : Lib.settle [] ((lifetime xs).filterMap Syscall.mappingUse) = some []
  fits : ∀ r ∈ new.allMoments xs, FileFits r

theorem exchange_headed (r : HttpResponse) (x : Exchange) :
    (r.exchange x).1 = ((r.headed x).addContent x.fs).1 := rfl

-- ---------------------------------------------------------------------------
-- The file of an exchange
-- ---------------------------------------------------------------------------

theorem ready_findFile (r : HttpResponse) (x : Exchange) :
    ((r.ready x).1.findFile x.fs).1 =
      { (r.ready x).1 with code := x.status, mmFileStat := x.stat.getD noStat } := by
  have hpath : (r.ready x).1.filePath = cstr (x.srcDir ++ x.path) := rfl
  have hcode : (r.ready x).1.code = x.code := rfl
  unfold findFile Exchange.status Exchange.stat
  rw [hpath]
  cases x.fs.stat (cstr (x.srcDir ++ x.path)) with
  | none => rfl
  | some stat =>
    simp only [hcode, Option.getD_some]
    split
    · rfl
    · split
      · rfl
      · split
        · rfl
        · rw [← hcode]

theorem addStateLine_file (r : HttpResponse) :
    r.addStateLine.1.filePath = r.filePath ∧ r.addStateLine.1.mmFileStat = r.mmFileStat := by
  unfold addStateLine
  cases codeStatus r.code <;> exact ⟨rfl, rfl⟩

theorem headed_file (r : HttpResponse) (x : Exchange) :
    (r.headed x).filePath = x.file.1 ∧ (r.headed x).mmFileStat.size = x.file.2 := by
  obtain ⟨hpath, hstat⟩ := addStateLine_file (((r.ready x).1.findFile x.fs).1.errorHtml x.fs).1
  rw [headed, hpath, hstat, ready_findFile]
  unfold errorHtml Exchange.file
  cases hcode : codePath x.status with
  | none => exact ⟨rfl, rfl⟩
  | some page => exact ⟨rfl, rfl⟩

theorem headed_isJs (r : HttpResponse) (x : Exchange) : (r.headed x).isJs = x.isJs :=
  ((findFile_flags x.fs _).trans <| (errorHtml_flags x.fs _).trans <| addStateLine_flags _).js

theorem headed_mmFile (r : HttpResponse) (x : Exchange) : (r.headed x).mmFile = none := by
  rw [headed, addStateLine_mmFile, errorHtml_mmFile, findFile_mmFile]
  rfl

-- ---------------------------------------------------------------------------
-- The system calls of an exchange
-- ---------------------------------------------------------------------------

theorem findFile_calls (fs : FileSystem) (r : HttpResponse) :
    (r.findFile fs).2 = [.stat r.filePath] := by
  unfold findFile
  split
  · rfl
  · dsimp only
    split
    · rfl
    · split
      · rfl
      · split <;> rfl

theorem errorHtml_calls (fs : FileSystem) (r : HttpResponse) :
    (r.errorHtml fs).2 = [] ∨ ∃ path, (r.errorHtml fs).2 = [.stat path] := by
  unfold errorHtml
  split
  · exact .inr ⟨_, rfl⟩
  · exact .inl rfl

theorem makeResponse_uses (use : Syscall → Option β) (hstat : ∀ path, use (.stat path) = none)
    (r : HttpResponse) (x : Exchange) :
    ((r.ready x).1.makeResponse x.fs).2.2.filterMap use =
      ((r.headed x).addContent x.fs).2.2.filterMap use := by
  have hcalls : ((r.ready x).1.makeResponse x.fs).2.2 = ((r.ready x).1.findFile x.fs).2 ++
      (((r.ready x).1.findFile x.fs).1.errorHtml x.fs).2 ++
      ((r.headed x).addContent x.fs).2.2 := rfl
  rw [hcalls, findFile_calls, List.filterMap_append]
  rcases errorHtml_calls x.fs ((r.ready x).1.findFile x.fs).1 with hcalls | ⟨path, hcalls⟩
  · rw [hcalls]
    simp [hstat]
  · rw [hcalls]
    simp [hstat]

def mapped (r : HttpResponse) : List (Nat × Nat) :=
  r.mmFile.toList.map fun mapping => (mapping.address, r.mmFileStat.size)

theorem unmapFile_uses (r : HttpResponse) :
    Lib.settle r.mapped (r.unmapFile.2.filterMap Syscall.mappingUse) = some [] := by
  unfold mapped unmapFile
  cases r.mmFile with
  | none => rfl
  | some mapping => simp [Syscall.mappingUse, Lib.settle]

theorem addContent_mapped (fs : FileSystem) {r : HttpResponse} (h : r.mmFile = none) :
    Lib.settle [] ((r.addContent fs).2.2.filterMap Syscall.mappingUse) =
      some (r.addContent fs).1.mapped := by
  have hnone : r.mapped = [] := by simp [mapped, h]
  unfold addContent
  split
  · rw [hnone]
    rfl
  · split
    · rw [hnone]
      rfl
    · dsimp only
      split
      · rw [hnone]
        rfl
      · rfl

theorem addContent_closed (fs : FileSystem) (r : HttpResponse) :
    Lib.settle [] ((r.addContent fs).2.2.filterMap Syscall.descriptorUse) = some [] ↔
      (r.isJs = false → fs.openFile r.filePath ≠ none →
        r.mmFileStat.size ≠ 0 ∧ (fs.mmap r.mmFileStat.size).isSome = true) := by
  unfold addContent
  cases hjs : r.isJs with
  | true => simp [Lib.settle]
  | false =>
    cases hopen : fs.openFile r.filePath with
    | none => exact iff_of_true rfl fun _ hfile => absurd rfl hfile
    | some fd =>
      have hfile : some fd ≠ none := Option.some_ne_none fd
      by_cases hsize : r.mmFileStat.size = 0
      · simp only [Bool.false_eq_true, if_false, hsize, if_true]
        exact iff_of_false (by rintro ⟨⟩) fun h => (h trivial hfile).1 rfl
      · simp only [Bool.false_eq_true, if_false, hsize]
        cases hmap : fs.mmap r.mmFileStat.size with
        | none => exact iff_of_false (by rintro ⟨⟩) fun h => absurd (h trivial hfile).2 Bool.false_ne_true
        | some mapping =>
          refine iff_of_true ?_ fun _ _ => ⟨hsize, rfl⟩
          simp [List.filterMap_cons, Syscall.descriptorUse, Lib.settle]

theorem makeResponse_closed (r : HttpResponse) (x : Exchange) :
    Lib.settle [] (((r.ready x).1.makeResponse x.fs).2.2.filterMap Syscall.descriptorUse) = some [] ↔
      x.Maps := by
  obtain ⟨hpath, hsize⟩ := headed_file r x
  rw [makeResponse_uses Syscall.descriptorUse (fun _ => rfl), addContent_closed, headed_isJs, hpath,
    hsize]
  rfl

-- ---------------------------------------------------------------------------
-- Sequences of exchanges
-- ---------------------------------------------------------------------------

/-- The mapping of one exchange is unmapped by the `Init` of the next. -/
theorem exchange_mapped (r : HttpResponse) (x : Exchange) :
    Lib.settle r.mapped ((r.exchange x).2.filterMap Syscall.mappingUse) =
      some (r.exchange x).1.mapped := by
  have hcalls : (r.exchange x).2 =
      r.unmapFile.2 ++ ((r.ready x).1.makeResponse x.fs).2.2 := rfl
  rw [hcalls, List.filterMap_append, Lib.settle_append, unmapFile_uses,
    makeResponse_uses Syscall.mappingUse (fun _ => rfl), Option.bind_some,
    addContent_mapped x.fs (headed_mmFile r x), exchange_headed]

theorem exchanges_mapped (r : HttpResponse) (xs : List Exchange) :
    Lib.settle r.mapped ((r.exchanges xs).2.filterMap Syscall.mappingUse) =
      some (r.exchanges xs).1.mapped := by
  induction xs generalizing r with
  | nil => rfl
  | cons x xs ih =>
    have hcalls : (r.exchanges (x :: xs)).2 =
        (r.exchange x).2 ++ ((r.exchange x).1.exchanges xs).2 := rfl
    rw [hcalls, List.filterMap_append, Lib.settle_append, exchange_mapped, Option.bind_some, ih]
    rfl

theorem lifetime_mapped (xs : List Exchange) :
    Lib.settle [] ((lifetime xs).filterMap Syscall.mappingUse) = some [] := by
  have hcalls : lifetime xs = (new.exchanges xs).2 ++ (new.exchanges xs).1.unmapFile.2 := rfl
  have hrun : Lib.settle [] ((new.exchanges xs).2.filterMap Syscall.mappingUse) =
      some (new.exchanges xs).1.mapped := exchanges_mapped new xs
  rw [hcalls, List.filterMap_append, Lib.settle_append, hrun, Option.bind_some, unmapFile_uses]

theorem FileFits.of_none {r : HttpResponse} (h : r.mmFile = none) : FileFits r := fun _ hm =>
  absurd (h.symm.trans hm) nofun

theorem unmapFile_mmFile (r : HttpResponse) : r.unmapFile.1.mmFile = none := by
  unfold unmapFile
  cases h : r.mmFile with
  | none => exact h
  | some mapping => rfl

theorem exchange_fits (r : HttpResponse) (x : Exchange) : FileFits (r.exchange x).1 :=
  addContent_file x.fs (headed_mmFile r x)

/-- No mapping is there while the structure changes. -/
theorem moments_fit {r : HttpResponse} (h : FileFits r) (x : Exchange) :
    ∀ m ∈ r.moments x, FileFits m := by
  have hready : (r.ready x).1.mmFile = none := rfl
  have hfound := findFile_mmFile x.fs (r.ready x).1
  have hpage := errorHtml_mmFile x.fs ((r.ready x).1.findFile x.fs).1
  simp only [moments, List.mem_cons, List.not_mem_nil, or_false, forall_eq_or_imp, forall_eq]
  refine ⟨h, .of_none (unmapFile_mmFile r), .of_none hready, .of_none (hfound.trans hready),
    .of_none (hpage.trans (hfound.trans hready)), .of_none (headed_mmFile r x), exchange_fits r x⟩

theorem allMoments_fit {r : HttpResponse} (h : FileFits r) (xs : List Exchange) :
    ∀ m ∈ r.allMoments xs, FileFits m := by
  induction xs generalizing r with
  | nil =>
    simp only [allMoments, List.mem_cons, List.not_mem_nil, or_false, forall_eq_or_imp, forall_eq]
    exact ⟨h, .of_none (unmapFile_mmFile r)⟩
  | cons x xs ih =>
    intro m hm
    rcases List.mem_append.mp hm with hm | hm
    · exact moments_fit h x m hm
    · exact ih (exchange_fits r x) m hm

/-- A sequence of exchanges releases all it acquires if each of them maps the
file it opens; no descriptor of another is closed. -/
theorem released_iff (xs : List Exchange) : Released xs ↔ ∀ x ∈ xs, x.Maps := by
  constructor
  · intro h x hx
    obtain ⟨past, rest, hxs⟩ := List.append_of_mem hx
    exact (makeResponse_closed _ x).mp (h.closed past x rest hxs)
  · intro h
    refine ⟨fun past x rest hxs => ?_, lifetime_mapped xs, allMoments_fit (.of_none rfl) xs⟩
    exact (makeResponse_closed _ x).mpr (h x (by simp [hxs]))

/-- An empty file can be opened and read by everyone. -/
theorem empty_file_left_open : ¬∀ xs, Released xs := by
  intro h
  let x : Exchange :=
    { srcDir := bytes "./html", path := bytes "/empty.txt", isKeepAlive := true, isJs := false
      isJsSuccess := false, isDownload := false, code := -1
      fs :=
        { stat := fun _ => some { isDir := false, othersRead := true, size := 0 }
          statError := fun _ => none
          openFile := fun _ => some 7
          mmap := fun _ => none } }
  have hclosed := (h [x]).closed [] x [] rfl
  exact absurd hclosed (by decide)

end HttpResponse

end MudouHttp
