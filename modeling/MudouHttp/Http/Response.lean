import MudouHttp.Cxx.Text

/-!
# HttpResponse

The response writer of `http/httpresponse.cpp`. What it appends to the buffer
is the list of texts it appends, in order; the outcomes of the system calls
are a parameter (`FileSystem`), and the calls made are recorded. The texts
formatted for the log are left out.
-/

namespace MudouHttp

/-- What the code reads of a `struct stat`: `S_ISDIR`, `S_IROTH`, `st_size`. -/
structure FileStat where
  isDir : Bool
  othersRead : Bool
  size : Nat
  deriving DecidableEq, Repr

structure Mapping where
  address : Nat
  bytes : Bytes

/-- How the system calls of one response end. The error page is looked up by
a second `stat`. A mapping has the length that was asked for. -/
structure FileSystem where
  stat : Bytes → Option FileStat
  statError : Bytes → Option FileStat
  openFile : Bytes → Option Nat
  mmap : (length : Nat) → Option (Nat × (Fin length → UInt8))

inductive Syscall
  | stat (path : Bytes)
  | openFile (path : Bytes) (fd : Option Nat)
  | mmap (length : Nat) (address : Option Nat)
  | close (fd : Nat)
  | munmap (address length : Nat)
  deriving DecidableEq

structure HttpResponse where
  code : Int
  isKeepAlive : Bool
  path : Bytes
  srcDir : Bytes
  mmFile : Option Mapping
  mmFileStat : FileStat
  isJs : Bool
  isJsSuccess : Bool
  isDownload : Bool

def unreserved (c : UInt8) : Bool :=
  (chr 'A' ≤ c && c ≤ chr 'Z') || (chr 'a' ≤ c && c ≤ chr 'z') || (chr '0' ≤ c && c ≤ chr '9') ||
    c = chr '-' || c = chr '_' || c = chr '.' || c = chr '~'

def hexDigit (n : UInt8) : UInt8 := if n < 10 then chr '0' + n else chr 'A' + (n - 10)

def urlEncode (s : Bytes) : Bytes :=
  s.flatMap fun c => if unreserved c then [c] else [chr '%', hexDigit (c / 16), hexDigit (c % 16)]

namespace HttpResponse

def suffixTypes : List (Bytes × Bytes) :=
  [(bytes ".html", bytes "text/html"), (bytes ".xml", bytes "text/xml"),
    (bytes ".xhtml", bytes "application/xhtml+xml"), (bytes ".txt", bytes "text/plain"),
    (bytes ".rtf", bytes "application/rtf"), (bytes ".pdf", bytes "application/pdf"),
    (bytes ".word", bytes "application/nsword"), (bytes ".png", bytes "image/png"),
    (bytes ".gif", bytes "image/gif"), (bytes ".jpg", bytes "image/jpg"),
    (bytes ".jpeg", bytes "image/jpeg"), (bytes ".au", bytes "audio/basic"),
    (bytes ".mpeg", bytes "video/mpeg"), (bytes ".mpg", bytes "video/mpeg"),
    (bytes ".avi", bytes "video/x-msvideo"), (bytes ".gz", bytes "application/x-gzip"),
    (bytes ".tar", bytes "application/x-tar"), (bytes ".css", bytes "text/css"),
    (bytes ".js", bytes "application/javascript")]

def suffixType (suffix : Bytes) : Option Bytes := suffixTypes.lookup suffix

def codeStatus : Int → Option Bytes
  | 200 => some (bytes "OK")
  | 400 => some (bytes "Bad Request")
  | 403 => some (bytes "Forbindden")
  | 404 => some (bytes "Not Found")
  | _ => none

def codePath : Int → Option Bytes
  | 400 => some (bytes "/400.html")
  | 403 => some (bytes "/403.html")
  | 404 => some (bytes "/404.html")
  | _ => none

def noStat : FileStat := { isDir := false, othersRead := false, size := 0 }

def new : HttpResponse :=
  { code := -1, isKeepAlive := false, path := [], srcDir := [], mmFile := none
    mmFileStat := noStat, isJs := false, isJsSuccess := false, isDownload := false }

def unmapFile (r : HttpResponse) : HttpResponse × List Syscall :=
  match r.mmFile with
  | some mapping => ({ r with mmFile := none }, [.munmap mapping.address r.mmFileStat.size])
  | none => (r, [])

/-- The only caller passes a directory that is not empty, as is asserted. -/
def init (r : HttpResponse) (srcDir path : Bytes)
    (isKeepAlive isJs isJsSuccess isDownload : Bool) (code : Int) : HttpResponse × List Syscall :=
  let (r, calls) := r.unmapFile
  ({ r with
    code := code, path := path, srcDir := srcDir, mmFile := none, mmFileStat := noStat
    isKeepAlive := isKeepAlive, isJs := isJs, isJsSuccess := isJsSuccess
    isDownload := isDownload }, calls)

def filePath (r : HttpResponse) : Bytes := cstr (r.srcDir ++ r.path)

/-- A `stat` that fails leaves the structure as it is. -/
def errorHtml (fs : FileSystem) (r : HttpResponse) : HttpResponse × List Syscall :=
  match codePath r.code with
  | some path =>
    let r := { r with path := path }
    ({ r with mmFileStat := (fs.statError r.filePath).getD r.mmFileStat }, [.stat r.filePath])
  | none => (r, [])

def addStateLine (r : HttpResponse) : HttpResponse × List Bytes :=
  let (r, status) := match codeStatus r.code with
    | some status => (r, status)
    | none => ({ r with code := 400 }, bytes "Bad Request")
  (r, [bytes "HTTP/1.1 " ++ bytes (toString r.code) ++ bytes " " ++ status ++ bytes "\r\n"])

def getFileType (r : HttpResponse) : Bytes :=
  let path := match find r.path (chr '?') 0 with
    | some query => substr r.path 0 query
    | none => r.path
  match findLastOf path (chr '.') with
  | none => bytes "text/plain"
  | some idx => (suffixType (path.drop idx)).getD (bytes "text/plain")

def jsonBody (success : Bool) : Bytes :=
  if success then bytes "\x7b\"success\": true, \"message\": \"登录成功\"\x7d"
  else bytes "\x7b\"success\": false, \"message\": \"用户名或密码错误\"\x7d"

def contentHeader (r : HttpResponse) : List Bytes :=
  if r.isJs then
    [bytes "Content-Type: application/json; charset=utf-8\r\n",
      bytes "Content-Length: " ++ bytes (toString (jsonBody r.isJsSuccess).length) ++ bytes "\r\n",
      bytes "\r\n"]
  else
    (if r.isDownload then
      [bytes "Content_Disposition: attachment; filename*=UTF-8''" ++ urlEncode r.path,
        bytes "/r/n"] else []) ++
      [bytes "Content-type: " ++ r.getFileType ++ bytes "\r\n"]

def addHeader (r : HttpResponse) : List Bytes :=
  [bytes "Connection: ", bytes (if r.isKeepAlive then "keep-alive\r\n" else "close\r\n")] ++
    r.contentHeader

def errorContent (r : HttpResponse) (message : Bytes) : List Bytes :=
  let body := bytes "<html><title>Error</title>" ++ bytes "<body bgcolor=\"ffffff\">" ++
    (bytes (toString r.code) ++ bytes " : " ++ (codeStatus r.code).getD (bytes "Bad Request") ++
      bytes "\n") ++
    (bytes "<p>" ++ message ++ bytes "</p>") ++ bytes "<hr><em>MyWebServer</em></body></html>"
  [bytes "Content-length: " ++ bytes (toString body.length) ++ bytes "\r\n\r\n", body]

/-- `mmap` of nothing fails. The descriptor is closed only once the file is
mapped. -/
def addContent (fs : FileSystem) (r : HttpResponse) : HttpResponse × List Bytes × List Syscall :=
  if r.isJs then (r, [jsonBody r.isJsSuccess], [])
  else
    match fs.openFile r.filePath with
    | none => (r, r.errorContent (bytes "FileFound!"), [.openFile r.filePath none])
    | some fd =>
      let length := r.mmFileStat.size
      match if length = 0 then none else fs.mmap length with
      | none => (r, r.errorContent (bytes "File NotFound!"),
          [.openFile r.filePath (some fd), .mmap length none])
      | some (address, file) =>
        ({ r with mmFile := some { address := address, bytes := List.ofFn file } },
          [bytes "Content-length: " ++ bytes (toString length) ++ bytes "\r\n\r\n"],
          [.openFile r.filePath (some fd), .mmap length (some address), .close fd])

def findFile (fs : FileSystem) (r : HttpResponse) : HttpResponse × List Syscall :=
  let call := Syscall.stat r.filePath
  match fs.stat r.filePath with
  | none => ({ r with code := 404 }, [call])
  | some stat =>
    let r := { r with mmFileStat := stat }
    if stat.isDir then ({ r with code := 404 }, [call])
    else if ¬stat.othersRead then ({ r with code := 403 }, [call])
    else if r.code = -1 then ({ r with code := 200 }, [call])
    else (r, [call])

def makeResponse (fs : FileSystem) (r : HttpResponse) :
    HttpResponse × List Bytes × List Syscall :=
  let (r, statCalls) := r.findFile fs
  let (r, errorCalls) := r.errorHtml fs
  let (r, stateLine) := r.addStateLine
  let header := r.addHeader
  let (r, content, contentCalls) := r.addContent fs
  (r, stateLine ++ header ++ content, statCalls ++ errorCalls ++ contentCalls)

end HttpResponse

end MudouHttp
