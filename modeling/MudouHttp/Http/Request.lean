import MudouHttp.Cxx.Text
import MudouHttp.Lib.Regex
import MudouHttp.Reactor.Buffer

/-!
# HttpRequest

The request parser of `http/httprequest.cpp`. The database and rapidjson are
parameters (`Services`); the texts formatted for the log are left out. A
regular expression is a list of items of the library's fragment.
-/

namespace MudouHttp

open Function (update)
open Lib.Regex (Item fullMatch lits)

inductive ParseState
  | requestLine
  | headers
  | body
  | finish
  | error
  deriving DecidableEq, Repr

inductive LineState
  | reading
  | foundCr
  deriving DecidableEq, Repr

structure HttpRequest where
  state : ParseState
  method : Bytes
  path : Bytes
  version : Bytes
  body : Bytes
  isDownload : Bool
  returnJs : Bool
  isSuccessJs : Bool
  header : StrMap
  post : StrMap

/-- What the parser asks of others: `UserDao::Register`, `UserDao::Login`, and
for a JSON text that is an object the values of its string members. -/
structure Services where
  register : Bytes → Bytes → Bool
  login : Bytes → Bytes → Bool
  json : Bytes → Option (Bytes → Option Bytes)

-- ---------------------------------------------------------------------------
-- readLine
-- ---------------------------------------------------------------------------

structure Scan where
  state : LineState
  line : Bytes
  consumed : Nat

def Scan.start : Scan := { state := .reading, line := [], consumed := 0 }

/-- The inner loop of `readLine` over the bytes of a block, and whether it
returned. The CR before a byte that is not LF is dropped. -/
def Scan.run (sc : Scan) : Bytes → Scan × Bool
  | [] => (sc, false)
  | c :: rest =>
    let sc := { sc with consumed := sc.consumed + 1 }
    match sc.state with
    | .reading =>
      if c = 13 then run { sc with state := .foundCr } rest
      else run { sc with line := sc.line ++ [c] } rest
    | .foundCr =>
      if c = 10 then (sc, true)
      else run { sc with line := sc.line ++ [c], state := .reading } rest

/-- The outer loop of `readLine`; `pos` is `start_pos` of the block. A block
does not end where `size - start_pos` says if that has wrapped. -/
def readLineLoop (sc : Scan) : List Block → Nat → Except Fault (Int × Bytes)
  | [], _ => .ok (0, sc.line)
  | block :: rest, pos =>
    let blockRemaining := sizeSub block.size pos
    let data := (block.data.drop pos).take blockRemaining
    match sc.run data with
    | (sc, true) => .ok (toInt sc.consumed, sc.line)
    | (sc, false) =>
      if data.length < blockRemaining then .error .outOfBounds else readLineLoop sc rest 0

/-- The return value and `line`. -/
def readLine (buffer : BufferBlock) : Except Fault (Int × Bytes) :=
  readLineLoop .start buffer.blocks buffer.readPos

-- ---------------------------------------------------------------------------
-- Form bodies
-- ---------------------------------------------------------------------------

def urlDecodeLoop : Bytes → Bytes
  | [] => []
  | c :: rest =>
    if c = chr '+' then 32 :: urlDecodeLoop rest
    else if c = chr '%' then
      match rest with
      | a :: b :: rest =>
        match scanHex [a, b] with
        | some hex => UInt8.ofNat hex :: urlDecodeLoop rest
        | none => chr '%' :: urlDecodeLoop (a :: b :: rest)
      | rest => chr '%' :: urlDecodeLoop rest
    else c :: urlDecodeLoop rest

/-- The loop runs up to `int len = str.length()`. -/
def urlDecode (str : Bytes) : Bytes := urlDecodeLoop (str.take (toInt str.length).toNat)

/-- The loop of `ParseFromUrlencoded_`. Each turn moves `start` on, so that
`fuel` turns reach the end of a body of that length. -/
def parseFromUrlencodedLoop (body : Bytes) : Nat → Nat → StrMap → StrMap
  | 0, _, post => post
  | fuel + 1, start, post =>
    if start < body.length then
      let ending := (find body (chr '&') start).getD body.length
      match find body (chr '=') start with
      | none => parseFromUrlencodedLoop body fuel (ending + 1) post
      | some equal =>
        if equal > ending then parseFromUrlencodedLoop body fuel (ending + 1) post
        else
          let key := urlDecode (substr body start (equal - start))
          let value := urlDecode (substr body (equal + 1) (ending - equal - 1))
          parseFromUrlencodedLoop body fuel (ending + 1) (update post key (some value))
    else post

namespace HttpRequest

/-- A new request, and what `Init` makes of any other. -/
def init : HttpRequest :=
  { state := .requestLine, method := [], path := [], version := [], body := [], isDownload := false
    returnJs := false, isSuccessJs := false, header := fun _ => none, post := fun _ => none }

def parseFromUrlencoded (rq : HttpRequest) : HttpRequest :=
  if rq.body.isEmpty then rq
  else { rq with post := parseFromUrlencodedLoop rq.body rq.body.length 0 fun _ => none }

def handleUserCommand (svc : Services) (rq : HttpRequest) (cmd username password : Bytes) :
    HttpRequest :=
  if cmd = bytes "register" then { rq with isSuccessJs := svc.register username password }
  else if cmd = bytes "login" then { rq with isSuccessJs := svc.login username password }
  else rq

-- ---------------------------------------------------------------------------
-- The lines of a request
-- ---------------------------------------------------------------------------

def notSpace (c : UInt8) : Bool := c ≠ 32

def nameChar (c : UInt8) : Bool :=
  (chr 'a' ≤ c && c ≤ chr 'z') || (chr 'A' ≤ c && c ≤ chr 'Z') || (chr '0' ≤ c && c ≤ chr '9') ||
    c = chr '-'

def notLineEnd (c : UInt8) : Bool := c ≠ 10 && c ≠ 13

/-- `([^ ]*) ([^ ]*) HTTP/([^ ]*)` -/
def requestLinePattern : List (Item UInt8) :=
  [.many 0 notSpace true, .lit 32, .many 0 notSpace true] ++ lits (bytes " HTTP/") ++
    [.many 0 notSpace true]

/-- `([a-zA-Z0-9-]+):\s*(.*)` -/
def headerPattern : List (Item UInt8) :=
  [.many 1 nameChar true, .lit (chr ':'), .many 0 isspace false, .many 0 notLineEnd true]

/-- `none` stands for `false`. -/
def parseRequestLine (rq : HttpRequest) (line : Bytes) : Option HttpRequest :=
  match fullMatch requestLinePattern line with
  | some [method, path, version] =>
    some { rq with method := method, path := path, version := version, state := .headers }
  | _ => none

def parseHeader (rq : HttpRequest) (line : Bytes) : HttpRequest :=
  match fullMatch headerPattern line with
  | some [name, value] => { rq with header := update rq.header name (some value) }
  | _ => { rq with state := .body }

def defaultHtml : List Bytes :=
  [bytes "/index", bytes "/register", bytes "/login", bytes "/welcome", bytes "/video",
    bytes "/picture"]

def defaultHtmlTag (path : Bytes) : Option Nat :=
  if path = bytes "/register.html" then some 0
  else if path = bytes "/login.html" then some 1
  else none

def parsedPath (path : Bytes) : Bytes :=
  if path = bytes "/" then bytes "/welcome.html"
  else if path ∈ defaultHtml then path ++ bytes ".html" else path

def parsePath (rq : HttpRequest) : HttpRequest := { rq with path := parsedPath rq.path }

def contentType : Bytes := bytes "Content-Type"

def parseDownload (svc : Services) (rq : HttpRequest) : HttpRequest :=
  match svc.json (cstr rq.body) with
  | none => rq
  | some doc =>
    let rq := match doc (bytes "fileName") with
      | some s => { rq with post := update rq.post (bytes "fileName") (some (cstr s)) }
      | none => rq
    match doc (bytes "folder") with
    | some s => { rq with post := update rq.post (bytes "folder") (some (cstr s)) }
    | none => rq

def parsePost (svc : Services) (rq : HttpRequest) : HttpRequest :=
  if contains rq.method (bytes "POST") then
    let rq := { rq with header := touch rq.header contentType }
    if lookup rq.header contentType = bytes "application/x-www-form-urlencoded" then
      let rq := rq.parseFromUrlencoded
      match defaultHtmlTag rq.path with
      | none => rq
      | some tag =>
        let rq := { rq with
          returnJs := true
          post := touch (touch rq.post (bytes "username")) (bytes "password") }
        rq.handleUserCommand svc (if tag = 1 then bytes "login" else bytes "register")
          (lookup rq.post (bytes "username")) (lookup rq.post (bytes "password"))
    else rq
  else rq

/-- The text logged first looks the content type up. -/
def parseBody (svc : Services) (rq : HttpRequest) (line : Bytes) : HttpRequest :=
  let rq := { rq with body := line, header := touch rq.header contentType }
  let rq := if contains rq.path (bytes "/download") ∧
      lookup rq.header contentType = bytes "application/json" then rq.parseDownload svc
    else rq.parsePost svc
  { rq with state := .finish }

-- ---------------------------------------------------------------------------
-- parse
-- ---------------------------------------------------------------------------

/-- The input of a turn of the loop of `parse` and how long it is. -/
def readInput (rq : HttpRequest) (buff : BufferBlock) : Except Fault (Int × Bytes) :=
  if rq.state ≠ .body then readLine buff
  else do
    let line ← buff.bufferToString
    pure (toInt line.length, line)

/-- The `switch` of `parse`; `none` where it returns. `readable` is
`buff.readableBytes()`, before this input is consumed. -/
def accept (svc : Services) (rq : HttpRequest) (line : Bytes) (readable : Nat) :
    Option HttpRequest :=
  match rq.state with
  | .requestLine => (rq.parseRequestLine line).map parsePath
  | .headers =>
    let rq := rq.parseHeader line
    some (if readable ≤ 2 then { rq with state := .finish } else rq)
  | .body => some (rq.parseBody svc line)
  | _ => some rq

def parseLoop (svc : Services) (startPos : Nat) :
    Nat → HttpRequest → BufferBlock → Except Fault (HttpRequest × BufferBlock × Bool)
  | 0, _, _ => .error .diverges
  | fuel + 1, rq, buff =>
    if buff.readableBytes = 0 ∨ rq.state = .finish then .ok (rq, buff, true)
    else do
      let (consumed, line) ← rq.readInput buff
      if consumed = 0 then pure (rq, { buff with readPos := startPos }, false)
      else
        match rq.accept svc line buff.readableBytes with
        | none => pure (rq, buff, false)
        | some rq => parseLoop svc startPos fuel rq (buff.consumeBytes (toSize consumed))

/-- Every turn but two reads a line out of the blocks. -/
def parse (svc : Services) (rq : HttpRequest) (buff : BufferBlock) :
    Except Fault (HttpRequest × BufferBlock × Bool) :=
  if buff.readableBytes = 0 then .ok (rq, buff, false)
  else rq.parseLoop svc buff.readPos ((buff.blocks.map Block.capacity).sum + 2) buff

-- ---------------------------------------------------------------------------
-- What the rest of the server asks of a request
-- ---------------------------------------------------------------------------

def getPost (rq : HttpRequest) (key : Bytes) : Bytes := lookup rq.post key

def isKeepAlive (rq : HttpRequest) : Bool :=
  match (rq.header (bytes "Connection")).map (·.map tolower) with
  | some connection =>
    if connection = bytes "close" then false
    else if connection = bytes "keep-alive" then true
    else rq.version = bytes "1.1"
  | none => rq.version = bytes "1.1"

end HttpRequest

end MudouHttp
