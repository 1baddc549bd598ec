import MudouHttp.Http.Connection
import MudouHttp.Mysql.LocalTexts

/-!
# The local arrays of a request

`parse`, `ParseBody_`, `ParsePost_` and `AddContent_` format log lines with
pieces of the request in local arrays, by `sprintf`, and a form leads to the
arrays of `Register` or `Login`. `parseTexts` follows `parse` turn by turn; after
a text that does not fit it goes on as if it did.
-/

namespace MudouHttp

variable [MySql]

namespace Database

def services (db : Database) (json : Bytes → Option (Bytes → Option Bytes)) : Services :=
  { register := fun username password => UserDao.register db username password = .ok true
    login := fun username password =>
      UserDao.login db.rows username password db.connected db.queried db.stored = .ok true
    json := json }

end Database

namespace HttpRequest

def userTexts (db : Database) (tag : Nat) (username password : Bytes) : List ArrayText :=
  (if tag = 1 then UserDao.loginTexts else UserDao.registerTexts) db username password

def postTexts (db : Database) (rq : HttpRequest) : List ArrayText :=
  if contains rq.method (bytes "POST") then
    let rq := { rq with header := touch rq.header contentType }
    if lookup rq.header contentType = bytes "application/x-www-form-urlencoded" then
      let rq := rq.parseFromUrlencoded
      match defaultHtmlTag rq.path with
      | none => []
      | some tag =>
        let post := touch (touch rq.post (bytes "username")) (bytes "password")
        ⟨128, bytes "Tag:" ++ bytes (toString tag)⟩ ::
          userTexts db tag (lookup post (bytes "username")) (lookup post (bytes "password"))
    else []
  else []

/-- `sprintf(buf,"Body:%s, len:%d", line.c_str(), line.size())`, which reads the
size as an `int`. -/
def bodyText (line : Bytes) : ArrayText :=
  ⟨256, bytes "Body:" ++ cstr line ++ bytes ", len:" ++ bytes (toString (toInt line.length))⟩

def bodyTexts (db : Database) (rq : HttpRequest) (line : Bytes) : List ArrayText :=
  let rq := { rq with body := line, header := touch rq.header contentType }
  (if contains rq.path (bytes "/download") ∧
      lookup rq.header contentType = bytes "application/json" then []
    else rq.postTexts db) ++ [bodyText line]

/-- `sprintf(buf,"[%s], [%s], [%s]",...)` at the end of `parse`. -/
def requestText (rq : HttpRequest) : ArrayText :=
  ⟨256, bytes "[" ++ cstr rq.method ++ bytes "], [" ++ cstr rq.path ++ bytes "], [" ++
    cstr rq.version ++ bytes "]"⟩

def acceptTexts (db : Database) (rq : HttpRequest) (line : Bytes) : List ArrayText :=
  match rq.state with
  | .body => rq.bodyTexts db line
  | _ => []

def parseLoopTexts (db : Database) (json : Bytes → Option (Bytes → Option Bytes)) :
    Nat → HttpRequest → BufferBlock → List ArrayText
  | 0, _, _ => []
  | fuel + 1, rq, buff =>
    if buff.readableBytes = 0 ∨ rq.state = .finish then [rq.requestText]
    else
      match rq.readInput buff with
      | .error _ => []
      | .ok (consumed, line) =>
        if consumed = 0 then []
        else
          match rq.accept (db.services json) line buff.readableBytes with
          | none => []
          | some rq₁ => rq.acceptTexts db line ++
              parseLoopTexts db json fuel rq₁ (buff.consumeBytes (toSize consumed))

def parseTexts (db : Database) (json : Bytes → Option (Bytes → Option Bytes)) (rq : HttpRequest)
    (buff : BufferBlock) : List ArrayText :=
  if buff.readableBytes = 0 then []
  else parseLoopTexts db json ((buff.blocks.map Block.capacity).sum + 2) rq buff

end HttpRequest

namespace HttpResponse

def contentTexts (fs : FileSystem) (r : HttpResponse) : List ArrayText :=
  if r.isJs then []
  else
    match fs.openFile r.filePath with
    | none => []
    | some _ => [⟨256, bytes "file path " ++ r.filePath⟩]

def responseTexts (fs : FileSystem) (r : HttpResponse) : List ArrayText :=
  (((r.findFile fs).1.errorHtml fs).1.addStateLine.1).contentTexts fs

end HttpResponse

namespace Connection

/-- The texts of a turn of `onmessage` that parses `buff` and answers. -/
def answerTexts (db : Database) (json : Bytes → Option (Bytes → Option Bytes))
    (buff : BufferBlock) (rq : HttpRequest) (r : HttpResponse) (fs : FileSystem) :
    List ArrayText :=
  HttpRequest.init.parseTexts db json buff ++ (initResponse rq r).1.responseTexts fs

end Connection

end MudouHttp
