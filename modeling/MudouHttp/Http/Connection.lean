import MudouHttp.Http.Delivery
import MudouHttp.Http.Response
import MudouHttp.Reactor.Sending

/-!
# A connection that answers requests

`Connection::onmessage` and `Connection::writecallback` together: a chunk is
parsed, and if that completes a request the response is appended to
`outputbuffer_`.
-/

namespace MudouHttp

structure Connection extends Receiver where
  response : HttpResponse
  sending : Sending

/-- The chunk and the system calls of one `onmessage`, or how the `writev` of
one `writecallback` ends. -/
inductive ConnectionEvent
  | onmessage (d : Delivery) (fs : FileSystem)
  | writecallback (result : Writev)

namespace Connection

def start : Connection :=
  { Receiver.start with response := .new, sending := .start }

def appendAll (s : Sending) : List Bytes → Except Fault Sending
  | [] => .ok s
  | text :: texts => do
    let s ← s.step (.append text)
    appendAll s texts

/-- `Init` as it is called: the flags go to the parameters `isKeepAlive`,
`is_js`, `is_js_success` and `is_download` in this order, `code` is left out. -/
def initResponse (rq : HttpRequest) (r : HttpResponse) : HttpResponse × List Syscall :=
  if contains rq.path (bytes "/download") ∧ rq.method = bytes "POST" then
    let folder := rq.getPost (bytes "folder")
    let fileName := rq.getPost (bytes "fileName")
    let realPath := bytes "/" ++ folder ++ bytes "/" ++ fileName
    r.init (bytes "./html") realPath rq.returnJs rq.isSuccessJs rq.isDownload rq.isKeepAlive (-1)
  else
    r.init (bytes "./html") rq.path rq.returnJs rq.isSuccessJs rq.isDownload rq.isKeepAlive (-1)

/-- The mapped file, `FileLen()` bytes of it. -/
def fileTexts (r : HttpResponse) : Except Fault (List Bytes) :=
  match r.mmFile with
  | none => .ok []
  | some mapping =>
    if r.mmFileStat.size ≤ mapping.bytes.length then .ok [mapping.bytes.take r.mmFileStat.size]
    else .error .outOfBounds

/-- The branch of `onmessage` where `parse` succeeded, and `send`. -/
def respond (c : Connection) (fs : FileSystem) : Except Fault (Connection × List Syscall) := do
  let (response, initCalls) := initResponse c.request c.response
  let (response, texts, calls) := response.makeResponse fs
  let file ← fileTexts response
  let sending ← appendAll c.sending (texts ++ file)
  let sending ← sending.step .sendinloop
  pure ({ c with response := response, sending := sending }, initCalls ++ calls)

def onmessage (c : Connection) (d : Delivery) (fs : FileSystem) :
    Except Fault (Connection × List Syscall) := do
  let (r, parsed) ← c.toReceiver.receive d
  let c := { c with toReceiver := r }
  if parsed then c.respond fs else pure (c, [])

/-- Whether the connection is kept open is asked of `request_`. -/
def writecallback (c : Connection) (result : Writev) :
    Except Fault (Connection × List WriteEffect) := do
  let (sending, effects) ← c.sending.writecallback c.request.isKeepAlive result
  pure ({ c with sending := sending }, effects)

def step (c : Connection) : ConnectionEvent → Except Fault Connection
  | .onmessage d fs => do pure (← c.onmessage d fs).1
  | .writecallback result => do pure (← c.writecallback result).1

end Connection

end MudouHttp
