import HzMq.Common.StdString
import HzMq.Server.VirtualHost

/-!
# The management interface (`management_http.cpp`)

One read, at most 4095 bytes, is the whole request. The text that `printf` makes of
the ratio is a parameter, as is the codec. Beside what is written back, the calls to
the host are kept in the order in which they are made.
-/

namespace HzMq

/-- The difference of two `size_t`, which wraps below zero. -/
def sizeSub (a b : Nat) : Nat := (a + (2 ^ 64 - b)) % 2 ^ 64

/-- `snprintf` into a buffer of this size, up to the final zero byte. -/
def snprintf (size : Nat) (text : Bytes) : Bytes := text.take (size - 1)

namespace ManagementHttp

inductive HostCall
  | queueRuntimeStats (queueName : Bytes)
  | existsQueue (queueName : Bytes)
  | compactQueue (queueName : Bytes)
  deriving DecidableEq

structure Handled where
  written : Bytes
  calls : List HostCall
  host : VirtualHost

inductive Target
  | stats (qname : Bytes)
  | compact (qname : Bytes)
  | notFound
  deriving DecidableEq

def space : UInt8 := 32

/-- What the one call of `read` returns, if the request arrives in one piece: `buf` has room for
this many bytes and a final zero. -/
def received (sent : Bytes) : Bytes := sent.take (4096 - 1)

/-- Method and path; a request without a second space is dropped. -/
def requestLine (req : Bytes) : Option (Bytes × Bytes) :=
  match findChar req space 0 with
  | none => none
  | some pos1 =>
    match findChar req space (pos1 + 1) with
    | none => none
    | some pos2 =>
      some (substr req 0 pos1, substr req (pos1 + 1) (sizeSub (sizeSub pos2 pos1) 1))

def onQueue (path suffix : Bytes) : Bool :=
  (str "/queues/").isPrefixOf path && decide (8 < path.length) && (find path suffix 8).isSome

def target (method path : Bytes) : Target :=
  if method == str "GET" && onQueue path (str "/stats") then
    .stats (substr path 8 (sizeSub (sizeSub path.length 8) 6))
  else if method == str "POST" && onQueue path (str "/compact") then
    .compact (substr path 8 (sizeSub (sizeSub path.length 8) 8))
  else .notFound

def response (size : Nat) (header body : Bytes) : Bytes :=
  snprintf size (header ++ toStdString body.length ++ str "\r\n\r\n") ++ body

def okHeader : Bytes :=
  str "HTTP/1.1 200 OK\r\nContent-Type: application/json\r\nContent-Length: "

def statsBody (invalidRatio : QueueMessage.Stats → Bytes) (exists' : Bool)
    (stats : QueueMessage.Stats) : Bytes :=
  snprintf 256 (str "\x7b\"exists\":" ++ (if exists' then str "true" else str "false") ++
    str ",\"depth\":" ++ toStdString stats.depth ++
    str ",\"file_size\":" ++ toStdString stats.fileSize ++
    str ",\"invalid_ratio\":" ++ invalidRatio stats ++ str "\x7d")

def notFound : Bytes :=
  response 128 (str "HTTP/1.1 404 Not Found\r\nContent-Length: ") (str "Not Found")

section Handler

variable (codec : Codec) (invalidRatio : QueueMessage.Stats → Bytes)

def answer (host : VirtualHost) : Target → Handled
  | .stats qname =>
    let (qstat, host) := host.queueRuntimeStats codec qname
    let exists' := host.queueMgr.exists? qname
    ⟨response 256 okHeader (statsBody invalidRatio exists' qstat),
      [.queueRuntimeStats qname, .existsQueue qname], host⟩
  | .compact qname =>
    ⟨response 128 okHeader (str "\x7b\"ok\":true\x7d"), [.compactQueue qname],
      host.compactQueue codec qname⟩
  | .notFound => ⟨notFound, [], host⟩

def handleClient (host : VirtualHost) (sent : Bytes) : Handled :=
  match requestLine (received sent) with
  | none => ⟨[], [], host⟩
  | some (method, path) => answer codec invalidRatio host (target method path)

def HostCall.apply (host : VirtualHost) : HostCall → VirtualHost
  | .queueRuntimeStats queueName => (host.queueRuntimeStats codec queueName).2
  | .existsQueue _ => host
  | .compactQueue queueName => host.compactQueue codec queueName

/-- A request changes the host by its calls and in no other way. -/
theorem handleClient_host (host : VirtualHost) (sent : Bytes) :
    let handled := handleClient codec invalidRatio host sent
    handled.host = handled.calls.foldl (HostCall.apply codec) host := by
  unfold handleClient
  split
  · rfl
  · next method path _ =>
    cases target method path <;> rfl

end Handler

end ManagementHttp

end HzMq
