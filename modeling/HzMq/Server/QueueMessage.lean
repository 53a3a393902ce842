import HzMq.Common.Message
import HzMq.Library.FramedLog
import HzMq.Library.FileStream

/-!
# One queue's messages and their file (`queue_message.hpp`)

The deque of message pointers together with the `.mqd` file behind it. The file
system is passed along; the stream is the one member `file_`, shared by reading
and writing. A `std::streampos` of -1 (`none`) becomes `2 ^ 64 - 1` when it is
stored as a message's `uint64` offset.
-/

namespace HzMq

open FileStream FramedLog

def offsetOfPos : Option Nat → Nat
  | some pos => pos % 2 ^ 64
  | none => 2 ^ 64 - 1

structure QueueMessage where
  msgs : List MessagePtr := []
  filePath : Bytes
  file : Stream
  /-- How many messages this object has queued so far; numbers the next one. -/
  pushed : Nat := 0

namespace QueueMessage

def path (baseDir queueName : Bytes) : Bytes := baseDir ++ str "/" ++ queueName ++ str ".mqd"

/-- The constructor: open the file, or create it and open it again. Creating the
base directory is part of what makes a path `openable`. A relative base directory
is given with the working directory in front of it. -/
def new (fs : FileSystem) (baseDir queueName : Bytes) : QueueMessage × FileSystem :=
  let filePath := path baseDir queueName
  let file : Stream := Stream.openInOut {} fs filePath
  if file.isOpen then ({ filePath, file }, fs)
  else
    let (file, fs) := file.clear.openOut fs filePath
    ({ filePath, file := file.close.openInOut fs filePath }, fs)

def front (q : QueueMessage) : Option MessagePtr := q.msgs.head?

def getableCount (q : QueueMessage) : Nat := q.msgs.length

def getAllMessages (q : QueueMessage) : List MessagePtr := q.msgs

section Codec

variable (codec : Codec)

def writePersistent (file : Stream) (fs : FileSystem) (msg : Message) :
    Bool × Message × Stream × FileSystem :=
  if file.isOpen then
    let payload := msg.payload.setValid validMark
    let data := codec.serializeToString payload
    let len := data.length % 2 ^ 32
    let file := file.seekpEnd fs
    let pos := file.tellp
    let (file, fs) := file.write fs (le32 len)
    let (file, fs) := file.write fs data
    (file.good, { payload, offset := offsetOfPos pos, length := 4 + len }, file, fs)
  else (false, msg, file, fs)

def makeMessage (bp : Option BasicProperties) (body : Bytes) : Message :=
  { payload := { properties? := bp, body } }

/-- The durable branch of `insert`, with the answer of `write_persistent`. -/
def persist (file : Stream) (fs : FileSystem) (msg : Message) (durable : Bool) :
    Bool × Message × Stream × FileSystem :=
  if durable then writePersistent codec file fs msg else (false, msg, file, fs)

/-- `insert` queues the message and answers true whether or not it was written. -/
def insert (q : QueueMessage) (fs : FileSystem) (bp : Option BasicProperties) (body : Bytes)
    (durable : Bool) : Bool × QueueMessage × FileSystem :=
  let (_, msg, file, fs) := persist codec q.file fs (makeMessage bp body) durable
  (true, { q with msgs := q.msgs ++ [⟨q.pushed, msg⟩], file, pushed := q.pushed + 1 }, fs)

def invalidatePersistent (file : Stream) (fs : FileSystem) (msg : Message) :
    Stream × FileSystem :=
  if msg.length = 0 then (file, fs)
  else if file.isOpen then
    let data := codec.serializeToString (msg.payload.setValid invalidMark)
    let len := data.length % 2 ^ 32
    let file := file.seekp ((msg.offset + 4) % 2 ^ 64)
    file.write fs (data.take len)
  else (file, fs)

/-- `remove`: the empty id pops the head, any other id erases its first bearer. -/
def remove (q : QueueMessage) (fs : FileSystem) (id : Bytes) : QueueMessage × FileSystem :=
  match q.msgs with
  | [] => (q, fs)
  | head :: rest =>
    if id = [] then
      let (file, fs) := invalidatePersistent codec q.file fs head.msg
      ({ q with msgs := rest, file }, fs)
    else
      match q.msgs.find? fun m => m.id == id with
      | none => (q, fs)
      | some m =>
        let (file, fs) := invalidatePersistent codec q.file fs m.msg
        ({ q with msgs := q.msgs.eraseP fun m => m.id == id, file }, fs)

/-- The reading loop of `recovery`; `fuel` bounds the number of records. -/
def recoveryLoop (fs : FileSystem) : Nat → Stream → Option Nat → List Message →
    Stream × List Message
  | 0, file, _, loaded => (file, loaded)
  | fuel + 1, file, pos, loaded =>
    match file.read fs 4 with
    | (none, file) => (file, loaded)
    | (some header, file) =>
      let len := ofLe32 header
      match file.read fs len with
      | (none, file) => (file, loaded)
      | (some data, file) =>
        match codec.parseFromString data with
        | none => (file, loaded)
        | some payload =>
          let msg : Message := { payload, offset := offsetOfPos pos, length := 4 + len }
          recoveryLoop fs fuel file file.tellg
            (if payload.valid = validMark then loaded ++ [msg] else loaded)

def recovery (q : QueueMessage) (fs : FileSystem) : QueueMessage :=
  if q.file.isOpen then
    let file := q.file.seekgBeg
    let (file, loaded) :=
      recoveryLoop codec fs ((fs.content file.key).length + 1) file file.tellg []
    { q with
      msgs := q.msgs ++ MessagePtr.number q.pushed loaded
      file
      pushed := q.pushed + loaded.length }
  else q

structure Stats where
  depth : Nat := 0
  fileSize : Nat := 0
  /-- `invalid_ratio` is the quotient of these two counts. -/
  invalid : Nat := 0
  total : Nat := 0
  deriving DecidableEq, Repr

def statsLoop (fs : FileSystem) : Nat → Stream → Nat → Nat → Stream × Nat × Nat
  | 0, file, total, invalid => (file, total, invalid)
  | fuel + 1, file, total, invalid =>
    match file.read fs 4 with
    | (none, file) => (file, total, invalid)
    | (some header, file) =>
      match file.read fs (ofLe32 header) with
      | (none, file) => (file, total, invalid)
      | (some data, file) =>
        match codec.parseFromString data with
        | none => (file, total, invalid)
        | some payload =>
          statsLoop fs fuel file (total + 1)
            (if payload.valid = validMark then invalid else invalid + 1)

/-- `get_stats` clears the stream before and after it reads. -/
def getStats (q : QueueMessage) (fs : FileSystem) : Stats × QueueMessage :=
  let stats : Stats := { depth := q.msgs.length
                         fileSize := (fs.content (resolve q.filePath)).length }
  if q.file.isOpen then
    let file := q.file.clear.seekgBeg
    let (file, total, invalid) := statsLoop codec fs ((fs.content file.key).length + 1) file 0 0
    ({ stats with total, invalid }, { q with file := file.clear.seekgEnd fs })
  else (stats, q)

def compactLoop : Stream → FileSystem → Option Nat → List MessagePtr →
    List MessagePtr × Stream × FileSystem
  | tmp, fs, _, [] => ([], tmp, fs)
  | tmp, fs, pos, m :: ms =>
    let data := codec.serializeToString m.payload
    let len := data.length % 2 ^ 32
    let (tmp, fs) := tmp.write fs (le32 len)
    let (tmp, fs) := tmp.write fs data
    let moved : MessagePtr :=
      { m with msg := { m.msg with offset := offsetOfPos pos, length := 4 + len } }
    let (ms, tmp, fs) := compactLoop tmp fs tmp.tellp ms
    (moved :: ms, tmp, fs)

def compact (q : QueueMessage) (fs : FileSystem) : QueueMessage × FileSystem :=
  if q.file.isOpen then
    let tmpPath := q.filePath ++ str ".tmp"
    let (tmp, fs) := Stream.openOut {} fs tmpPath
    if tmp.isOpen then
      let (msgs, _, fs) := compactLoop codec tmp fs (some 0) q.msgs
      let fs := fs.rename (resolve tmpPath) (resolve q.filePath)
      ({ q with msgs, file := q.file.close.openInOut fs q.filePath }, fs)
    else (q, fs)
  else (q, fs)

end Codec

/-- Where the file that was `key` is after a compaction, which renames the temporary file if it
can open it. -/
def follow (q : QueueMessage) (fs : FileSystem) (key : PathKey) : PathKey :=
  let tmpKey := resolve (q.filePath ++ str ".tmp")
  if q.file.isOpen && fs.openable tmpKey then fs.follow tmpKey (resolve q.filePath) key else key

end QueueMessage

end HzMq
