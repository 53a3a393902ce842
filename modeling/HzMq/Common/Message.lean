import HzMq.Common.StdTypes

/-!
# Messages (`msg.proto`)

The protobuf records, and the part of the protobuf library the broker uses. The
generated code is not in the repository, so serialisation and parsing are a
parameter: of every codec the model asks two documented facts, that nothing
longer than 2 GiB is produced and that the one-byte values of `valid` have the
same length on the wire. That parsing undoes serialisation is assumed payload
by payload (`RoundTrips`).
-/

namespace HzMq

/-- Protobuf enumerations are open, so the type has room for unknown numbers. -/
inductive DeliveryMode
  | undurable
  | durable
  | other (value : Int32)
  deriving DecidableEq, Repr

structure BasicProperties where
  id : Bytes := []
  deliveryMode : DeliveryMode := .undurable
  routingKey : Bytes := []
  headers : StrMap Bytes := ∅
  priority : Int32 := 0
  timestamp : Int64 := 0
  contentType : Bytes := []
  contentEncoding : Bytes := []
  correlationId : Bytes := []
  replyTo : Bytes := []
  expiration : Int64 := 0
  messageId : Bytes := []
  deliveryTag : Int32 := 0
  redelivered : Bool := false
  exchange : Bytes := []
  userId : Bytes := []
  appId : Bytes := []
  clusterId : Bytes := []
  deriving DecidableEq

structure MessagePayload where
  /-- A submessage, so it may be absent. -/
  properties? : Option BasicProperties := none
  body : Bytes := []
  valid : Bytes := []
  deriving DecidableEq

/-- Reading an absent submessage gives the default one. -/
def MessagePayload.properties (p : MessagePayload) : BasicProperties := p.properties?.getD {}

def MessagePayload.setValid (p : MessagePayload) (valid : Bytes) : MessagePayload :=
  { p with valid := valid }

@[simp] theorem MessagePayload.setValid_valid (p : MessagePayload) (v : Bytes) :
    (p.setValid v).valid = v := rfl

theorem MessagePayload.setValid_of_valid {p : MessagePayload} {v : Bytes} (h : p.valid = v) :
    p.setValid v = p := by
  cases p
  simp only [setValid] at *
  rw [h]

/-- The three values of `valid` the broker ever writes; the last is the unset field. -/
def validMark : Bytes := str "1"

def invalidMark : Bytes := str "0"

theorem validMark_ne_invalidMark : validMark ≠ invalidMark := by decide

theorem validMark_ne_nil : validMark ≠ [] := by decide

/-- `offset` and `length` are `uint64` fields: numbers below `2 ^ 64`. -/
structure Message where
  payload : MessagePayload := {}
  offset : Nat := 0
  length : Nat := 0
  deriving DecidableEq

/-- A `std::shared_ptr<Message>`: which object it points to and what is there.
The objects of one store are numbered in the order in which they were queued. -/
structure MessagePtr where
  addr : Nat
  msg : Message
  deriving DecidableEq

namespace MessagePtr

def payload (m : MessagePtr) : MessagePayload := m.msg.payload

def id (m : MessagePtr) : Bytes := m.msg.payload.properties.id

def body (m : MessagePtr) : Bytes := m.msg.payload.body

theorem id_of_properties {m : MessagePtr} {props : BasicProperties}
    (given : m.payload.properties? = some props) : m.id = props.id := by
  rw [id, MessagePayload.properties, ← payload, given, Option.getD_some]

def number : Nat → List Message → List MessagePtr
  | _, [] => []
  | addr, m :: ms => ⟨addr, m⟩ :: number (addr + 1) ms

@[simp] theorem number_nil (addr : Nat) : number addr [] = [] := rfl

@[simp] theorem number_cons (addr : Nat) (m : Message) (ms : List Message) :
    number addr (m :: ms) = ⟨addr, m⟩ :: number (addr + 1) ms := rfl

@[simp] theorem number_map_msg (addr : Nat) (ms : List Message) :
    (number addr ms).map MessagePtr.msg = ms := by
  induction ms generalizing addr with
  | nil => rfl
  | cons m ms ih => simp [ih]

theorem mem_number {addr : Nat} {ms : List Message} {m : MessagePtr}
    (member : m ∈ number addr ms) : m.msg ∈ ms := by
  rw [← number_map_msg addr ms]
  exact List.mem_map_of_mem member

theorem number_map_addr (addr : Nat) (ms : List Message) :
    (number addr ms).map MessagePtr.addr = List.range' addr ms.length := by
  induction ms generalizing addr with
  | nil => rfl
  | cons m ms ih => simp [ih, List.range'_succ]

theorem number_payload_addr (addr : Nat) (ms : List Message) :
    (number addr ms).map (fun m => (m.payload, m.addr)) =
      (ms.map Message.payload).zipIdx addr := by
  induction ms generalizing addr with
  | nil => rfl
  | cons m ms ih =>
    simp only [number_cons, List.map_cons, List.zipIdx_cons, ih]
    rfl

end MessagePtr

structure Codec where
  serializeToString : MessagePayload → Bytes
  parseFromString : Bytes → Option MessagePayload
  /-- protobuf produces no message of 2 GiB or more. -/
  size_lt : ∀ p, (serializeToString p).length < 2 ^ 31
  /-- Rewriting one one-byte `valid` by another keeps the length. -/
  length_setValid : ∀ p : MessagePayload,
    (serializeToString (p.setValid invalidMark)).length =
      (serializeToString (p.setValid validMark)).length

def Codec.RoundTrips (codec : Codec) (p : MessagePayload) : Prop :=
  codec.parseFromString (codec.serializeToString p) = some p

instance (codec : Codec) (p : MessagePayload) : Decidable (codec.RoundTrips p) :=
  inferInstanceAs (Decidable (_ = _))

/-- What is written for a payload is the same but for one byte when its mark changes. -/
def Codec.MarksOneByte (codec : Codec) : Prop :=
  ∀ p : MessagePayload, codec.RoundTrips (p.setValid validMark) → ∃ front back : Bytes,
    codec.serializeToString (p.setValid validMark) = front ++ validMark ++ back ∧
      codec.serializeToString (p.setValid invalidMark) = front ++ invalidMark ++ back

theorem Codec.size_lt_word (codec : Codec) (p : MessagePayload) :
    (codec.serializeToString p).length < 2 ^ 32 := 
  Nat.lt_trans (codec.size_lt p) (by decide)

end HzMq
