import HzMq.Common.Message

/-!
# The wire format of `msg.proto`

The proto3 encoding of the two records that are stored, in field order: numbers
as varints, strings and submessages length-delimited, fields with their default
value left out. It makes `Codec` concrete, for runs on given inputs. The check
of UTF-8 in string fields is not part of it.
-/

namespace HzMq.Wire

def varint : Nat → Nat → Bytes
  | 0, _ => []
  | fuel + 1, n =>
    if n < 128 then [UInt8.ofNat n] else UInt8.ofNat (n % 128 + 128) :: varint fuel (n / 128)

def varint64 (n : Nat) : Bytes := varint 10 n

def tag (field wireType : Nat) : Bytes := varint64 (8 * field + wireType)

/-- A length-delimited field that is present whatever its content. -/
def delimited (field : Nat) (content : Bytes) : Bytes :=
  tag field 2 ++ varint64 content.length ++ content

def stringField (field : Nat) (content : Bytes) : Bytes :=
  if content = [] then [] else delimited field content

/-- Signed numbers are sign-extended to 64 bits. -/
def intField (field : Nat) (value : Int) : Bytes :=
  if value = 0 then [] else tag field 0 ++ varint64 (value % 2 ^ 64).toNat

def boolField (field : Nat) (value : Bool) : Bytes := intField field value.toInt

def modeNumber : DeliveryMode → Int
  | .undurable => 0
  | .durable => 1
  | .other value => value.toInt

def mapField (field : Nat) (m : StrMap Bytes) : Bytes :=
  m.pairs.flatMap fun (key, value) => delimited field (delimited 1 key ++ delimited 2 value)

def properties (p : BasicProperties) : Bytes :=
  stringField 1 p.id ++ intField 2 (modeNumber p.deliveryMode) ++ stringField 3 p.routingKey ++
    mapField 4 p.headers ++ intField 5 p.priority.toInt ++ intField 6 p.timestamp.toInt ++
    stringField 7 p.contentType ++ stringField 8 p.contentEncoding ++
    stringField 9 p.correlationId ++ stringField 10 p.replyTo ++
    intField 11 p.expiration.toInt ++ stringField 12 p.messageId ++
    intField 13 p.deliveryTag.toInt ++ boolField 14 p.redelivered ++ stringField 15 p.exchange ++
    stringField 16 p.userId ++ stringField 17 p.appId ++ stringField 18 p.clusterId

def payload (p : MessagePayload) : Bytes :=
  (match p.properties? with
    | none => []
    | some props => delimited 1 (properties props)) ++
  stringField 2 p.body ++ stringField 3 p.valid

inductive Field
  | number (n : Nat)
  | content (bytes : Bytes)

def readVarint : Nat → Bytes → Option (Nat × Bytes)
  | 0, _ => none
  | _ + 1, [] => none
  | fuel + 1, b :: bs =>
    if b < 128 then some (b.toNat, bs)
    else (readVarint fuel bs).map fun (n, rest) => (b.toNat - 128 + 128 * n, rest)

def readFields : Nat → Bytes → Option (List (Nat × Field))
  | _, [] => some []
  | 0, _ :: _ => none
  | fuel + 1, b :: bs =>
    match readVarint 10 (b :: bs) with
    | none => none
    | some (key, rest) =>
      if key / 8 = 0 then none
      else
        match key % 8 with
        | 0 =>
          match readVarint 10 rest with
          | none => none
          | some (n, rest) => (readFields fuel rest).map ((key / 8, .number n) :: ·)
        | 1 => if rest.length < 8 then none else readFields fuel (rest.drop 8)
        | 2 =>
          match readVarint 10 rest with
          | none => none
          | some (n, rest) =>
            if rest.length < n then none
            else (readFields fuel (rest.drop n)).map ((key / 8, .content (rest.take n)) :: ·)
        | 5 => if rest.length < 4 then none else readFields fuel (rest.drop 4)
        | _ => none

def fields (bytes : Bytes) : Option (List (Nat × Field)) := readFields bytes.length bytes

def setMode (n : Nat) : DeliveryMode :=
  if Int32.ofNat n = 0 then .undurable
  else if Int32.ofNat n = 1 then .durable
  else .other (Int32.ofNat n)

def mapEntry (entry : Bytes × Bytes) : Nat × Field → Bytes × Bytes
  | (1, .content key) => (key, entry.2)
  | (2, .content value) => (entry.1, value)
  | _ => entry

def setProperty (p : BasicProperties) : Nat × Field → Option BasicProperties
  | (1, .content s) => some { p with id := s }
  | (2, .number n) => some { p with deliveryMode := setMode n }
  | (3, .content s) => some { p with routingKey := s }
  | (4, .content s) => (fields s).map fun entries =>
      let (key, value) := entries.foldl mapEntry ([], [])
      { p with headers := p.headers.insert key value }
  | (5, .number n) => some { p with priority := Int32.ofNat n }
  | (6, .number n) => some { p with timestamp := Int64.ofNat n }
  | (7, .content s) => some { p with contentType := s }
  | (8, .content s) => some { p with contentEncoding := s }
  | (9, .content s) => some { p with correlationId := s }
  | (10, .content s) => some { p with replyTo := s }
  | (11, .number n) => some { p with expiration := Int64.ofNat n }
  | (12, .content s) => some { p with messageId := s }
  | (13, .number n) => some { p with deliveryTag := Int32.ofNat n }
  | (14, .number n) => some { p with redelivered := n ≠ 0 }
  | (15, .content s) => some { p with exchange := s }
  | (16, .content s) => some { p with userId := s }
  | (17, .content s) => some { p with appId := s }
  | (18, .content s) => some { p with clusterId := s }
  | _ => some p

def setPayload (p : MessagePayload) : Nat × Field → Option MessagePayload
  | (1, .content s) => do
      let entries ← fields s
      let props ← entries.foldlM setProperty p.properties
      some { p with properties? := some props }
  | (2, .content s) => some { p with body := s }
  | (3, .content s) => some { p with valid := s }
  | _ => some p

def parsePayload (bytes : Bytes) : Option MessagePayload := do
  (← fields bytes).foldlM setPayload {}

theorem payload_setValid_length (p : MessagePayload) (v w : Bytes) (one : v.length = 1)
    (two : w.length = 1) : (payload (p.setValid v)).length = (payload (p.setValid w)).length := by
  have stored {u : Bytes} (h : u.length = 1) : (stringField 3 u).length = 3 := by
    have present : u ≠ [] := by
      rintro rfl
      cases h
    simp [stringField, present, delimited, h, tag, varint64, varint]
  simp only [payload, MessagePayload.setValid, List.length_append, stored one, stored two]

/-- Records past the 2 GiB limit are not produced. -/
def codec : Codec where
  serializeToString p := if (payload p).length < 2 ^ 31 then payload p else []
  parseFromString := parsePayload
  size_lt p := by
    split
    · assumption
    · simp
  length_setValid p := by
    have same := payload_setValid_length p invalidMark validMark rfl rfl
    simp only [same]
    split
    · exact same
    · rfl

/-- The mark is the last field. -/
theorem payload_setValid (p : MessagePayload) (v : Bytes) :
    payload (p.setValid v) = payload (p.setValid []) ++ stringField 3 v :=
  congrArg (· ++ stringField 3 v) (List.append_nil _).symm

theorem codec_marksOneByte : codec.MarksOneByte := by
  intro p written
  have same := payload_setValid_length p invalidMark validMark rfl rfl
  by_cases small : (payload (p.setValid validMark)).length < 2 ^ 31
  · refine ⟨payload (p.setValid []) ++ [26, 1], [], ?_, ?_⟩
    · rw [List.append_nil, List.append_assoc]
      exact (if_pos small).trans (payload_setValid p validMark)
    · rw [List.append_nil, List.append_assoc]
      exact (if_pos (same ▸ small)).trans (payload_setValid p invalidMark)
  · have nothing : codec.serializeToString (p.setValid validMark) = [] := if_neg small
    rw [Codec.RoundTrips, nothing] at written
    exact absurd (congrArg MessagePayload.valid (Option.some.inj written)).symm validMark_ne_nil

example : codec.RoundTrips
    { properties? := some { id := str "a", routingKey := str "q", deliveryMode := .durable
                            timestamp := -5, headers := (∅ : StrMap Bytes).insert (str "k") [] }
      body := str "hello", valid := validMark } := by decide

end HzMq.Wire
