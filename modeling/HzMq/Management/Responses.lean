import HzMq.Library.HeadedText
import HzMq.Management.Requests
import HzMq.Service.View

/-!
# Responses of the management interface

A client cuts a response into a head of lines and a body, and takes the response only
if the body has as many bytes as the head announces. What it reads then is what holds
of the host, on which the request has left everything there is to see as it was.
-/

namespace HzMq.ManagementHttp

open FileStream QueueMessage

inductive Reply
  | stats (exists' : Bool) (depth fileSize : Nat) (invalidRatio : Bytes)
  | done
  | notFound
  deriving DecidableEq

namespace Reply

def contentLength (lines : List Bytes) : Option Nat :=
  (lines.find? (str "Content-Length: ").isPrefixOf).bind fun line => number (line.drop 16)

def value (fields : List (Bytes × Bytes)) (name : Bytes) : Option Bytes :=
  (fields.find? fun field => field.1 == name).map Prod.snd

def ofObject (fields : List (Bytes × Bytes)) : Option Reply :=
  if value fields (str "\"ok\"") = some (str "true") then some .done
  else do
    let truth ← value fields (str "\"exists\"")
    let depth ← (value fields (str "\"depth\"")).bind number
    let fileSize ← (value fields (str "\"file_size\"")).bind number
    let invalidRatio ← value fields (str "\"invalid_ratio\"")
    some (.stats (truth == str "true") depth fileSize invalidRatio)

/-- `\r`, `\n`, and the marks of an object. -/
def read (bytes : Bytes) : Option Reply := do
  let (lines, body) ← HeadedText.read 13 10 bytes
  if contentLength lines ≠ some body.length then none
  else if lines.head? = some (str "HTTP/1.1 200 OK") then
    (FlatObject.read 123 125 44 58 body).bind ofObject
  else if lines.head? = some (str "HTTP/1.1 404 Not Found") then some .notFound
  else none

end Reply

/-- `%.3f` of a quotient between zero and one. -/
def ThreePlaces (invalidRatio : Stats → Bytes) : Prop :=
  ∀ stats, stats.invalid ≤ stats.total → (invalidRatio stats).length = 5 ∧
    ∀ b ∈ invalidRatio stats, 48 ≤ b ∧ b ≤ 57 ∨ b = 46

section Truth

variable (codec : Codec) (invalidRatio : Stats → Bytes) (host : VirtualHost)

/-- What there is to count of a queue: its letters, the bytes of the file under its path, and the
records that can be read in the file its stream is on. The two are one file unless a compaction
of another queue has replaced it. -/
def counted (queueName : Bytes) : Stats :=
  match host.queueMessages.lookup queueName with
  | none => {}
  | some store =>
    let records :=
      if store.file.isOpen then readable codec (host.fs.content store.file.key) else []
    { depth := (host.service.letters queueName).length
      fileSize := (host.fs.content (resolve (path host.baseDir queueName))).length
      invalid := records.countP fun e => !isValid e
      total := records.length }

def told : Target → Reply
  | .stats queueName =>
    let stats := counted codec host queueName
    .stats (host.service.queues queueName).isSome stats.depth stats.fileSize (invalidRatio stats)
  | .compact _ => .done
  | .notFound => .notFound

end Truth

section Framing

variable {size : Nat} {header body : Bytes} {lines : List Bytes}

/-- A header that fits its buffer gives lines, of which the last counts the body. -/
theorem read_response
    (split : header = lines.flatMap (fun line => line ++ [13, 10]) ++ str "Content-Length: ")
    (plain : ∀ line ∈ lines,
      (line ≠ [] ∧ 13 ∉ line) ∧ (str "Content-Length: ").isPrefixOf line = false)
    (fits : header.length + (toStdString body.length).length + 4 < size) :
    HeadedText.read 13 10 (response size header body) =
        some (lines ++ [str "Content-Length: " ++ toStdString body.length], body) ∧
      Reply.contentLength (lines ++ [str "Content-Length: " ++ toStdString body.length]) =
        some body.length := by
  have blank : str "\r\n\r\n" = [13, 10, 13, 10] := by decide
  constructor
  · have rendered : response size header body = HeadedText.render 13 10
        (lines ++ [str "Content-Length: " ++ toStdString body.length]) body := by
      rw [response, snprintf, List.take_of_length_le, split, blank]
      · simp [HeadedText.render]
      · simp only [blank, List.length_append, List.length_cons, List.length_nil]
        omega
    rw [rendered]
    refine HeadedText.read_render fun line member => ?_
    rcases List.mem_append.mp member with early | last
    · exact (plain line early).1
    · rw [List.mem_singleton.mp last]
      have before : 13 ∉ str "Content-Length: " := by decide
      refine ⟨List.append_ne_nil_of_right_ne_nil _ (toStdString_ne_nil _), ?_⟩
      rw [List.mem_append, not_or]
      exact ⟨before, fun digit => absurd (digit_of_mem_toStdString digit) (by decide)⟩
  · have early : lines.find? (str "Content-Length: ").isPrefixOf = none :=
      List.find?_eq_none.mpr fun line member => by simp [(plain line member).2]
    have last : (str "Content-Length: ").isPrefixOf
        (str "Content-Length: " ++ toStdString body.length) = true :=
      List.isPrefixOf_iff_prefix.mpr (List.prefix_append _ _)
    rw [Reply.contentLength, List.find?_append, early, Option.none_or, List.find?_cons_of_pos last,
      Option.bind_some, show 16 = (str "Content-Length: ").length by decide, List.drop_left,
      number_toStdString]

theorem read_ok (fits : (toStdString body.length).length + 70 ≤ size) :
    Reply.read (response size okHeader body) =
      (FlatObject.read 123 125 44 58 body).bind Reply.ofObject := by
  have lengths : okHeader.length = 65 := by decide
  obtain ⟨framed, announced⟩ := @read_response size okHeader body
    [str "HTTP/1.1 200 OK", str "Content-Type: application/json"] (by decide) (by decide) (by omega)
  rw [Reply.read, framed]
  simp only [Option.bind_eq_bind, Option.bind_some, announced]
  rw [if_neg (not_not_intro rfl)]
  exact if_pos rfl

theorem read_notFound : Reply.read notFound = some .notFound := by decide +kernel

theorem read_done : Reply.read (response 128 okHeader (str "\x7b\"ok\":true\x7d")) =
    some .done := by decide +kernel

end Framing

section Body

variable {invalidRatio : Stats → Bytes} {stats : Stats}

def statsFields (invalidRatio : Stats → Bytes) (exists' : Bool) (stats : Stats) :
    List (Bytes × Bytes) :=
  [(str "\"exists\"", if exists' then str "true" else str "false"),
    (str "\"depth\"", toStdString stats.depth), (str "\"file_size\"", toStdString stats.fileSize),
    (str "\"invalid_ratio\"", invalidRatio stats)]

theorem statsBody_eq (three : (invalidRatio stats).length = 5) (depth : stats.depth < 2 ^ 64)
    (fileSize : stats.fileSize < 2 ^ 64) (exists' : Bool) :
    statsBody invalidRatio exists' stats =
        FlatObject.render 123 125 44 58 (statsFields invalidRatio exists' stats) ∧
      (statsBody invalidRatio exists' stats).length < 256 := by
  have digits := toStdString_length_le depth
  have digits' := toStdString_length_le fileSize
  have opening : str "\x7b\"exists\":" = 123 :: (str "\"exists\"" ++ [58]) := by decide
  have second : str ",\"depth\":" = 44 :: (str "\"depth\"" ++ [58]) := by decide
  have third : str ",\"file_size\":" = 44 :: (str "\"file_size\"" ++ [58]) := by decide
  have fourth : str ",\"invalid_ratio\":" = 44 :: (str "\"invalid_ratio\"" ++ [58]) := by decide
  have closing : str "\x7d" = [125] := by decide
  have truth : (if exists' then str "true" else str "false").length ≤ 5 := by
    cases exists' <;> decide
  have text : str "\x7b\"exists\":" ++ (if exists' then str "true" else str "false") ++
      str ",\"depth\":" ++ toStdString stats.depth ++ str ",\"file_size\":" ++
      toStdString stats.fileSize ++ str ",\"invalid_ratio\":" ++ invalidRatio stats ++
      str "\x7d" = FlatObject.render 123 125 44 58 (statsFields invalidRatio exists' stats) := by
    rw [opening, second, third, fourth, closing]
    simp [FlatObject.render, statsFields, FlatObject.renderField, List.intercalate]
  have short : (FlatObject.render 123 125 44 58
      (statsFields invalidRatio exists' stats)).length < 256 := by
    rw [← text]
    have names : (str "\x7b\"exists\":").length = 10 ∧ (str ",\"depth\":").length = 9 ∧
        (str ",\"file_size\":").length = 13 ∧ (str ",\"invalid_ratio\":").length = 17 ∧
        (str "\x7d").length = 1 := by decide
    obtain ⟨n₁, n₂, n₃, n₄, n₅⟩ := names
    simp only [List.length_append]
    omega
  rw [statsBody, text, snprintf, List.take_of_length_le (by omega)]
  exact ⟨rfl, short⟩

theorem read_stats (three : (invalidRatio stats).length = 5 ∧
      ∀ b ∈ invalidRatio stats, 48 ≤ b ∧ b ≤ 57 ∨ b = 46)
    (depth : stats.depth < 2 ^ 64) (fileSize : stats.fileSize < 2 ^ 64) (exists' : Bool) :
    Reply.read (response 256 okHeader (statsBody invalidRatio exists' stats)) =
      some (.stats exists' stats.depth stats.fileSize (invalidRatio stats)) := by
  obtain ⟨text, short⟩ := statsBody_eq three.1 depth fileSize exists'
  have digits := toStdString_length_le (n := (statsBody invalidRatio exists' stats).length)
    (Nat.lt_trans short (by decide))
  have fields : FlatObject.read 123 125 44 58 (statsBody invalidRatio exists' stats) =
      some (statsFields invalidRatio exists' stats) := by
    rw [text]
    refine FlatObject.read_render (by decide) (List.cons_ne_nil _ _) ?_
    -- neither digits nor the words are marks
    have plain (n : Nat) {mark : UInt8} (isMark : mark = 44 ∨ mark = 58) :
        mark ∉ toStdString n := by
      intro digit
      have range := digit_of_mem_toStdString digit
      rcases isMark with rfl | rfl <;> exact absurd range (by decide)
    simp only [statsFields, List.forall_mem_cons, List.not_mem_nil, false_implies, implies_true,
      and_true]
    refine ⟨?_, ?_, ?_, ?_⟩ <;> intro mark isMark
    · rcases isMark with rfl | rfl <;> cases exists' <;> decide
    · exact ⟨by rcases isMark with rfl | rfl <;> decide, plain _ isMark⟩
    · exact ⟨by rcases isMark with rfl | rfl <;> decide, plain _ isMark⟩
    · refine ⟨by rcases isMark with rfl | rfl <;> decide, fun digit => ?_⟩
      have range := three.2 mark digit
      rcases isMark with rfl | rfl <;> exact absurd range (by decide)
  have truth : ((if exists' then str "true" else str "false") == str "true") = exists' := by
    cases exists' <;> decide
  rw [read_ok (by omega), fields, Option.bind_some]
  have names : Reply.value (statsFields invalidRatio exists' stats) (str "\"ok\"") = none ∧
      Reply.value (statsFields invalidRatio exists' stats) (str "\"exists\"") =
        some (if exists' then str "true" else str "false") ∧
      Reply.value (statsFields invalidRatio exists' stats) (str "\"depth\"") =
        some (toStdString stats.depth) ∧
      Reply.value (statsFields invalidRatio exists' stats) (str "\"file_size\"") =
        some (toStdString stats.fileSize) ∧
      Reply.value (statsFields invalidRatio exists' stats) (str "\"invalid_ratio\"") =
        some (invalidRatio stats) := by
    refine ⟨rfl, rfl, rfl, rfl, rfl⟩
  obtain ⟨ok, exists'', depth', fileSize', ratio⟩ := names
  simp [Reply.ofObject, ok, exists'', depth', fileSize', ratio, number_toStdString, truth]

end Body

section Host

variable {codec : Codec} {invalidRatio : Stats → Bytes} {host : VirtualHost}

theorem queueRuntimeStats_eq (ok : host.WellFormed) (queueName : Bytes) :
    (host.queueRuntimeStats codec queueName).1 = counted codec host queueName := by
  rw [VirtualHost.queueRuntimeStats, counted]
  cases stored : host.queueMessages.lookup queueName with
  | none => rfl
  | some store =>
    have filePath := ok.paths queueName store stored
    have depth : (host.service.letters queueName).length = store.msgs.length := by
      rw [VirtualHost.service_letters, VirtualHost.contents_of_lookup stored, lettersOf,
        List.length_map]
    rw [depth]
    cases isOpen : store.file.isOpen with
    | false => simp [QueueMessage.getStats, isOpen, filePath]
    | true =>
      obtain ⟨total, invalid⟩ := getStats_counts codec store host.fs isOpen
      simp only [if_true, ← total, ← invalid, QueueMessage.getStats, isOpen, filePath]

variable (codec) in
theorem counted_small (depths : ∀ queueName, (host.contents queueName).length < 2 ^ 64)
    (queueName : Bytes) : (counted codec host queueName).depth < 2 ^ 64 ∧
      (counted codec host queueName).fileSize < 2 ^ 64 ∧
      (counted codec host queueName).invalid ≤ (counted codec host queueName).total := by
  rw [counted]
  cases host.queueMessages.lookup queueName with
  | none => exact ⟨Nat.two_pow_pos 64, Nat.two_pow_pos 64, Nat.le_refl 0⟩
  | some store =>
    refine ⟨?_, ?_, List.countP_le_length⟩
    · simpa [lettersOf] using depths queueName
    · have inside := host.fs.content_length_le (resolve (path host.baseDir queueName))
      exact Nat.lt_of_le_of_lt inside (Nat.lt_trans host.fs.capacity_lt (by decide))

theorem answer_told (ok : host.WellFormed) (three : ThreePlaces invalidRatio)
    (depths : ∀ queueName, (host.contents queueName).length < 2 ^ 64) (wanted : Target) :
    Reply.read (answer codec invalidRatio host wanted).written =
      some (told codec invalidRatio host wanted) := by
  cases wanted with
  | stats queueName =>
    obtain ⟨depth, fileSize, counts⟩ := counted_small codec depths queueName
    have exists' : (host.queueRuntimeStats codec queueName).2.queueMgr.exists? queueName =
        (host.service.queues queueName).isSome := by
      rw [(VirtualHost.Frame.queueRuntimeStats host queueName).queueMgr,
        VirtualHost.service_queues, Option.isSome_map]
      rfl
    simp only [answer, told, queueRuntimeStats_eq ok, exists']
    exact read_stats (three _ counts) depth fileSize _
  | compact queueName => exact read_done
  | notFound => exact read_notFound

theorem answer_service (wanted : Target) :
    (answer codec invalidRatio host wanted).host.service = host.service := by
  cases wanted with
  | stats queueName => exact VirtualHost.queueRuntimeStats_service host queueName
  | compact queueName => exact VirtualHost.compactQueue_service host queueName
  | notFound => rfl

end Host

/-- A durable queue with one message in memory and in its file. -/
def askedHost : VirtualHost :=
  Machine.exec (HostOp.apply Wire.codec fun _ _ => false) .blank
    [.declareQueue (str "q") true false false ∅, .queueRuntimeStats (str "q"),
      .basicPublish (str "q") none (str "x")]

theorem askedHost_depths (queueName : Bytes) : (askedHost.contents queueName).length < 2 ^ 64 := by
  by_cases known : queueName = str "q"
  · rw [known]
    decide +kernel
  · have others : queueName ∉ askedHost.queueMessages.keys := by
      rw [show askedHost.queueMessages.keys = [str "q"] by decide +kernel]
      simpa using known
    rw [VirtualHost.contents, AList.lookup_eq_none.mpr others]
    exact Nat.two_pow_pos 64

end HzMq.ManagementHttp
