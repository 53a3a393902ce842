import HzMq.Common.Message
import HzMq.Common.Queue
import HzMq.Library.Words
import HzMq.Server.Route

/-!
# The command line of the client (`client.cpp`)

A line is read word by word with `>>`, where a word that is not there is empty. Only
`publish` reads past the words: its message is the rest of the line. Whatever a
command cannot read it does not complain about.
-/

namespace HzMq

/-- The messages that the client sends. A `bindRequest` has no field for the arguments
that the command line collects. -/
inductive ClientMessage
  | openChannel (rid cid : Bytes)
  | closeChannel (rid cid : Bytes)
  | declareExchange (rid cid exchangeName : Bytes) (exchangeType : ExchangeType)
      (durable autoDelete : Bool)
  | declareQueue (rid cid queueName : Bytes) (exclusive durable autoDelete : Bool)
  | bind (rid cid exchangeName queueName bindingKey : Bytes) (bindingArgs : StrMap Bytes)
  | basicPublish (rid cid exchangeName : Bytes) (properties : Option BasicProperties)
      (body : Bytes)
  | basicAck (rid cid queueName messageId : Bytes)
  | basicConsume (rid cid consumerTag queueName : Bytes) (autoAck : Bool)
  | basicCancel (rid cid consumerTag queueName : Bytes)
  | basicQuery (rid cid : Bytes)
  | queueStatus (rid cid queueName : Bytes)
  | heartbeat (rid : Bytes)
  deriving DecidableEq

namespace Client

open Words

inductive Action
  | send (message : ClientMessage)
  | unknown
  | leave
  deriving DecidableEq

/-- `isspace` in the classic locale. -/
def isSpace (c : UInt8) : Bool := c == 32 || (9 ≤ c && c ≤ 13)

def wordsOf (iss : Bytes) : List Bytes := all isSpace iss.length iss

def exchangeTypeOf (etype : Bytes) : ExchangeType :=
  if etype = str "fanout" then .fanout
  else if etype = str "topic" then .topic
  else if etype = str "headers" then .headers
  else .direct

/-- `std::getline` up to the end of the line, less one space. -/
def messageOf (iss : Bytes) : Bytes :=
  let msg := iss.takeWhile fun c => c != 10
  if msg.head? = some 32 then msg.tail else msg

/-- The words of the message are its headers, too. -/
def publishProperties (rkey msg : Bytes) : Option BasicProperties :=
  if rkey = [] then none
  else
    some { routingKey := rkey, deliveryMode := .undurable,
           headers := (wordsOf msg).foldl MsgQueue.readPair ∅ }

section Handlers

variable (iss : Bytes)

def openCommand : ClientMessage :=
  let (cid, _) := next isSpace iss
  .openChannel (str "cli-open-" ++ cid) cid

def closeCommand : ClientMessage :=
  let (cid, _) := next isSpace iss
  .closeChannel (str "cli-close-" ++ cid) cid

def exchangeDeclareCommand : ClientMessage :=
  let (ename, iss) := next isSpace iss
  let (etype, _) := next isSpace iss
  .declareExchange (str "cli-exdec-" ++ ename) (str "0") ename (exchangeTypeOf etype) false false

def queueDeclareCommand : ClientMessage :=
  let (qname, _) := next isSpace iss
  .declareQueue (str "cli-qdec-" ++ qname) (str "0") qname false false false

def bindCommand : ClientMessage :=
  let (exch, iss) := next isSpace iss
  let (qname, iss) := next isSpace iss
  let (key, iss) := next isSpace iss
  .bind (str "cli-bind-" ++ exch ++ str "-" ++ qname) (str "0") exch qname key
    ((wordsOf iss).foldl MsgQueue.readPair ∅)

def publishCommand : ClientMessage :=
  let (exch, iss) := next isSpace iss
  let (rkey, iss) := next isSpace iss
  let msg := messageOf iss
  .basicPublish (str "cli-pub-" ++ exch) (str "0") exch (publishProperties rkey msg) msg

def pullCommand : ClientMessage :=
  let (cid, _) := next isSpace iss
  .basicQuery (str "cli-query-" ++ cid) cid

def consumeCommand : ClientMessage :=
  let (cid, iss) := next isSpace iss
  let (qname, iss) := next isSpace iss
  let (tag, _) := next isSpace iss
  .basicConsume (str "cli-consume-" ++ cid) cid tag qname true

def cancelCommand : ClientMessage :=
  let (cid, iss) := next isSpace iss
  let (tag, iss) := next isSpace iss
  let (qname, _) := next isSpace iss
  .basicCancel (str "cli-cancel-" ++ cid) cid tag qname

def queueStatusCommand : ClientMessage :=
  let (cid, iss) := next isSpace iss
  let (qname, _) := next isSpace iss
  .queueStatus (str "cli-qstatus-" ++ qname) cid qname

def handlers : List (Bytes × (Bytes → ClientMessage)) :=
  [(str "open", openCommand), (str "close", closeCommand),
    (str "exchange_declare", exchangeDeclareCommand), (str "queue_declare", queueDeclareCommand),
    (str "bind", bindCommand), (str "publish", publishCommand), (str "pull", pullCommand),
    (str "consume", consumeCommand), (str "cancel", cancelCommand),
    (str "queue_status", queueStatusCommand)]

/-- One line of the loop, which skips an empty one. -/
def command (line : Bytes) : Option Action :=
  if line = [] then none
  else
    let (cmd, iss) := next isSpace line
    match handlers.find? fun h => h.1 == cmd with
    | some h => some (.send (h.2 iss))
    | none => some (if cmd = str "exit" then .leave else .unknown)

end Handlers

def Action.message? : Action → Option ClientMessage
  | .send message => some message
  | _ => none

/-- The message that a line sends, if it is a command that sends one. -/
def messageSent (line : Bytes) : Option ClientMessage := (command line).bind Action.message?

section Reading

theorem wordsOf_eq (iss : Bytes) : wordsOf iss = pieces isSpace iss :=
  all_eq_pieces iss (Nat.le_refl _)

/-- Every handler but one looks at the words only. -/
theorem handler_reads_words {h : Bytes × (Bytes → ClientMessage)} (member : h ∈ handlers)
    (other : h.1 ≠ str "publish") {iss iss' : Bytes}
    (same : pieces isSpace iss = pieces isSpace iss') : h.2 iss = h.2 iss' := by
  simp only [handlers, List.mem_cons, List.not_mem_nil, or_false] at member
  rcases member with rfl | rfl | rfl | rfl | rfl | rfl | rfl | rfl | rfl | rfl
  case inr.inr.inr.inr.inr.inl => exact absurd rfl other
  all_goals
    simp only [openCommand, closeCommand, exchangeDeclareCommand, queueDeclareCommand, bindCommand,
      pullCommand, consumeCommand, cancelCommand, queueStatusCommand, fst_next, pieces_snd_next,
      wordsOf_eq, same]

theorem messageSent_eq (line : Bytes) :
    messageSent line = (handlers.find? fun h => h.1 == (pieces isSpace line).headD []).map
      fun h => h.2 (next isSpace line).2 := by
  rw [← fst_next, messageSent, command]
  split
  · next empty =>
    rw [empty]
    rfl
  · simp only
    cases found : handlers.find? fun h => h.1 == (next isSpace line).1 with
    | some h => rfl
    | none =>
      rw [Option.bind_some, Option.map_none]
      split <;> rfl

def Gap (gap : Bytes) : Prop := gap ≠ [] ∧ ∀ c ∈ gap, isSpace c = true

theorem next_gap {gap : Bytes} (blank : ∀ c ∈ gap, isSpace c = true) (text : Bytes) :
    next isSpace (gap ++ text) = next isSpace text := by
  induction gap with
  | nil => rfl
  | cons c gap ih =>
    obtain ⟨here, later⟩ := List.forall_mem_cons.mp blank
    rw [List.cons_append, next_blank here, ih later]

theorem Gap.breaks {gap : Bytes} (isGap : Gap gap) (text : Bytes) :
    Breaks isSpace (gap ++ text) := by
  obtain ⟨c, gap, rfl⟩ := List.exists_cons_of_ne_nil isGap.1
  exact breaks_cons (isGap.2 c List.mem_cons_self) _

theorem next_gap_word {gap word rest : Bytes} (blank : ∀ c ∈ gap, isSpace c = true)
    (isWord : IsWord isSpace word) (breaks : Breaks isSpace rest) :
    next isSpace (gap ++ (word ++ rest)) = (word, rest) := by
  rw [next_gap blank, next_append isWord breaks]

theorem messageOf_space {msg : Bytes} (oneLine : (10 : UInt8) ∉ msg) :
    messageOf (32 :: msg) = msg := by
  have whole : (32 :: msg).takeWhile (fun c => c != 10) = 32 :: msg := by
    refine List.takeWhile_eq_self_iff.mpr ?_
    intro c member
    rcases List.mem_cons.mp member with rfl | inside
    · rfl
    · simpa using fun same : c = 10 => oneLine (same ▸ inside)
  rw [messageOf, whole]
  rfl

def publishLine (gap exch gap' rkey msg : Bytes) : Bytes :=
  str "publish" ++ (gap ++ (exch ++ (gap' ++ (rkey ++ 32 :: msg))))

/-- Lines with the same words send the same, whatever is between the words, unless they
publish; a publication sends what is behind the key and one space, byte for byte. -/
theorem line_reads_words :
    (∀ line line', pieces isSpace line' = pieces isSpace line →
      (pieces isSpace line).head? ≠ some (str "publish") →
        messageSent line' = messageSent line) ∧
    ∀ gap exch gap' rkey msg, Gap gap → IsWord isSpace exch → Gap gap' → IsWord isSpace rkey →
      (10 : UInt8) ∉ msg →
        messageSent (publishLine gap exch gap' rkey msg) =
          some (.basicPublish (str "cli-pub-" ++ exch) (str "0") exch
            (some { routingKey := rkey
                    headers := (pieces isSpace msg).foldl MsgQueue.readPair ∅ }) msg) := by
  constructor
  · intro line line' same other
    rw [messageSent_eq, messageSent_eq, same]
    cases found : handlers.find? fun h => h.1 == (pieces isSpace line).headD [] with
    | none => rfl
    | some h =>
      have named : h.1 = (pieces isSpace line).headD [] := by simpa using List.find?_some found
      refine congrArg some (handler_reads_words (List.mem_of_find?_eq_some found) ?_ ?_)
      · intro publishes
        refine other ?_
        rw [named] at publishes
        cases words : pieces isSpace line with
        | nil =>
          rw [words] at publishes
          exact absurd publishes (by decide)
        | cons cmd args =>
          rw [words, List.headD_cons] at publishes
          rw [List.head?_cons, publishes]
      · rw [pieces_snd_next, pieces_snd_next, same]
  · intro gap exch gap' rkey msg isGap isExch isGap' isKey oneLine
    have isPublish : IsWord isSpace (str "publish") := by
      unfold IsWord
      decide +kernel
    have cmd : next isSpace (publishLine gap exch gap' rkey msg) = (str "publish", _) :=
      next_append isPublish (isGap.breaks _)
    have first := next_gap_word isGap.2 isExch (isGap'.breaks (rkey ++ 32 :: msg))
    have second := next_gap_word isGap'.2 isKey (breaks_cons (c := 32) (by decide +kernel) msg)
    have found : (handlers.find? fun h => h.1 == str "publish") =
        some (str "publish", publishCommand) := rfl
    rw [messageSent_eq, ← fst_next, cmd, found, Option.map_some]
    simp only [publishCommand, first, second, publishProperties, if_neg isKey.1,
      messageOf_space oneLine, wordsOf_eq]

/-- A header is read off the text that is sent. -/
theorem line_reads_words_example :
    messageSent (str "publish  news q to=all, hello") =
      some (.basicPublish (str "cli-pub-news") (str "0") (str "news")
        (some { routingKey := str "q"
                headers := (pieces isSpace (str "to=all, hello")).foldl MsgQueue.readPair ∅ })
        (str "to=all, hello")) :=
  line_reads_words.2 (str "  ") (str "news") (str " ") (str "q") (str "to=all, hello")
    (by unfold Gap; decide +kernel) (by unfold IsWord; decide +kernel)
    (by unfold Gap; decide +kernel) (by unfold IsWord; decide +kernel) (by decide +kernel)

end Reading

end Client

end HzMq
