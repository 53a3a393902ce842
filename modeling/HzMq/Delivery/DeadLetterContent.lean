import HzMq.Delivery.DeadLetter

/-!
# What a dead letter keeps of its message

`basic_nack` copies the whole payload of the refused message into
`dead_letter_msg` and then publishes something else: new properties that have an
id, a delivery mode and the configured routing key, and the body.
-/

namespace HzMq.Delivery

open VirtualHost QueueMessage

/-- The copy of `m` has its content, under a new id and the configured key, and is durable. -/
structure ContentKept (h : VirtualHost) (m copy : MessagePtr) (routingKey : Bytes) : Prop where
  body : copy.body = m.body
  properties : copy.payload.properties =
    { m.payload.properties with id := copy.id, deliveryMode := .durable, routingKey }
  fresh : ∀ name, ∀ x ∈ h.contents name, x.id ≠ copy.id

def LettersKeep (h h' : VirtualHost) (m : MessagePtr) (routingKey : Bytes) : Prop :=
  ∀ name, ∀ copy ∈ h'.contents name, copy ∉ h.contents name → ContentKept h m copy routingKey

def Bare (props : BasicProperties) : Prop :=
  { props with id := [], deliveryMode := .undurable, routingKey := [] } = ({} : BasicProperties)

instance (props : BasicProperties) : Decidable (Bare props) := inferInstanceAs (Decidable (_ = _))

def NextNumberUnused (h : VirtualHost) : Prop :=
  ∀ name, ∀ x ∈ h.contents name, x.id ≠ toStdString ((h.seq + 1) % 2 ^ 64)

/-- What makes the dead letter of `m` a faithful copy: there is nothing in the properties to be
lost, no other message of that id comes first, and the number is free. -/
structure Copyable (h : VirtualHost) (queueName : Bytes) (m : MessagePtr) : Prop where
  bare : Bare m.payload.properties
  first : ∀ t, (h.contents queueName).find? (fun x => x.id == m.id) = some t → t.body = m.body
  unused : NextNumberUnused h

section Letters

variable {matchHeaders : StrMap Bytes → StrMap Bytes → Bool} {h : VirtualHost}

theorem exists_named_accepted {should : Binding → Bool} {entries : List (Bytes × Binding)}
    {queueName : Bytes} {binding : Binding} (member : (queueName, binding) ∈ entries)
    (matching : should binding = true) (named : queueName ≠ []) :
    ∃ taker ∈ accepted should (some []) entries, taker ≠ [] := by
  induction entries with
  | nil => cases member
  | cons entry rest ih =>
    obtain ⟨name, first⟩ := entry
    rw [accepted]
    by_cases taken : should first = true
    · simp only [taken, acceptsKey, beq_self_eq_true, Bool.true_or, Bool.and_self, if_true,
        Option.map_some]
      by_cases unnamed : name = []
      · -- an empty name leaves the key empty, and the rest is as before
        have later : (queueName, binding) ∈ rest := by
          refine (List.mem_cons.mp member).resolve_left fun here => named ?_
          rw [(Prod.mk.inj here).1, unnamed]
        obtain ⟨taker, inRest, set⟩ := ih later
        exact ⟨taker, List.mem_cons_of_mem _ (unnamed ▸ inRest), set⟩
      · exact ⟨name, List.mem_cons_self, unnamed⟩
    · have later : (queueName, binding) ∈ rest := by
        refine (List.mem_cons.mp member).resolve_left fun here => taken ?_
        rw [← (Prod.mk.inj here).2, matching]
      simpa [taken] using ih later

theorem mem_letterQueues {config : DeadLetterConfig} {visit : Visit Binding} {name : Bytes}
    (taker : name ∈ letterQueues matchHeaders visit h config) :
    DeadLetterTarget matchHeaders h config name ∧
      (config.routingKey = [] ∨ name = config.routingKey) := by
  unfold letterQueues at taker
  cases found : h.selectExchange config.exchangeName with
  | none => simp [found] at taker
  | some exchange =>
    simp only [found] at taker
    obtain ⟨binding, visited, matching⟩ := mem_accepted taker
    refine ⟨⟨exchange, binding, found, visit.mem_order.mp visited, matching⟩, ?_⟩
    by_cases empty : config.routingKey = []
    · exact Or.inl empty
    · exact Or.inr (eq_key_of_mem_accepted empty taker)

/-- The queues that take the letter have the key for a name exactly when all have that could. -/
theorem forall_letterQueues_iff (config : DeadLetterConfig) (visit : Visit Binding) (P : Prop) :
    (∀ name ∈ letterQueues matchHeaders visit h config, name = config.routingKey ∧ P) ↔
      ∀ name, DeadLetterTarget matchHeaders h config name →
        (config.routingKey = [] ∨ name = config.routingKey) → name = config.routingKey ∧ P := by
  constructor
  · intro all name isTarget allowed
    have some' : letterQueues matchHeaders visit h config ≠ [] :=
      (letterQueues_ne_nil_iff config visit).mpr ⟨name, isTarget, allowed⟩
    obtain ⟨taker, taken⟩ := List.exists_mem_of_ne_nil _ some'
    refine ⟨?_, (all taker taken).2⟩
    by_cases empty : config.routingKey = []
    · by_contra named
      rw [empty] at named
      obtain ⟨exchange, binding, found, bound, matching⟩ := isTarget
      rw [empty] at matching
      obtain ⟨other, accepts, set⟩ :=
        exists_named_accepted (visit.mem_order.mpr bound) matching named
      have takes : other ∈ letterQueues matchHeaders visit h config := by
        simpa only [letterQueues, found, empty] using accepts
      exact set ((all other takes).1.trans empty)
    · exact allowed.resolve_left empty
  · intro all name taker
    obtain ⟨isTarget, allowed⟩ := mem_letterQueues taker
    exact all name isTarget allowed

theorem new_iff_logged {h' : VirtualHost} {queueName : Bytes} {rest : List MessagePtr}
    {log : List (Bytes × MessagePtr)}
    (result : ∀ name, h'.contents name = Function.update h.contents queueName rest name ++
      (log.filter fun e => e.1 = name).map Prod.snd)
    (old : ∀ x ∈ rest, x ∈ h.contents queueName) (fresh : ∀ e ∈ log, e.2 ∉ h.contents e.1)
    (name : Bytes) (copy : MessagePtr) :
    copy ∈ h'.contents name ∧ copy ∉ h.contents name ↔ (name, copy) ∈ log := by
  rw [result, List.mem_append]
  constructor
  · rintro ⟨kept | logged, notHeld⟩
    · exfalso
      by_cases here : name = queueName
      · rw [here, Function.update_self] at kept
        exact notHeld (here ▸ old copy kept)
      · rw [Function.update_of_ne here] at kept
        exact notHeld kept
    · obtain ⟨e, filtered, rfl⟩ := List.mem_map.mp logged
      obtain ⟨inLog, named⟩ := List.mem_filter.mp filtered
      have here : e.1 = name := by simpa using named
      exact here ▸ inLog
  · intro inLog
    exact ⟨Or.inr (List.mem_map_of_mem (List.mem_filter.mpr ⟨inLog, by simp⟩)), fresh _ inLog⟩

/-- The properties of a letter are those of the message, with their three changes, only when the
message had no more to give. -/
theorem letterProps_eq_iff (config : DeadLetterConfig) (name : Bytes) (props : BasicProperties) :
    letterProps h config name =
        { props with
          id := h.generateId.1, deliveryMode := .durable, routingKey := config.routingKey } ↔
      name = config.routingKey ∧ Bare props := by
  simp only [letterProps, dlqProps, Bare, BasicProperties.mk.injEq, true_and]
  constructor
  · rintro ⟨named, rest⟩
    simp [named, ← rest]
  · rintro ⟨named, rest⟩
    simp [named, rest]

theorem contentKept_iff {queueName : Bytes} {m t : MessagePtr} {config : DeadLetterConfig}
    {e : Bytes × MessagePtr}
    (first : (h.contents queueName).find? (fun x => x.id == m.id) = some t)
    (copied : e.2.body = t.body ∧ e.2.payload.properties? = some (letterProps h config e.1)) :
    ContentKept h m e.2 config.routingKey ↔ e.1 = config.routingKey ∧ Copyable h queueName m := by
  obtain ⟨sameBody, props⟩ := copied
  have numbered : e.2.id = h.generateId.1 := MessagePtr.id_of_properties props
  have carried : e.2.payload.properties = letterProps h config e.1 := by
    rw [MessagePayload.properties, props, Option.getD_some]
  constructor
  · rintro ⟨body, properties, fresh⟩
    rw [carried, numbered, letterProps_eq_iff] at properties
    refine ⟨properties.1, properties.2, ?_, ?_⟩
    · intro other found
      rw [first, Option.some.injEq] at found
      rw [← found, ← sameBody, body]
    · rw [numbered] at fresh
      exact fresh
  · rintro ⟨named, bare, body, unused⟩
    refine ⟨sameBody.trans (body t first), ?_, ?_⟩
    · rw [carried, numbered, letterProps_eq_iff]
      exact ⟨named, bare⟩
    · rw [numbered]
      exact unused

end Letters

variable (codec : Codec) (matchHeaders : StrMap Bytes → StrMap Bytes → Bool)

/-- Dead letters keep the content of the refused message exactly when no queue takes one, or the
message has nothing to lose and the key is the name of the queue it goes to. -/
theorem deadLetter_keeps_iff {h : VirtualHost} (reached : h.Reachable codec matchHeaders)
    {queueName : Bytes} {info : MsgQueue} (known : h.queueMgr.selectQueue queueName = some info)
    (configured : info.hasDeadLetterConfig = true) {m : MessagePtr}
    (held : m ∈ h.contents queueName) (visit : Visit Binding) (reason : Bytes) :
    LettersKeep h (h.basicNack codec matchHeaders visit queueName m.id false reason) m
        info.dlqConfig.routingKey ↔
      ∀ name, DeadLetterTarget matchHeaders h info.dlqConfig name →
        (info.dlqConfig.routingKey = [] ∨ name = info.dlqConfig.routingKey) →
          name = info.dlqConfig.routingKey ∧ Copyable h queueName m := by
  have ok := reached.wellFormed
  obtain ⟨⟨removed, rest⟩, found⟩ := Option.isSome_iff_exists.mp (target_isSome_of_mem held)
  obtain ⟨t, first⟩ : ∃ t, (h.contents queueName).find? (fun x => x.id == m.id) = some t := by
    rw [← Option.isSome_iff_exists, List.find?_isSome]
    exact ⟨m, held, by simp⟩
  rw [basicNack_eq_deadLetter ok known configured first visit reason]
  obtain ⟨log, copies, names, result⟩ :=
    deadLetter_contents codec matchHeaders ok configured found t visit
  have isNew := new_iff_logged result (fun x kept => (mem_of_target found).mpr (Or.inr kept))
    fun e inLog => (copies e inLog).2
  calc LettersKeep h (h.deadLetter codec matchHeaders visit queueName m.id info.dlqConfig t) m
        info.dlqConfig.routingKey
      ↔ ∀ e ∈ log, ContentKept h m e.2 info.dlqConfig.routingKey :=
        ⟨fun all e inLog => all e.1 e.2 ((isNew _ _).mpr inLog).1 ((isNew _ _).mpr inLog).2,
          fun all name copy new notHeld => all (name, copy) ((isNew name copy).mp ⟨new, notHeld⟩)⟩
    _ ↔ ∀ e ∈ log, e.1 = info.dlqConfig.routingKey ∧ Copyable h queueName m :=
        forall₂_congr fun e inLog => contentKept_iff first (copies e inLog).1
    _ ↔ ∀ name ∈ letterQueues matchHeaders visit h info.dlqConfig,
          name = info.dlqConfig.routingKey ∧ Copyable h queueName m := by
        rw [← names, List.forall_mem_map]
    _ ↔ _ := forall_letterQueues_iff info.dlqConfig visit _

def letterHost (props : BasicProperties) : VirtualHost :=
  Machine.exec (HostOp.apply Wire.codec fun _ _ => false)
    .blank
    [.declareExchange (str "dlq_exchange") .direct false false ∅,
      .declareQueue (str "dlq_queue") false false false ∅,
      .bind (str "dlq_exchange") (str "dlq_queue") (str "dlq_queue") ∅,
      .declareQueueWithDlq (str "test_queue") false false false ∅
        ⟨str "dlq_exchange", str "dlq_queue", 3⟩,
      .basicPublish (str "test_queue") (some props) (str "TestMessage")]

def refusedMessage (props : BasicProperties) : MessagePtr :=
  ⟨0, { payload :=
    { properties? := some { props with id := str "1", routingKey := str "test_queue" }
      body := str "TestMessage" } }⟩

def letterMessage : MessagePtr :=
  ⟨0, { payload :=
    { properties? :=
        some { id := str "2", deliveryMode := .durable, routingKey := str "dlq_queue" }
      body := str "TestMessage" } }⟩

theorem letterHost_reachable (props : BasicProperties) :
    (letterHost props).Reachable Wire.codec fun _ _ => false :=
  Machine.Reachable.exec (.start blank_initial) _

/-- A message that was published without properties has nothing to lose. -/
theorem deadLetter_keeps_example :
    LettersKeep (letterHost {})
      ((letterHost {}).basicNack Wire.codec (fun _ _ => false) .stored (str "test_queue")
        (refusedMessage {}).id false (str "Processing failed"))
      (refusedMessage {}) (str "dlq_queue") :=
  (deadLetter_keeps_iff Wire.codec (fun _ _ => false) (letterHost_reachable {})
    (show _ = some { name := str "test_queue",
                     dlqConfig := ⟨str "dlq_exchange", str "dlq_queue", 3⟩ } from rfl)
    rfl (show refusedMessage {} ∈ _ by decide) .stored (str "Processing failed")).mpr
    fun _ _ allowed =>
      ⟨allowed.resolve_left (by decide), by decide,
        fun t found => by
          have same : refusedMessage {} = t := Option.some.inj (Eq.trans (by decide) found)
          rw [← same],
        forall_mem_contents (by decide)⟩

/-- A message with a priority loses it. -/
theorem deadLetter_drops_priority :
    (letterHost { priority := 5 }).Reachable Wire.codec (fun _ _ => false) ∧
      (letterHost { priority := 5 }).queueMgr.selectQueue (str "test_queue") =
        some { name := str "test_queue", dlqConfig := ⟨str "dlq_exchange", str "dlq_queue", 3⟩ } ∧
      (letterHost { priority := 5 }).contents (str "test_queue") =
        [refusedMessage { priority := 5 }] ∧
      ¬ LettersKeep (letterHost { priority := 5 })
        ((letterHost { priority := 5 }).basicNack Wire.codec (fun _ _ => false) .stored
          (str "test_queue") (refusedMessage { priority := 5 }).id false (str "Processing failed"))
        (refusedMessage { priority := 5 }) (str "dlq_queue") := by
  refine ⟨letterHost_reachable _, rfl, by decide, ?_⟩
  intro keeps
  have kept := (keeps (str "dlq_queue") letterMessage (by decide) (by decide)).properties
  have samePriority : (0 : Int32) = 5 := congrArg BasicProperties.priority kept
  exact absurd samePriority (by decide)

end HzMq.Delivery
