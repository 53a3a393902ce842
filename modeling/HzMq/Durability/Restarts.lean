import HzMq.Durability.Steps

/-!
# The disk is a memory

A host that lives through any number of restarts does what the durable service does,
which has a memory and no disk. What this takes of the host's surroundings: every queue
has a file of its own, only durable queues are compacted, and a durable queue changes
while its stream is healthy, which after a recovery means once `get_stats` has cleared it.
-/

namespace HzMq.Durability

open FileStream FramedLog VirtualHost QueueMessage Persistence Delivery HzMq.Topology Machine

variable (codec : Codec) (matchHeaders : StrMap Bytes → StrMap Bytes → Bool)

def compacts : HostOp → List Bytes
  | .compactQueue queueName => [queueName]
  | _ => []

/-- What a host has to keep to: new queues have names of the list, only durable queues are
compacted, and that with room on the disk, and durable queues change safely. -/
def Careful (names : List Bytes) (h : VirtualHost) : LifeOp → Prop
  | .restart _ _ _ => True
  | .host op =>
    (∀ queueName ∈ declares op, queueName ∈ names) ∧
      (∀ queueName ∈ compacts op, ∀ store ∈ h.queueMessages.lookup queueName,
        h.isDurable queueName = true ∧ Persistence.Writable codec (store, h.fs) .compact) ∧
      (Frame.onMessages op = true → compacts op = [] →
        ∀ queueName ∈ names, Safe codec h (op.apply codec matchHeaders h) queueName)

instance (names : List Bytes) (h : VirtualHost) (op : LifeOp) :
    Decidable (Careful codec matchHeaders names h op) :=
  match op with
  | .restart _ _ _ => isTrue trivial
  | .host _ => inferInstanceAs (Decidable (_ ∧ _ ∧ (_ → _ → _)))

section Host

variable {codec matchHeaders} {names : List Bytes} {h h' : VirtualHost} {queueName : Bytes}

/-- What a careful step does to the file of one name. -/
theorem Remembers.apply (housed : Housed names h) (member : queueName ∈ names) {op : HostOp}
    (careful : Careful codec matchHeaders names h (.host op)) (saved : Saved codec h queueName) :
    Remembers codec h (op.apply codec matchHeaders h) queueName := by
  obtain ⟨named, compacted, safe⟩ := careful
  have safe (messages : Frame.onMessages op = true) (others : compacts op = []) :=
    safe messages others queueName member
  have publication : Delivers codec fun h h' =>
      Housed names h → Housed names h' ∧ Carried codec queueName h h' := Carried.delivers member
  cases op with
  | declareExchange name type durable autoDelete args =>
    exact .of_still (.declareExchange h name type durable autoDelete args) saved
  | deleteExchange name => exact .of_still ⟨rfl, rfl, rfl, rfl⟩ saved
  | declareQueue name durable exclusive autoDelete args =>
    rw [HostOp.apply, declareQueue_eq]
    have added : Remembers codec h (VirtualHost.addStore codec { h with queueMgr :=
        (h.queueMgr.declareQueue name durable exclusive autoDelete args).2 } name durable)
        queueName := .addStore housed member (named name List.mem_cons_self) rfl saved
    have still := Still.bind (VirtualHost.addStore codec { h with queueMgr :=
        (h.queueMgr.declareQueue name durable exclusive autoDelete args).2 } name durable)
        [] name name ∅
    exact added.trans (isDurable_congr still.queueMgr) (.of_still still added.saved)
  | declareQueueWithDlq name durable exclusive autoDelete args config =>
    rw [HostOp.apply, declareQueueWithDlq_eq]
    exact .addStore housed member (named name List.mem_cons_self) rfl saved
  | deleteQueue name => exact .deleteQueue name saved
  | bind exchange queue key args => exact .of_still (.bind h exchange queue key args) saved
  | unbind exchange queue => exact .of_still (.unbind h exchange queue) saved
  | basicPublish queue bp body =>
    exact (publication.basicPublish h queue bp body housed).2.remembers saved (safe rfl rfl)
  | publishToExchange visit exchange bp body =>
    exact (publication.publishToExchange visit h exchange bp body housed).2.remembers saved
      (safe rfl rfl)
  | publishEx visit exchange key bp body =>
    exact (publication.publishEx visit h exchange key bp body housed).2.remembers saved
      (safe rfl rfl)
  | basicConsume queue => exact .takeFront housed member queue saved (safe rfl rfl)
  | basicConsumeAndRemove queue => exact .takeFront housed member queue saved (safe rfl rfl)
  | basicAck queue id => exact .basicAck housed member queue id saved (safe rfl rfl)
  | basicNack visit queue id requeue reason =>
    exact .basicNack housed member visit queue id requeue reason saved (safe rfl rfl)
  | basicQuery visit =>
    have safe := safe rfl rfl
    rw [HostOp.apply, basicQuery_eq] at safe ⊢
    split at safe
    · exact .refl saved
    · exact .takeFront housed member _ saved safe
  | queueRuntimeStats queue => exact .queueRuntimeStats queue saved
  | compactQueue queue =>
    exact .compactQueue housed member queue (compacted queue List.mem_cons_self) saved

theorem apply_queueMgr (h : VirtualHost) {op : HostOp} (declares : declares op = [])
    (deletes : ∀ name, op ≠ .deleteQueue name) :
    (op.apply codec matchHeaders h).queueMgr = h.queueMgr := by
  by_cases messages : Frame.onMessages op = true
  · exact (Frame.apply h messages).queueMgr
  cases op with
  | declareExchange name type durable autoDelete args =>
    exact (Still.declareExchange h name type durable autoDelete args).queueMgr
  | deleteExchange name => rfl
  | declareQueue name durable exclusive autoDelete args => cases declares
  | declareQueueWithDlq name durable exclusive autoDelete args config => cases declares
  | deleteQueue name => exact absurd rfl (deletes name)
  | bind exchange queue key args => exact (Still.bind h exchange queue key args).queueMgr
  | unbind exchange queue => exact (Still.unbind h exchange queue).queueMgr
  | _ => exact absurd rfl messages

end Host

section Refinement

variable {codec matchHeaders} {names : List Bytes} {h : VirtualHost} {t : DurableService}

/-- The durable service as the host and its files show it. -/
structure Recalls (codec : Codec) (names : List Bytes) (h : VirtualHost) (t : DurableService) :
    Prop where
  housed : Housed names h
  saved : ∀ queueName ∈ names, Saved codec h queueName
  service : t.service = h.service
  durable : t.durable = h.isDurable
  memory : ∀ queueName ∈ names, t.memory queueName = h.kept codec queueName true

namespace Recalls

/-- After a careful operation a file says what its queue holds if that is durable, and else what
it said before. -/
theorem remember (recalls : Recalls codec names h t) {op : HostOp}
    (careful : Careful codec matchHeaders names h (.host op)) :
    let h' := op.apply codec matchHeaders h
    Housed names h' ∧ ∀ queueName ∈ names, Saved codec h' queueName ∧
      h'.kept codec queueName true =
        if h'.isDurable queueName then h'.service.letters queueName
        else t.memory queueName := by
  have housed : Housed names (op.apply codec matchHeaders h) := recalls.housed.apply careful.1
  refine ⟨housed, fun queueName member => ?_⟩
  have remembers := Remembers.apply recalls.housed member careful
    (recalls.saved queueName member)
  refine ⟨remembers.saved, ?_⟩
  cases flag : (op.apply codec matchHeaders h).isDurable queueName with
  | true => exact remembers.saved.kept_durable flag housed.ok
  | false => exact (remembers.unchanged flag).trans (recalls.memory queueName member).symm

theorem follow (recalls : Recalls codec names h t) {op : HostOp}
    (careful : Careful codec matchHeaders names h (.host op)) {r : ServiceOp}
    (read : op.reads codec h = some r) {durable : Bytes → Bool}
    (flags : durable = (op.apply codec matchHeaders h).isDurable) :
    op.answers codec matchHeaders h = (t.follow matchHeaders r durable).1 ∧
      Recalls codec names (op.apply codec matchHeaders h)
        (t.follow matchHeaders r durable).2 := by
  obtain ⟨answers, moves⟩ :=
    (refines_service codec matchHeaders).shows h op r recalls.housed.ok read
  obtain ⟨housed, kept⟩ := recalls.remember careful
  rw [DurableService.follow, recalls.service]
  refine ⟨answers, housed, fun name member => (kept name member).1, moves.symm, flags, ?_⟩
  intro queueName member
  rw [(kept queueName member).2, flags]
  simp only [← moves]
  rfl

theorem upkeep (recalls : Recalls codec names h t) {op : HostOp}
    (careful : Careful codec matchHeaders names h (.host op)) (read : op.reads codec h = none) :
    op.answers codec matchHeaders h = [] ∧
      Recalls codec names (op.apply codec matchHeaders h) t := by
  obtain ⟨nothing, stays⟩ :=
    (refines_service codec matchHeaders).silent h op recalls.housed.ok read
  have stays : (op.apply codec matchHeaders h).service = h.service := stays
  obtain ⟨housed, kept⟩ := recalls.remember careful
  have flags : (op.apply codec matchHeaders h).isDurable = h.isDurable := by
    have messages : Frame.onMessages op = true := by
      cases op with
      | queueRuntimeStats queue => rfl
      | compactQueue queue => rfl
      | _ => cases read
    funext queueName
    exact isDurable_congr (Frame.apply h messages).queueMgr
  refine ⟨nothing, housed, fun name member => (kept name member).1,
    recalls.service.trans stays.symm, recalls.durable.trans flags.symm, ?_⟩
  intro queueName member
  rw [(kept queueName member).2, flags]
  cases flag : h.isDurable queueName with
  | false => rfl
  | true =>
    rw [recalls.memory queueName member, stays]
    exact (recalls.saved queueName member).kept_durable flag recalls.housed.ok

theorem declared (recalls : Recalls codec names h t) {h' : VirtualHost} {name : Bytes}
    {q : MsgQueue} (declared : h'.queueMgr = (h.queueMgr.declare name q).2) {durable : Bool}
    (flag : q.durable = durable) : t.declare name durable = h'.isDurable := by
  have known : (t.service.queues name).isSome = h.queueMgr.exists? name := by
    rw [recalls.service, service_queues, Option.isSome_map]
    rfl
  rw [DurableService.declare, known, recalls.durable]
  funext queueName
  cases exists' : h.queueMgr.exists? name with
  | true =>
    rw [if_pos rfl]
    refine (isDurable_congr ?_).symm
    rw [declared, MsgQueueManager.declare, if_pos exists']
  | false =>
    rw [if_neg Bool.false_ne_true, isDurable_declare exists' declared, flag, Function.update_apply]

theorem recalled (recalls : Recalls codec names h t) {name : Bytes} (member : name ∈ names)
    (durable : Bool) : t.recalled name durable = h.kept codec name durable := by
  cases durable with
  | true => exact recalls.memory name member
  | false => rfl

theorem restart (recalls : Recalls codec names h t) (name : Bytes) (exchanges : StrMap Exchange)
    (seq : Nat) : Recalls codec names (VirtualHost.new name h.baseDir exchanges seq h.fs)
      (t.restart (VirtualHost.new name h.baseDir exchanges seq h.fs).service.exchanges seq) where
  housed :=
    { ok := WellFormed.new name h.baseDir exchanges seq h.fs
      placed := Placed.new name h.baseDir exchanges seq h.fs
      apart := recalls.housed.apart
      named := fun _ stored => absurd stored Bool.false_ne_true
      openable := recalls.housed.openable }
  saved queueName member := .undeclared rfl (recalls.saved queueName member).intact
  service := rfl
  durable := rfl
  memory queueName member :=
    (recalls.memory queueName member).trans (kept_congr rfl rfl rfl).symm

end Recalls

theorem refines_durable (codec : Codec) (matchHeaders : StrMap Bytes → StrMap Bytes → Bool)
    (names : List Bytes) :
    Refines (Recalls codec names) (Careful codec matchHeaders names)
      (LifeOp.act codec matchHeaders) (DurableOp.act matchHeaders) (LifeOp.reads codec) where
  silent h t a recalls careful read := by
    cases a with
    | restart name exchanges seq => cases read
    | host op =>
      cases op with
      | queueRuntimeStats queue => exact recalls.upkeep careful rfl
      | compactQueue queue => exact recalls.upkeep careful rfl
      | _ => cases read
  shows h t a d recalls careful read := by
    cases a with
    | restart name exchanges seq =>
      cases read
      exact ⟨rfl, recalls.restart name exchanges seq⟩
    | host op =>
      have kept (declares : declares op = []) (deletes : ∀ name, op ≠ .deleteQueue name) :
          t.durable = (op.apply codec matchHeaders h).isDurable := by
        rw [recalls.durable]
        funext queueName
        exact (isDurable_congr (apply_queueMgr h declares deletes)).symm
      cases op with
      | declareQueue name durable exclusive autoDelete args =>
        cases read
        rw [DurableOp.act, recalls.recalled (careful.1 name List.mem_cons_self)]
        have made : (HostOp.apply codec matchHeaders h
            (.declareQueue name durable exclusive autoDelete args)).queueMgr =
              (h.queueMgr.declareQueue name durable exclusive autoDelete args).2 := by
          rw [HostOp.apply, declareQueue_eq, (bind_mgr _ _ _ _ _).1, (addStore_mgr _ _ _ _).1]
        exact recalls.follow careful rfl (recalls.declared made rfl)
      | declareQueueWithDlq name durable exclusive autoDelete args config =>
        cases read
        rw [DurableOp.act, recalls.recalled (careful.1 name List.mem_cons_self)]
        have made : (HostOp.apply codec matchHeaders h
            (.declareQueueWithDlq name durable exclusive autoDelete args config)).queueMgr =
              (h.queueMgr.declareQueueWithDlq name durable exclusive autoDelete args config).2 := by
          rw [HostOp.apply, declareQueueWithDlq_eq, (addStore_mgr _ _ _ _).1]
        exact recalls.follow careful rfl (recalls.declared made rfl)
      | deleteQueue name =>
        cases read
        refine recalls.follow careful rfl ?_
        rw [recalls.durable]
        exact (isDurable_deleteQueue h name).symm
      | queueRuntimeStats queue => cases read
      | compactQueue queue => cases read
      | _ =>
        cases read
        refine recalls.follow careful rfl (kept rfl fun name same => ?_)
        cases same

/-- The memory in front of which a new host starts: what its files say. -/
def onDisk (codec : Codec) (h : VirtualHost) : DurableService where
  service := h.service
  durable _ := false
  memory queueName := h.kept codec queueName true

theorem Recalls.new {names : List Bytes} {baseDir : Bytes} {fs : FileSystem}
    (apart : Apart names baseDir)
    (openable : ∀ queueName ∈ names, fs.openable (resolve (path baseDir queueName)) = true)
    (intact : ∀ queueName ∈ names, Intact codec (fs.content (resolve (path baseDir queueName))))
    (name : Bytes) (exchanges : StrMap Exchange) (seq : Nat) :
    Recalls codec names (VirtualHost.new name baseDir exchanges seq fs)
      (onDisk codec (VirtualHost.new name baseDir exchanges seq fs)) where
  housed :=
    { ok := WellFormed.new name baseDir exchanges seq fs
      placed := Placed.new name baseDir exchanges seq fs
      apart
      named := fun _ stored => absurd stored Bool.false_ne_true
      openable }
  saved queueName member := .undeclared rfl (intact queueName member)
  service := rfl
  durable := rfl
  memory _ _ := rfl

end Refinement

/-- In every careful life of a host, through any number of restarts, the answers are those of
the service with a memory in place of the disk, and each file would give what is remembered. -/
theorem life_refines_durable (codec : Codec)
    (matchHeaders : StrMap Bytes → StrMap Bytes → Bool) (names : List Bytes) {baseDir : Bytes}
    {fs : FileSystem} (apart : Apart names baseDir)
    (openable : ∀ queueName ∈ names, fs.openable (resolve (path baseDir queueName)) = true)
    (intact : ∀ queueName ∈ names, Intact codec (fs.content (resolve (path baseDir queueName))))
    (name : Bytes) (exchanges : StrMap Exchange) (seq : Nat) (life : List LifeOp)
    (careful : Along (LifeOp.apply codec matchHeaders) (Careful codec matchHeaders names)
      (VirtualHost.new name baseDir exchanges seq fs) life) :
    let h := VirtualHost.new name baseDir exchanges seq fs
    let read := readings (LifeOp.act codec matchHeaders) (LifeOp.reads codec) h life
    let h' := exec (LifeOp.apply codec matchHeaders) h life
    let t' := final (DurableOp.act matchHeaders) (onDisk codec h) read
    answers (LifeOp.act codec matchHeaders) h life =
        answers (DurableOp.act matchHeaders) (onDisk codec h) read ∧
      h'.service = t'.service ∧
      ∀ queueName ∈ names, h'.kept codec queueName true = t'.memory queueName := by
  have start := Recalls.new apart openable intact name exchanges seq
  obtain ⟨shown, ends⟩ := (refines_durable codec matchHeaders names).run start careful
  exact ⟨shown, ends.service.symm, fun queueName member => (ends.memory queueName member).symm⟩

/-- A message is published, the host is started anew, and the message is consumed. -/
theorem life_refines_durable_example :
    let life : List LifeOp := [.host (.declareQueue (str "q") true false false ∅),
      .host (.queueRuntimeStats (str "q")), .host (.basicPublish (str "q") none (str "x")),
      .restart (str "TestHost") ∅ 0, .host (.declareQueue (str "q") true false false ∅),
      .host (.queueRuntimeStats (str "q")), .host (.basicConsume (str "q"))]
    let read := readings (LifeOp.act Wire.codec fun _ _ => false) (LifeOp.reads Wire.codec)
      .blank life
    answers (LifeOp.act Wire.codec fun _ _ => false) .blank life =
      answers (DurableOp.act fun _ _ => false) (onDisk Wire.codec .blank) read :=
  (life_refines_durable Wire.codec (fun _ _ => false) [str "q"] (by decide) (fun _ _ => rfl)
    (by exact fun _ _ => intact_nil Wire.codec) (str "TestHost") ∅ 0 _ (by decide +kernel)).1

end HzMq.Durability
