import HzMq.Common.Wire
import HzMq.Delivery.DeadLetter
import HzMq.Delivery.Fifo
import HzMq.Server.HostEffects

/-!
# Where the messages on the push path go

The broker refines a family of abstract bags: publications and dead letters put
messages in, and each message that leaves a queue has been handed to a consumer,
was pulled, or was acknowledged by its own id, provided that the steps which go
wrong in the source are not taken.
-/

namespace HzMq.Delivery

open VirtualHost QueueMessage KeyedFifo Machine

def onlyIn (xs ys : List MessagePtr) : List MessagePtr :=
  xs.filter fun m => m.addr ∉ ys.map MessagePtr.addr

theorem onlyIn_of_subset {xs ys : List MessagePtr} (subset : ∀ m ∈ xs, m ∈ ys) :
    onlyIn xs ys = [] := by
  rw [onlyIn, List.filter_eq_nil_iff]
  intro m member
  have inAddrs : m.addr ∈ ys.map MessagePtr.addr := List.mem_map_of_mem (subset m member)
  simpa using inAddrs

theorem onlyIn_append {kept part ys : List MessagePtr}
    (old : ∀ m ∈ kept, m.addr ∈ ys.map MessagePtr.addr)
    (new : ∀ m ∈ part, m.addr ∉ ys.map MessagePtr.addr) : onlyIn (kept ++ part) ys = part := by
  have noneKept : kept.filter (fun m => m.addr ∉ ys.map MessagePtr.addr) = [] := by
    rw [List.filter_eq_nil_iff]
    intro m member
    simpa using old m member
  have allNew : part.filter (fun m => m.addr ∉ ys.map MessagePtr.addr) = part := by
    rw [List.filter_eq_self]
    intro m member
    simpa using new m member
  rw [onlyIn, List.filter_append, noneKept, allNew, List.nil_append]

theorem onlyIn_removed {before after part : List MessagePtr} {m : MessagePtr}
    (distinct : ((before ++ m :: after).map MessagePtr.addr).Nodup)
    (new : m.addr ∉ part.map MessagePtr.addr) :
    onlyIn (before ++ m :: after) (before ++ after ++ part) = [m] := by
  have gone : m.addr ∉ (before ++ after ++ part).map MessagePtr.addr := by
    rw [List.map_append, List.map_cons, List.nodup_middle, List.nodup_cons] at distinct
    rw [List.map_append, List.map_append, List.mem_append]
    exact fun member => member.elim distinct.1 new
  have earlier : onlyIn before (before ++ after ++ part) = [] :=
    onlyIn_of_subset fun x member => by simp [member]
  have later : onlyIn after (before ++ after ++ part) = [] :=
    onlyIn_of_subset fun x member => by simp [member]
  rw [onlyIn] at earlier later ⊢
  rw [List.filter_append, List.filter_cons_of_pos (by simpa using gone), earlier, later,
    List.nil_append]

section Turnover

variable {codec : Codec} {h h' mid : VirtualHost}

/-- One step on the queues of a host: what has left each of them, while what is new
was put there. -/
def Turnover (h h' : VirtualHost) (out : Bytes → List MessagePtr) : Prop :=
  ∃ events, Steps BagStep h.contents events h'.contents ∧ ∀ name,
    takes name events = out name ∧ puts name events = onlyIn (h'.contents name) (h.contents name) ∧
      onlyIn (h.contents name) (h'.contents name) = out name

theorem Turnover.idle (same : h'.contents = h.contents) : Turnover h h' fun _ => [] := by
  refine ⟨[], same ▸ .nil _, ?_⟩
  intro name
  simp [same, onlyIn_of_subset]

theorem Turnover.of_eq {out out' : Bytes → List MessagePtr} (turnover : Turnover h h' out)
    (same : ∀ name, out' name = out name) : Turnover h h' out' :=
  (funext same : out' = out) ▸ turnover

theorem appended_addr {log : List (Bytes × MessagePtr)} (appends : Appends h h' log)
    (ok : WellFormed h') (name : Bytes) :
    ∀ m ∈ (log.filter fun e => e.1 = name).map Prod.snd,
      m.addr ∉ (h.contents name).map MessagePtr.addr := by
  intro m member old
  have distinct := ok.contents_addr_nodup name
  rw [appends.contents_eq, List.map_append, List.nodup_append] at distinct
  exact distinct.2.2 _ old _ (List.mem_map_of_mem member) rfl

theorem Turnover.publish {log : List (Bytes × MessagePtr)} (appends : Appends h h' log)
    (ok : WellFormed h') : Turnover h h' fun _ => [] := by
  refine ⟨_, appends.bag, fun name => ⟨takes_log name log, ?_, ?_⟩⟩
  · rw [puts_log, appends.contents_eq]
    exact (onlyIn_append (fun m member => List.mem_map_of_mem member)
      (appended_addr appends ok name)).symm
  · rw [appends.contents_eq]
    exact onlyIn_of_subset fun m member => List.mem_append_left _ member

theorem Turnover.removal {log : List (Bytes × MessagePtr)} {queueName id : Bytes} {m : MessagePtr}
    {rest : List MessagePtr} (ok : WellFormed h) (appends : Appends h mid log)
    (okMid : WellFormed mid)
    (found : target (h.contents queueName) id = some (m, rest))
    (result : h'.contents = Function.update mid.contents queueName
      (rest ++ (log.filter fun e => e.1 = queueName).map Prod.snd)) :
    Turnover h h' fun name => if name = queueName then [m] else [] := by
  obtain ⟨before, after, split, rfl, -, -⟩ := target_split found
  have held : mid.contents queueName =
      before ++ m :: (after ++ (log.filter fun e => e.1 = queueName).map Prod.snd) := by
    rw [appends.contents_eq, split]
    simp
  have take : BagStep mid.contents (.take queueName m) h'.contents := by
    rw [result, List.append_assoc]
    exact .take queueName m before _ held
  refine ⟨_, appends.bag.append (Steps.one take), ?_⟩
  intro name
  rw [takes_append, puts_append, takes_log, puts_log, result]
  beta_reduce
  by_cases here : name = queueName
  · subst here
    rw [Function.update_self, if_pos rfl, split]
    have new := appended_addr appends okMid name
    rw [split] at new
    refine ⟨by simp [takes], ?_, ?_⟩
    · rw [onlyIn_append (fun x member => ?_) new]
      · simp [puts]
      · refine List.mem_map_of_mem ?_
        rw [List.mem_append, List.mem_cons]
        exact (List.mem_append.mp member).imp_right Or.inr
    · refine onlyIn_removed (split ▸ ok.contents_addr_nodup name) ?_
      intro member
      obtain ⟨x, inPart, same⟩ := List.mem_map.mp member
      exact new x inPart (same ▸ by simp)
  · rw [Function.update_of_ne here, if_neg here, appends.contents_eq]
    refine ⟨by simp [takes, Ne.symm here], ?_,
      onlyIn_of_subset fun x member => List.mem_append_left _ member⟩
    rw [onlyIn_append (fun x member => List.mem_map_of_mem member)
      (appended_addr appends okMid name)]
    simp [puts]

variable (codec) in
theorem Turnover.takeFront (ok : WellFormed h) {queueName : Bytes} {m : MessagePtr}
    {rest : List MessagePtr} (held : h.contents queueName = m :: rest)
    (result : h'.contents = (h.takeFront codec queueName).2.contents) :
    Turnover h h' fun name => if name = queueName then [m] else [] := by
  refine .removal ok (Appends.none rfl) ok (held ▸ target_head m rest) ?_
  rw [result, (takeFront_cons codec held).2]
  simp

theorem Turnover.basicAck (ok : WellFormed h) {queueName msgId : Bytes} {m : MessagePtr}
    {rest : List MessagePtr} (found : target (h.contents queueName) msgId = some (m, rest)) :
    Turnover h (h.basicAck codec queueName msgId) fun name =>
      if name = queueName then [m] else [] := by
  refine .removal ok (Appends.none rfl) ok found ?_
  rw [basicAck_of_target codec found]
  simp

end Turnover

def onPushPath : ServerOp → Bool
  | .request _ _ _ call =>
    match call with
    | .basicPublish _ _ _ _ _ => true
    | .basicConsume _ _ _ => true
    | .basicCancel _ _ => true
    | .basicQuery _ => true
    | .basicAck _ _ => true
    | .basicNack _ _ _ _ _ => true
    | _ => false
  | .execute _ => true
  | _ => false

inductive Fate
  | delivered (consumer : Consumer)
  | pulled
  | acknowledged
  deriving DecidableEq

/-- The messages of the given id that an acknowledgement of one queue has removed. -/
def acknowledgedBy (h h' : VirtualHost) (target messageId queueName : Bytes) : List MessagePtr :=
  if target = queueName then
    (onlyIn (h.contents queueName) (h'.contents queueName)).filter fun m => m.id = messageId
  else []

section Fates

variable (codec : Codec) (matchHeaders : StrMap Bytes → StrMap Bytes → Bool)

/-- The messages of a queue that a step accounts for: what a callback got, what a pull
returned, and what a client's acknowledgement removed by its own id. -/
def fates (queueName : Bytes) (s : BrokerServer) (op : ServerOp) : List (Fate × MessagePtr) :=
  let host' := (op.apply codec matchHeaders s).host
  match op with
  | .execute index =>
    ((s.execute codec index).1.toList.filter fun d => d.qname = queueName).map fun d =>
      (.delivered d.consumer, d.message)
  | .request conn _ cid (.basicQuery visit) =>
    if (s.selectChannel conn cid).isSome then
      ((takenBy codec s.host (.basicQuery visit)).filter fun e => e.1 = queueName).map fun e =>
        (.pulled, e.2)
    else []
  | .request _ _ _ (.basicAck target messageId) =>
    (acknowledgedBy s.host host' target messageId queueName).map fun m => (.acknowledged, m)
  | .request _ _ _ (.basicNack _ target messageId requeue _) =>
    if requeue then []
    else (acknowledgedBy s.host host' target messageId queueName).map fun m => (.acknowledged, m)
  | _ => []

def fatesAlong (queueName : Bytes) : BrokerServer → List ServerOp → List (Fate × MessagePtr)
  | _, [] => []
  | s, op :: ops =>
    fates codec matchHeaders queueName s op ++
      fatesAlong queueName (op.apply codec matchHeaders s) ops

def queuedAlong (queueName : Bytes) : BrokerServer → List ServerOp → List MessagePtr
  | _, [] => []
  | s, op :: ops =>
    onlyIn ((op.apply codec matchHeaders s).host.contents queueName) (s.host.contents queueName) ++
      queuedAlong queueName (op.apply codec matchHeaders s) ops

end Fates

/-- `remove` with this id takes a message of this id: the empty id takes the head. -/
def ownId (h : VirtualHost) (queueName messageId : Bytes) : Bool :=
  messageId ≠ [] || ((h.contents queueName).head?.all fun m => m.id = [])

def nackRemoves (h : VirtualHost) (queueName messageId : Bytes) : Bool :=
  match h.queueMgr.selectQueue queueName with
  | none => false
  | some info =>
    !info.hasDeadLetterConfig || (h.contents queueName).any fun m => m.id = messageId

/-- A message that the search of `basic_nack` finds is there for `remove` as well. -/
theorem nackRemoves_of_found {h : VirtualHost} {queueName messageId : Bytes} {info : MsgQueue}
    {t : MessagePtr} (known : h.queueMgr.selectQueue queueName = some info)
    (first : (h.contents queueName).find? (fun x => x.id == messageId) = some t) :
    nackRemoves h queueName messageId = true ∧
      (target (h.contents queueName) messageId).isSome := by
  have bears : t.id = messageId := by simpa using List.find?_some first
  have stored : t ∈ h.contents queueName := List.mem_of_find?_eq_some first
  refine ⟨?_, bears ▸ target_isSome_of_mem stored⟩
  simp only [nackRemoves, known, Bool.or_eq_true, List.any_eq_true, decide_eq_true_eq]
  exact Or.inr ⟨t, stored, bears⟩

/-- The steps that do not lose a message: a consume task that gets a message finds a
consumer, and its automatic acknowledgement finds no second message of that id, which
must not be empty while others wait; an acknowledgement with an empty id meets a head
without an id. -/
def accountable (s : BrokerServer) : ServerOp → Bool
  | .execute index =>
    match s.pool[index]? with
    | none => true
    | some task =>
      match s.host.contents task.qname, (s.cmp.choose task.qname).1 with
      | [], _ => true
      | _ :: _, none => false
      | m :: rest, some c =>
        !c.autoAck || rest.isEmpty || (m.id ≠ [] && rest.all fun x => x.id ≠ m.id)
  | .request conn _ cid (.basicAck queueName messageId) =>
    (s.selectChannel conn cid).isNone || ownId s.host queueName messageId
  | .request conn _ cid (.basicNack _ queueName messageId requeue _) =>
    (s.selectChannel conn cid).isNone || requeue || !nackRemoves s.host queueName messageId ||
      ownId s.host queueName messageId
  | _ => true

section Step

variable {codec : Codec} {matchHeaders : StrMap Bytes → StrMap Bytes → Bool} {s : BrokerServer}

theorem id_of_ownId {h : VirtualHost} {queueName messageId : Bytes} {m : MessagePtr}
    {rest : List MessagePtr} (own : ownId h queueName messageId = true)
    (found : target (h.contents queueName) messageId = some (m, rest)) : m.id = messageId := by
  obtain ⟨before, after, split, -, popped, searched⟩ := target_split found
  by_cases empty : messageId = []
  · have head : (h.contents queueName).head? = some m := by simp [split, popped empty]
    simpa [ownId, empty, head] using own
  · exact (searched empty).1

theorem Turnover.acknowledged {h h' : VirtualHost} {queueName messageId : Bytes} {m : MessagePtr}
    (turnover : Turnover h h' fun name => if name = queueName then [m] else [])
    (own : m.id = messageId) : Turnover h h' (acknowledgedBy h h' queueName messageId) := by
  refine turnover.of_eq ?_
  intro name
  obtain ⟨events, -, parts⟩ := turnover
  rw [acknowledgedBy, (parts name).2.2]
  by_cases here : queueName = name
  · simp [here, own]
  · rw [if_neg here, if_neg (Ne.symm here)]

theorem Turnover.nothing {h h' : VirtualHost} (same : h'.contents = h.contents)
    (queueName messageId : Bytes) : Turnover h h' (acknowledgedBy h h' queueName messageId) := by
  refine (Turnover.idle same).of_eq ?_
  intro name
  simp [acknowledgedBy, same, onlyIn_of_subset]

theorem turnover_basicAck {h : VirtualHost} (ok : WellFormed h) {queueName messageId : Bytes}
    (own : ownId h queueName messageId = true) :
    Turnover h (h.basicAck codec queueName messageId)
      (acknowledgedBy h (h.basicAck codec queueName messageId) queueName messageId) := by
  cases found : target (h.contents queueName) messageId with
  | none => exact .nothing (basicAck_of_none codec found) queueName messageId
  | some pair => exact (Turnover.basicAck ok found).acknowledged (id_of_ownId own found)

theorem turnover_basicNack {h : VirtualHost} (ok : WellFormed h) (visit : Visit Binding)
    {queueName messageId : Bytes} (reason : Bytes)
    (own : nackRemoves h queueName messageId = true → ownId h queueName messageId = true) :
    Turnover h (h.basicNack codec matchHeaders visit queueName messageId false reason)
      (acknowledgedBy h (h.basicNack codec matchHeaders visit queueName messageId false reason)
        queueName messageId) := by
  rcases basicNack_cases visit h queueName messageId false reason with
    unchanged | ⟨info, known, -, ⟨plain, removal⟩ | ⟨t, configured, first, letter⟩⟩
  · exact .nothing (by rw [unchanged]) queueName messageId
  · rw [removal]
    exact turnover_basicAck ok (own (by simp [nackRemoves, known, plain]))
  · obtain ⟨removes, hit⟩ := nackRemoves_of_found known first
    obtain ⟨⟨m, rest⟩, found⟩ := Option.isSome_iff_exists.mp hit
    obtain ⟨mid, log, appends, okMid, -, -, split⟩ :=
      deadLetter_split codec matchHeaders ok configured queueName messageId t visit
    have still := target_append found ((log.filter fun e => e.1 = queueName).map Prod.snd)
    rw [← appends.contents_eq] at still
    rw [letter, split]
    exact (Turnover.removal ok appends okMid found (basicAck_of_target codec still)).acknowledged
      (id_of_ownId (own removes) found)

variable (codec) in
theorem consume_of_cons {qname : Bytes} {m : MessagePtr} {rest : List MessagePtr} {c : Consumer}
    (held : s.host.contents qname = m :: rest) (chosen : (s.cmp.choose qname).1 = some c) :
    ∃ response, (s.consume codec qname).1 = some ⟨c, qname, m, response⟩ ∧
      (s.consume codec qname).2.host =
        if c.autoAck then (s.host.takeFront codec qname).2.basicAck codec qname m.id
        else (s.host.takeFront codec qname).2 := by
  have out := (takeFront_cons codec held).1
  simp only [BrokerServer.consume, VirtualHost.basicConsume]
  generalize s.host.takeFront codec qname = taken at out ⊢
  generalize s.cmp.choose qname = choice at chosen ⊢
  obtain ⟨first, host⟩ := taken
  obtain ⟨second, cmp⟩ := choice
  simp only at out chosen
  subst out chosen
  exact ⟨_, rfl, rfl⟩

theorem turnover_execute (ok : WellFormed s.host) {index : Nat}
    (kept : accountable s (.execute index) = true) :
    Turnover s.host ((ServerOp.execute index).apply codec matchHeaders s).host fun name =>
      (fates codec matchHeaders name s (.execute index)).map Prod.snd := by
  simp only [ServerOp.apply, fates, BrokerServer.execute]
  simp only [accountable] at kept
  cases waiting : s.pool[index]? with
  | none => exact .idle rfl
  | some task =>
    simp only [waiting] at kept ⊢
    cases held : s.host.contents task.qname with
    | nil =>
      have nothing := takeFront_empty codec held
      simp only [BrokerServer.consume, VirtualHost.basicConsume, nothing]
      exact .idle rfl
    | cons m rest =>
      cases chosen : (s.cmp.choose task.qname).1 with
      | none => simp [held, chosen] at kept
      | some c =>
        simp only [held, chosen] at kept
        obtain ⟨response, delivery, host'⟩ := consume_of_cons codec
          (s := { s with pool := s.pool.eraseIdx index }) held chosen
        rw [delivery, host']
        have left := (takeFront_cons codec held).2
        have sameContents : (if c.autoAck then
            (s.host.takeFront codec task.qname).2.basicAck codec task.qname m.id
            else (s.host.takeFront codec task.qname).2).contents =
            (s.host.takeFront codec task.qname).2.contents := by
          cases auto : c.autoAck with
          | false => rfl
          | true =>
            refine basicAck_of_none codec ?_
            rw [left, Function.update_self, target_eq_none_iff]
            simpa [auto] using kept
        refine (Turnover.takeFront codec ok held sameContents).of_eq ?_
        intro name
        by_cases here : task.qname = name
        · simp [here]
        · simp [here, Ne.symm here]

theorem turnover_basicQuery {h : VirtualHost} (ok : WellFormed h) (visit : Visit QueueMessage) :
    Turnover h (h.basicQuery codec visit).2 fun name =>
      ((takenBy codec h (.basicQuery visit)).filter fun e => e.1 = name).map Prod.snd := by
  rw [basicQuery_eq]
  simp only [takenBy]
  cases found : queryTarget (visit.order h.queueMessages) with
  | none => exact .idle rfl
  | some pulled =>
    obtain ⟨queueName, store, m⟩ := pulled
    obtain ⟨visited, front⟩ := queryTarget_some found
    obtain ⟨rest, msgs⟩ := List.head?_eq_some_iff.mp front
    have held : h.contents queueName = m :: rest := by
      rw [contents_of_lookup (visit.mem_order.mp visited), msgs]
    refine (Turnover.takeFront codec ok held rfl).of_eq ?_
    intro name
    by_cases here : queueName = name
    · simp [here]
    · simp [here, Ne.symm here]

theorem turnover_request (ok : WellFormed s.host) {conn : Nat} {rid cid : Bytes} {call : Call}
    (allowed : onPushPath (.request conn rid cid call) = true)
    (kept : accountable s (.request conn rid cid call) = true) :
    Turnover s.host ((ServerOp.request conn rid cid call).apply codec matchHeaders s).host
      fun name => (fates codec matchHeaders name s (.request conn rid cid call)).map Prod.snd := by
  have host' := BrokerServer.apply_host codec matchHeaders s (.request conn rid cid call)
  simp only [BrokerServer.hostOps] at host'
  simp only [fates, host']
  cases selected : s.selectChannel conn cid with
  | none =>
    refine (Turnover.idle rfl).of_eq ?_
    intro name
    cases call <;> simp [selected, acknowledgedBy, onlyIn_of_subset]
  | some ch =>
    cases call with
    | basicPublish visit tasks exchangeName properties body =>
      obtain ⟨log, appends, -⟩ :=
        publishToExchange_appends codec matchHeaders ok visit exchangeName properties body
      exact .publish appends (ok.of_frame (Frame.publishToExchange visit _ _ _ _))
    | basicConsume consumerTag queueName autoAck => exact .idle rfl
    | basicCancel consumerTag queueName => exact .idle rfl
    | basicQuery visit =>
      refine (turnover_basicQuery ok visit).of_eq ?_
      intro name
      simp [selected]
    | basicAck queueName messageId =>
      have own : ownId s.host queueName messageId = true := by
        simpa [accountable, selected] using kept
      refine (turnover_basicAck ok own).of_eq ?_
      intro name
      simp [BrokerServer.callOps, HostOp.apply]
    | basicNack visit queueName messageId requeue reason =>
      cases requeue with
      | true =>
        refine (Turnover.idle ?_).of_eq fun name => by simp
        rcases basicNack_cases visit s.host queueName messageId true reason with
          unchanged | ⟨-, -, wrong, -⟩
        · exact congrArg contents unchanged
        · cases wrong
      | false =>
        have own : nackRemoves s.host queueName messageId = true →
            ownId s.host queueName messageId = true := by
          intro removes
          simpa [accountable, selected, removes] using kept
        refine (turnover_basicNack ok visit reason own).of_eq ?_
        intro name
        simp [BrokerServer.callOps, HostOp.apply]
    | _ => cases allowed

variable (codec matchHeaders) in
theorem turnover_step (ok : WellFormed s.host) {op : ServerOp} (allowed : onPushPath op = true)
    (kept : accountable s op = true) :
    Turnover s.host (op.apply codec matchHeaders s).host fun name =>
      (fates codec matchHeaders name s op).map Prod.snd := by
  cases op with
  | execute index => exact turnover_execute ok kept
  | request conn rid cid call => exact turnover_request ok allowed kept
  | _ => cases allowed

variable (codec) in
/-- What is known of a delivery: the head of the queue went to the consumer whose turn it was. -/
theorem consume_inv {qname : Bytes} {d : Delivery}
    (delivered : (s.consume codec qname).1 = some d) :
    d.qname = qname ∧ (s.cmp.choose qname).1 = some d.consumer ∧
      ∃ rest, s.host.contents qname = d.message :: rest := by
  cases held : s.host.contents qname with
  | nil =>
    simp [BrokerServer.consume, VirtualHost.basicConsume, takeFront_empty codec held] at delivered
  | cons m rest =>
    cases chosen : (s.cmp.choose qname).1 with
    | none =>
      have out := (takeFront_cons codec held).1
      simp only [BrokerServer.consume, VirtualHost.basicConsume] at delivered
      generalize s.host.takeFront codec qname = taken at out delivered
      generalize s.cmp.choose qname = choice at chosen delivered
      obtain ⟨first, host⟩ := taken
      obtain ⟨second, cmp⟩ := choice
      simp only at out chosen
      subst out chosen
      cases delivered
    | some c =>
      obtain ⟨response, result, -⟩ := consume_of_cons codec held chosen
      rw [result] at delivered
      cases delivered
      exact ⟨rfl, rfl, rest, rfl⟩

theorem delivered_registered {queueName : Bytes} {op : ServerOp} {e : Fate × MessagePtr}
    {c : Consumer} (member : e ∈ fates codec matchHeaders queueName s op)
    (delivered : e.1 = .delivered c) : c ∈ s.cmp.consumersOf queueName := by
  have onlyExecute : ∃ index, op = .execute index := by
    cases op with
    | execute index => exact ⟨index, rfl⟩
    | request conn rid cid call =>
      cases call with
      | basicQuery visit =>
        simp only [fates] at member
        split at member
        · obtain ⟨x, -, rfl⟩ := List.mem_map.mp member
          cases delivered
        · cases member
      | basicAck target messageId =>
        obtain ⟨x, -, rfl⟩ := List.mem_map.mp member
        cases delivered
      | basicNack visit target messageId requeue reason =>
        simp only [fates] at member
        split at member
        · cases member
        · obtain ⟨x, -, rfl⟩ := List.mem_map.mp member
          cases delivered
      | _ => cases member
    | _ => cases member
  obtain ⟨index, rfl⟩ := onlyExecute
  simp only [fates, BrokerServer.execute, List.mem_map, List.mem_filter, Option.mem_toList,
    decide_eq_true_eq] at member
  obtain ⟨d, ⟨result, here⟩, rfl⟩ := member
  cases waiting : s.pool[index]? with
  | none => simp [waiting] at result
  | some task =>
    simp only [waiting] at result
    obtain ⟨named, chosen, -⟩ := consume_inv codec result
    rw [← here, named]
    cases delivered
    exact ConsumerManager.choose_mem chosen

theorem frame_of_onPushPath {op : ServerOp} (allowed : onPushPath op = true) :
    Frame s.host (op.apply codec matchHeaders s).host := by
  rw [BrokerServer.apply_host]
  refine Frame.exec ?_
  intro hostOp member
  cases op with
  | execute index =>
    simp only [BrokerServer.hostOps] at member
    cases waiting : s.pool[index]? with
    | none => simp [waiting] at member
    | some task =>
      simp only [waiting, Option.map_some, Option.getD_some, BrokerServer.consumeOps,
        List.mem_cons] at member
      rcases member with rfl | acknowledges
      · rfl
      · split at acknowledges
        · split at acknowledges
          · rw [List.mem_singleton.mp acknowledges]
            rfl
          · cases acknowledges
        · cases acknowledges
  | request conn rid cid call =>
    simp only [BrokerServer.hostOps] at member
    split at member
    · cases call with
      | basicPublish visit tasks exchangeName properties body =>
        rw [List.mem_singleton.mp member]
        rfl
      | basicAck queueName messageId =>
        rw [List.mem_singleton.mp member]
        rfl
      | basicNack visit queueName messageId requeue reason =>
        rw [List.mem_singleton.mp member]
        rfl
      | basicQuery visit =>
        rw [List.mem_singleton.mp member]
        rfl
      | basicConsume consumerTag queueName autoAck => cases member
      | basicCancel consumerTag queueName => cases member
      | _ => cases allowed
    · cases member
  | _ => cases allowed

theorem nextAddr_le_of_queued (queueName : Bytes) {ops : List ServerOp}
    (allowed : ∀ op ∈ ops, onPushPath op = true) {m : MessagePtr}
    (member : m ∈ queuedAlong codec matchHeaders queueName s ops) :
    s.host.nextAddr queueName ≤ m.addr := by
  induction ops generalizing s with
  | nil => cases member
  | cons op ops ih =>
    have frame : Frame s.host (op.apply codec matchHeaders s).host :=
      frame_of_onPushPath (allowed op List.mem_cons_self)
    rw [queuedAlong, List.mem_append] at member
    rcases member with now | later
    · obtain ⟨queued, new⟩ := List.mem_filter.mp now
      exact frame.nextAddr_le_of_new queued (by simpa using new)
    · exact Nat.le_trans (frame.nextAddr_le queueName)
        (ih (fun other member => allowed other (List.mem_cons_of_mem op member)) later)

/-- No object is queued twice. -/
theorem queued_nodup (ok : WellFormed s.host) (queueName : Bytes) {ops : List ServerOp}
    (allowed : ∀ op ∈ ops, onPushPath op = true) :
    (s.host.contents queueName ++ queuedAlong codec matchHeaders queueName s ops).Nodup := by
  induction ops generalizing s with
  | nil => simpa [queuedAlong] using ok.contents_nodup queueName
  | cons op ops ih =>
    have frame : Frame s.host (op.apply codec matchHeaders s).host :=
      frame_of_onPushPath (allowed op List.mem_cons_self)
    have okNext := ok.of_frame frame
    have laterAllowed : ∀ other ∈ ops, onPushPath other = true := fun other member =>
      allowed other (List.mem_cons_of_mem op member)
    have later := (List.nodup_append.mp (ih okNext laterAllowed)).2.1
    rw [queuedAlong, ← List.append_assoc]
    refine List.nodup_append.mpr ⟨List.nodup_append.mpr ⟨ok.contents_nodup queueName,
      (okNext.contents_nodup queueName).filter _, ?_⟩, later, ?_⟩
    · rintro x old y new rfl
      have fresh := (List.mem_filter.mp new).2
      simp only [decide_eq_true_eq] at fresh
      exact fresh (List.mem_map_of_mem old)
    · rintro x earlier y queued rfl
      have bound := nextAddr_le_of_queued queueName laterAllowed queued
      rcases List.mem_append.mp earlier with old | new
      · have below := ok.addr_lt_nextAddr old
        have grows := frame.nextAddr_le queueName
        omega
      · have below := okNext.addr_lt_nextAddr (List.mem_filter.mp new).1
        omega

end Step

section Run

variable (codec : Codec) (matchHeaders : StrMap Bytes → StrMap Bytes → Bool)

/-- Along every run of accountable steps each message that was ever in the queue is in
exactly one place: still there, with one consumer of the queue, pulled, or acknowledged
by its own id. -/
theorem push_path_accounts {s : BrokerServer} (reached : s.Reachable codec matchHeaders)
    (ops : List ServerOp) (allowed : ∀ op ∈ ops, onPushPath op = true)
    (kept : Along (ServerOp.apply codec matchHeaders) (fun s op => accountable s op = true) s ops)
    (queueName : Bytes) :
    ((fatesAlong codec matchHeaders queueName s ops).map Prod.snd ++
        (exec (ServerOp.apply codec matchHeaders) s ops).host.contents queueName).Perm
      (s.host.contents queueName ++ queuedAlong codec matchHeaders queueName s ops) ∧
    (s.host.contents queueName ++ queuedAlong codec matchHeaders queueName s ops).Nodup ∧
    Along (ServerOp.apply codec matchHeaders) (fun s op =>
      ∀ e ∈ fates codec matchHeaders queueName s op, ∀ c, e.1 = .delivered c →
        c ∈ s.cmp.consumersOf queueName) s ops := by
  refine ⟨?_, queued_nodup reached.host.wellFormed queueName allowed, ?_⟩
  · induction ops generalizing s with
    | nil => simp [fatesAlong, queuedAlong]
    | cons op ops ih =>
      obtain ⟨events, steps, parts⟩ := turnover_step codec matchHeaders reached.host.wellFormed
        (allowed op List.mem_cons_self) kept.1
      obtain ⟨took, put, -⟩ := parts queueName
      have first := steps.bag_ledger queueName
      have later := ih (reached.next op)
        (fun other member => allowed other (List.mem_cons_of_mem op member)) kept.2
      rw [took, put] at first
      rw [fatesAlong, queuedAlong, exec_cons, List.map_append, List.append_assoc,
        ← List.append_assoc (s.host.contents queueName)]
      exact (later.append_left _).trans (by
        rw [← List.append_assoc]
        exact first.append_right _)
  · exact along_of_forall
      (fun op _ s e member c delivered => delivered_registered member delivered) s

end Run

def pushBroker : BrokerServer :=
  exec (ServerOp.apply Wire.codec fun _ _ => false) (.new .blank)
    [.newConnection 0, .openChannel 0 [] (str "c"),
      .request 0 [] (str "c") (.declareQueue (str "q") false false false ∅)]

theorem pushBroker_reachable : pushBroker.Reachable Wire.codec fun _ _ => false :=
  Reachable.exec (.start ⟨_, blank_initial, rfl⟩) _

def publishedRun : List ServerOp :=
  [.request 0 [] (str "c")
      (.basicPublish .stored .stored [] (some { routingKey := str "q" }) (str "x")),
    .execute 0]

def attendedRun : List ServerOp :=
  .request 0 [] (str "c") (.basicConsume (str "t") (str "q") true) :: publishedRun

theorem push_path_accounts_example :
    ((fatesAlong Wire.codec (fun _ _ => false) (str "q") pushBroker attendedRun).map Prod.snd ++
        (exec (ServerOp.apply Wire.codec fun _ _ => false) pushBroker attendedRun).host.contents
          (str "q")).Perm
      (pushBroker.host.contents (str "q") ++
        queuedAlong Wire.codec (fun _ _ => false) (str "q") pushBroker attendedRun) :=
  (push_path_accounts Wire.codec (fun _ _ => false) pushBroker_reachable attendedRun (by decide)
    (by decide) (str "q")).1

/-- Without a consumer the task takes the message out of the queue and drops it. -/
theorem push_path_loses_message :
    (∀ op ∈ publishedRun, onPushPath op = true) ∧
      ¬ ((fatesAlong Wire.codec (fun _ _ => false) (str "q") pushBroker publishedRun).map Prod.snd ++
          (exec (ServerOp.apply Wire.codec fun _ _ => false) pushBroker publishedRun).host.contents
            (str "q")).Perm
        (pushBroker.host.contents (str "q") ++
          queuedAlong Wire.codec (fun _ _ => false) (str "q") pushBroker publishedRun) := by
  refine ⟨by decide, fun accounted => absurd accounted.length_eq ?_⟩
  decide

end HzMq.Delivery
