import HzMq.Delivery.RoundRobin
import HzMq.Delivery.Subscriptions
import HzMq.Library.Refinement

/-!
# Fair shares

Only a consume task that finds a message moves the index of a queue's consumers, and by
one. So while the consumers of a queue stay the same its messages are handed to them in
turn, whatever else happens in between: to other queues, to the tasks in other orders,
or to the other tables.
-/

namespace HzMq.Delivery

open Machine BrokerServer

def indexOf (cmp : ConsumerManager) (queueName : Bytes) : Nat :=
  ((cmp.queueConsumers.lookup queueName).map QueueConsumer.rrIndex).getD 0

section Index

variable (mgr : ConsumerManager) (queueName other : Bytes)

theorem indexOf_insert (qc : QueueConsumer) :
    indexOf ⟨mgr.queueConsumers.insert queueName qc⟩ other =
      if other = queueName then qc.rrIndex else indexOf mgr other := by
  by_cases same : other = queueName
  · subst same
    simp [indexOf]
  · simp [indexOf, same, AList.lookup_insert_ne]

variable {mgr queueName} in
theorem indexOf_of_lookup {qc : QueueConsumer}
    (found : mgr.queueConsumers.lookup queueName = some qc) :
    indexOf mgr queueName = qc.rrIndex := by
  simp [indexOf, found]

@[simp] theorem indexOf_initQueueConsumer :
    indexOf (mgr.initQueueConsumer queueName) other = indexOf mgr other := by
  unfold ConsumerManager.initQueueConsumer
  cases found : mgr.queueConsumers.lookup queueName with
  | some qc => rfl
  | none =>
    rw [Option.isNone_none, if_pos rfl, indexOf_insert]
    split
    · next same =>
      subst same
      simp [indexOf, found]
    · rfl

@[simp] theorem indexOf_create (ctag : Bytes) (ackFlag : Bool) (cb : ChannelRef) :
    indexOf (mgr.create ctag queueName ackFlag cb).2 other = indexOf mgr other := by
  unfold ConsumerManager.create
  cases found : mgr.queueConsumers.lookup queueName with
  | none => rfl
  | some qc =>
    have kept : (qc.create ctag queueName ackFlag cb).2.rrIndex = qc.rrIndex := by
      unfold QueueConsumer.create
      split <;> rfl
    rw [indexOf_insert]
    split
    · next same => rw [same, indexOf_of_lookup found, kept]
    · rfl

@[simp] theorem indexOf_remove (ctag : Bytes) :
    indexOf (mgr.remove ctag queueName) other = indexOf mgr other := by
  unfold ConsumerManager.remove
  cases found : mgr.queueConsumers.lookup queueName with
  | none => rfl
  | some qc =>
    rw [indexOf_insert]
    split
    · next same => rw [same, indexOf_of_lookup found, QueueConsumer.remove]
    · rfl

theorem indexOf_destroyQueueConsumer (kept : other ≠ queueName) :
    indexOf (mgr.destroyQueueConsumer queueName) other = indexOf mgr other := by
  simp [indexOf, ConsumerManager.destroyQueueConsumer, kept, AList.lookup_erase_ne]

theorem indexOf_choose_ne (elsewhere : other ≠ queueName) :
    indexOf (mgr.choose queueName).2 other = indexOf mgr other := by
  unfold ConsumerManager.choose
  cases found : mgr.queueConsumers.lookup queueName with
  | none => rfl
  | some qc => rw [indexOf_insert, if_neg elsewhere]

theorem choose_turn (registered : mgr.consumersOf queueName ≠ []) :
    (mgr.choose queueName).1 =
        Rotation.turn (mgr.consumersOf queueName) (indexOf mgr queueName) ∧
      indexOf (mgr.choose queueName).2 queueName =
        (indexOf mgr queueName + 1) % (mgr.consumersOf queueName).length := by
  cases found : mgr.queueConsumers.lookup queueName with
  | none => exact absurd (by simp [ConsumerManager.consumersOf, found]) registered
  | some qc =>
    rw [mgr.consumersOf_of_lookup found] at registered ⊢
    rw [indexOf_of_lookup found, ConsumerManager.choose, found]
    refine ⟨qc.rrChoose_fst, ?_⟩
    simp only [indexOf_insert, if_true]
    rw [QueueConsumer.rrChoose, if_neg registered]

end Index

section Step

variable (codec : Codec) (matchHeaders : StrMap Bytes → StrMap Bytes → Bool) (queueName : Bytes)

def servedBy (s : BrokerServer) : ServerOp → List Consumer
  | .execute index =>
    (((s.execute codec index).1.filter fun d => d.qname == queueName).map Delivery.consumer).toList
  | _ => []

def serves (s : BrokerServer) (op : ServerOp) : List Consumer × BrokerServer :=
  (servedBy codec queueName s op, op.apply codec matchHeaders s)

variable {queueName} {s : BrokerServer}

theorem destroyChannels_indexOf (channels : List (Bytes × Channel)) :
    indexOf (channels.foldl (fun s e => s.destroyChannel e.2) s).cmp queueName =
      indexOf s.cmp queueName := by
  induction channels generalizing s with
  | nil => rfl
  | cons e channels ih =>
    rw [List.foldl_cons, ih]
    unfold BrokerServer.destroyChannel
    split
    · rfl
    · exact indexOf_remove _ _ _ _

theorem handle_indexOf (ch : Channel) (rid cid : Bytes) (call : Call)
    (registered :
      (s.handle codec matchHeaders ch rid cid call).2.2.cmp.consumersOf queueName ≠ []) :
    indexOf (s.handle codec matchHeaders ch rid cid call).2.2.cmp queueName =
      indexOf s.cmp queueName := by
  cases call with
  | declareQueue queue durable exclusive autoDelete args =>
    simp [BrokerServer.handle, VirtualHost.declareQueue_eq]
  | declareQueueWithDlq queue durable exclusive autoDelete args config =>
    simp [BrokerServer.handle, VirtualHost.declareQueueWithDlq_eq]
  | deleteQueue queue =>
    refine indexOf_destroyQueueConsumer _ _ _ ?_
    rintro rfl
    refine registered ?_
    simp [BrokerServer.handle, ConsumerManager.consumersOf_destroyQueueConsumer]
  | basicPublish visit tasks exchange properties body =>
    simp only [BrokerServer.handle, BrokerServer.basicPublish]
    cases s.host.selectExchange exchange <;> rfl
  | basicConsume tag queue autoAck =>
    simp only [BrokerServer.handle, BrokerServer.basicConsume]
    split
    · rfl
    · exact indexOf_create _ _ _ _ _ _
  | basicCancel tag queue => exact indexOf_remove _ _ _ _
  | _ => rfl

theorem apply_indexOf {op : ServerOp} (other : ∀ index, op ≠ .execute index)
    (registered : (op.apply codec matchHeaders s).cmp.consumersOf queueName ≠ []) :
    indexOf (op.apply codec matchHeaders s).cmp queueName = indexOf s.cmp queueName := by
  cases op with
  | newConnection conn =>
    simp only [ServerOp.apply, BrokerServer.newConnection]
    split <;> rfl
  | deleteConnection conn => exact destroyChannels_indexOf _
  | openChannel conn rid cid =>
    simp only [ServerOp.apply, BrokerServer.openChannel]
    split
    · rfl
    · split <;> rfl
  | closeChannel conn rid cid =>
    rw [ServerOp.apply, closeChannel_cmp]
    exact destroyChannels_indexOf _
  | request conn rid cid call =>
    simp only [ServerOp.apply, BrokerServer.request] at registered ⊢
    cases selected : s.selectChannel conn cid with
    | none => rfl
    | some ch =>
      rw [selected] at registered
      exact handle_indexOf codec matchHeaders ch rid cid call registered
  | execute index => exact absurd rfl (other index)
  | queueRuntimeStats queueName => rfl
  | compactQueue queueName => rfl

/-- A task takes no turn, or the one that is due. -/
theorem consume_turn (registered : s.cmp.consumersOf queueName ≠ []) (qname : Bytes) :
    let (delivery?, s') := s.consume codec qname
    let served := ((delivery?.filter fun d => d.qname == queueName).map Delivery.consumer).toList
    (served = [] ∧ indexOf s'.cmp queueName = indexOf s.cmp queueName) ∨
      ∃ c, served = [c] ∧
        Rotation.turn (s.cmp.consumersOf queueName) (indexOf s.cmp queueName) = some c ∧
        indexOf s'.cmp queueName =
          (indexOf s.cmp queueName + 1) % (s.cmp.consumersOf queueName).length := by
  simp only [BrokerServer.consume]
  rcases s.host.basicConsume codec qname with ⟨_ | mp, host⟩
  · exact .inl ⟨rfl, rfl⟩
  · by_cases here : queueName = qname
    · subst here
      obtain ⟨due, next⟩ := choose_turn s.cmp queueName registered
      have somebody := ConsumerManager.choose_isSome registered
      generalize s.cmp.choose queueName = picked at due next somebody
      obtain ⟨_ | cp, cmp⟩ := picked
      · cases somebody
      · exact .inr ⟨cp, by simp, due.symm, next⟩
    · have kept := indexOf_choose_ne s.cmp qname queueName here
      generalize s.cmp.choose qname = picked at kept
      obtain ⟨_ | cp, cmp⟩ := picked
      · exact .inl ⟨rfl, kept⟩
      · exact .inl ⟨by simp [Ne.symm here], kept⟩

theorem apply_turn (registered : s.cmp.consumersOf queueName ≠ []) {op : ServerOp}
    (steady : (op.apply codec matchHeaders s).cmp.consumersOf queueName =
      s.cmp.consumersOf queueName) :
    (servedBy codec queueName s op = [] ∧
        indexOf (op.apply codec matchHeaders s).cmp queueName = indexOf s.cmp queueName) ∨
      ∃ c, servedBy codec queueName s op = [c] ∧
        Rotation.turn (s.cmp.consumersOf queueName) (indexOf s.cmp queueName) = some c ∧
        indexOf (op.apply codec matchHeaders s).cmp queueName =
          (indexOf s.cmp queueName + 1) % (s.cmp.consumersOf queueName).length := by
  cases op with
  | execute index =>
    simp only [servedBy, ServerOp.apply, BrokerServer.execute]
    cases s.pool[index]? with
    | none => exact .inl ⟨rfl, rfl⟩
    | some task =>
      have turn := consume_turn codec (s := { s with pool := s.pool.eraseIdx index }) registered
      exact turn task.qname
  | _ =>
    exact .inl ⟨rfl, apply_indexOf codec matchHeaders (fun _ same => by cases same)
      (steady ▸ registered)⟩

/-- While the consumers stay the same the messages are handed out in turn. -/
theorem serves_turns (registered : s.cmp.consumersOf queueName ≠ []) {ops : List ServerOp}
    (steady : Along (ServerOp.apply codec matchHeaders) (fun s op =>
      (op.apply codec matchHeaders s).cmp.consumersOf queueName = s.cmp.consumersOf queueName)
      s ops) :
    let served := answers (serves codec matchHeaders queueName) s ops
    served.map some = Rotation.turns (s.cmp.consumersOf queueName) (indexOf s.cmp queueName)
      served.length := by
  induction ops generalizing s with
  | nil => rfl
  | cons op ops ih =>
    obtain ⟨now, later⟩ := steady
    have rest := ih (now ▸ registered) later
    simp only [answers_cons, serves] at rest ⊢
    rw [now] at rest
    rcases apply_turn codec matchHeaders registered now with
      ⟨nobody, kept⟩ | ⟨c, served, due, next⟩
    · rw [nobody, List.nil_append]
      rwa [kept] at rest
    · rw [served, List.singleton_append, List.map_cons, List.length_cons, Rotation.turns_succ, due]
      rw [next, Rotation.turns_mod] at rest
      rw [rest]

structure Tagged (s : BrokerServer) : Prop where
  unique : UniqueTags s.cmp
  lists : Topology.Subscribable s

theorem Tagged.apply (tagged : Tagged s) (op : ServerOp) :
    Tagged (op.apply codec matchHeaders s) := by
  refine ⟨?_, tagged.lists.apply op⟩
  cases op with
  | request conn rid cid call =>
    simp only [ServerOp.apply, BrokerServer.request]
    cases s.selectChannel conn cid with
    | none => exact tagged.unique
    | some ch =>
      have sound : Sound s (registered s.cmp) := ⟨fun _ => Iff.rfl, tagged.unique, tagged.lists⟩
      exact handle_unique sound ch rid cid call
  | _ =>
    exact (apply_registered codec matchHeaders tagged.unique fun _ _ _ _ same => by cases same).1

theorem tagged_of_reachable (reached : s.Reachable codec matchHeaders) : Tagged s := by
  refine Machine.Reachable.invariant ?_ (fun s op tagged => tagged.apply codec matchHeaders op)
    reached
  intro s fresh
  have sound := Sound.initial fresh
  exact ⟨sound.unique, sound.lists⟩

end Step

/-- As long as the consumers of a queue stay the same each of them gets its share of the queue's
messages, in turn, whatever else the broker does. -/
theorem consumers_served_fairly (codec : Codec)
    (matchHeaders : StrMap Bytes → StrMap Bytes → Bool) {s : BrokerServer}
    (reached : s.Reachable codec matchHeaders) {queueName : Bytes}
    (registered : s.cmp.consumersOf queueName ≠ []) (ops : List ServerOp)
    (steady : Along (ServerOp.apply codec matchHeaders) (fun s op =>
      (op.apply codec matchHeaders s).cmp.consumersOf queueName = s.cmp.consumersOf queueName)
      s ops) :
    let consumers := s.cmp.consumersOf queueName
    let served := answers (serves codec matchHeaders queueName) s ops
    (∃ place, served.map some = Rotation.turns consumers place served.length) ∧
      ∀ c ∈ consumers, served.count c = served.length / consumers.length ∨
        served.count c = served.length ⌈/⌉ consumers.length := by
  intro consumers served
  have turns : served.map some = Rotation.turns consumers (indexOf s.cmp queueName)
      served.length := serves_turns codec matchHeaders registered steady
  refine ⟨⟨_, turns⟩, ?_⟩
  intro c member
  have distinct : consumers.Nodup :=
    .of_map Consumer.tag ((tagged_of_reachable codec matchHeaders reached).unique queueName)
  have counted := Rotation.count_turns distinct member (indexOf s.cmp queueName) served.length
  rw [← turns, List.count_map_of_injective _ _ (Option.some_injective _)] at counted
  exact counted

def sharedBroker : BrokerServer :=
  exec (ServerOp.apply Wire.codec fun _ _ => false) (.new .blank)
    (twoChannels ++ [subscribe (str "c") (str "t"), subscribe (str "d") (str "u")])

def publishHi : ServerOp :=
  .request 0 [] (str "c") (.basicPublish .stored .stored [] (some { routingKey := str "q" })
    (str "hi"))

/-- Of three messages one consumer gets two and the other one. -/
theorem consumers_served_fairly_example :
    let consumers := sharedBroker.cmp.consumersOf (str "q")
    let served := answers (serves Wire.codec (fun _ _ => false) (str "q")) sharedBroker
      [publishHi, .execute 0, publishHi, publishHi, .execute 1, .execute 0]
    (∃ place, served.map some = Rotation.turns consumers place served.length) ∧
      ∀ c ∈ consumers, served.count c = served.length / consumers.length ∨
        served.count c = served.length ⌈/⌉ consumers.length :=
  consumers_served_fairly Wire.codec (fun _ _ => false)
    (Reachable.exec (.start ⟨_, VirtualHost.blank_initial, rfl⟩) _) (by decide +kernel) _
    (by decide +kernel)

end HzMq.Delivery
