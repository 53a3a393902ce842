import HzMq.Server.Channel
import HzMq.Server.VirtualHost.Frame

/-!
# What the broker does to its host

Every step of the broker is a sequence of host operations, so that whatever
holds of all runs of a host holds of the host inside a broker.
-/

namespace HzMq

namespace BrokerServer

variable (codec : Codec) (matchHeaders : StrMap Bytes → StrMap Bytes → Bool)

/-- The host operation behind a request; subscribing and cancelling have none. -/
def callOps : Call → List HostOp
  | .declareExchange exchangeName type durable autoDelete args =>
    [.declareExchange exchangeName type durable autoDelete args]
  | .deleteExchange exchangeName => [.deleteExchange exchangeName]
  | .declareQueue queueName durable exclusive autoDelete args =>
    [.declareQueue queueName durable exclusive autoDelete args]
  | .declareQueueWithDlq queueName durable exclusive autoDelete args dlqConfig =>
    [.declareQueueWithDlq queueName durable exclusive autoDelete args (dlqConfig.getD {})]
  | .deleteQueue queueName => [.deleteQueue queueName]
  | .bind exchangeName queueName bindingKey => [.bind exchangeName queueName bindingKey ∅]
  | .unbind exchangeName queueName => [.unbind exchangeName queueName]
  | .basicPublish visit _ exchangeName properties body =>
    [.publishToExchange visit exchangeName properties body]
  | .basicAck queueName messageId => [.basicAck queueName messageId]
  | .basicNack visit queueName messageId requeue reason =>
    [.basicNack visit queueName messageId requeue reason]
  | .basicConsume _ _ _ => []
  | .basicCancel _ _ => []
  | .basicQuery visit => [.basicQuery visit]

/-- A consume task takes the head and, for a consumer with `auto_ack`, acknowledges it. -/
def consumeOps (s : BrokerServer) (qname : Bytes) : List HostOp :=
  .basicConsume qname ::
    match (s.host.basicConsume codec qname).1, (s.cmp.choose qname).1 with
    | some mp, some cp => if cp.autoAck then [.basicAck qname mp.id] else []
    | _, _ => []

def hostOps (s : BrokerServer) : ServerOp → List HostOp
  | .request conn _ cid call => if (s.selectChannel conn cid).isSome then callOps call else []
  | .execute index => ((s.pool[index]?).map fun task => consumeOps codec s task.qname).getD []
  | .queueRuntimeStats queueName => [.queueRuntimeStats queueName]
  | .compactQueue queueName => [.compactQueue queueName]
  | _ => []

theorem basicPublish_host (s : BrokerServer) (ch : ChannelRef) (visit tasks : Visit Binding)
    (exchangeName : Bytes) (properties : Option BasicProperties) (body : Bytes) :
    (s.basicPublish codec matchHeaders ch visit tasks exchangeName properties body).2.host =
      (s.host.publishToExchange codec matchHeaders visit exchangeName properties body).2.2 := by
  unfold BrokerServer.basicPublish
  cases found : s.host.selectExchange exchangeName with
  | none => simp [VirtualHost.publishToExchange, found]
  | some exchange => rfl

theorem handle_host (s : BrokerServer) (ch : Channel) (rid cid : Bytes) (call : Call) :
    (s.handle codec matchHeaders ch rid cid call).2.2.host =
      Machine.exec (HostOp.apply codec matchHeaders) s.host (callOps call) := by
  cases call with
  | basicPublish visit tasks exchangeName properties body =>
    exact basicPublish_host codec matchHeaders s ch.ref visit tasks exchangeName properties body
  | basicConsume consumerTag queueName autoAck =>
    simp only [handle, BrokerServer.basicConsume, callOps, Machine.exec_nil]
    split <;> rfl
  | declareQueue queueName durable exclusive autoDelete args =>
    simp only [handle]
    split <;> rfl
  | declareQueueWithDlq queueName durable exclusive autoDelete args dlqConfig =>
    simp only [handle]
    split <;> rfl
  | _ => rfl

theorem consume_host (s : BrokerServer) (qname : Bytes) :
    (s.consume codec qname).2.host =
      Machine.exec (HostOp.apply codec matchHeaders) s.host (consumeOps codec s qname) := by
  simp only [consumeOps, Machine.exec_cons, HostOp.apply, consume]
  rcases s.host.basicConsume codec qname with ⟨_ | mp, host⟩
  · rfl
  · rcases s.cmp.choose qname with ⟨_ | cp, cmp⟩
    · rfl
    · cases auto : cp.autoAck <;> simp [auto, HostOp.apply]

theorem onMessages_of_consumeOps {s : BrokerServer} {qname : Bytes} {op : HostOp}
    (member : op ∈ consumeOps codec s qname) : VirtualHost.Frame.onMessages op = true := by
  rcases List.mem_cons.mp member with rfl | acknowledged
  · rfl
  · split at acknowledged
    · split at acknowledged
      · rw [List.mem_singleton.mp acknowledged]
        rfl
      · cases acknowledged
    · cases acknowledged

theorem destroyChannel_host (s : BrokerServer) (ch : Channel) :
    (s.destroyChannel ch).host = s.host := by
  unfold destroyChannel
  split <;> rfl

theorem deleteConnection_host (s : BrokerServer) (conn : Nat) :
    (s.deleteConnection conn).host = s.host := by
  have each (channels : List (Bytes × Channel)) (s : BrokerServer) :
      (channels.foldl (fun s e => s.destroyChannel e.2) s).host = s.host := by
    induction channels generalizing s with
    | nil => rfl
    | cons e channels ih => rw [List.foldl_cons, ih, destroyChannel_host]
  exact each _ s

theorem apply_host (s : BrokerServer) (op : ServerOp) :
    (op.apply codec matchHeaders s).host =
      Machine.exec (HostOp.apply codec matchHeaders) s.host (s.hostOps codec op) := by
  cases op with
  | newConnection conn =>
    simp only [ServerOp.apply, newConnection, hostOps, Machine.exec_nil]
    split <;> rfl
  | deleteConnection conn => exact deleteConnection_host s conn
  | openChannel conn rid cid =>
    simp only [ServerOp.apply, openChannel, hostOps, Machine.exec_nil]
    split
    · rfl
    · split <;> rfl
  | closeChannel conn rid cid =>
    simp only [ServerOp.apply, closeChannel, hostOps, Machine.exec_nil]
    split
    · rfl
    · simp only
      split
      · rfl
      · exact destroyChannel_host s _
  | request conn rid cid call =>
    simp only [ServerOp.apply, request, hostOps]
    cases s.selectChannel conn cid with
    | none => rfl
    | some ch => exact handle_host codec matchHeaders s ch rid cid call
  | execute index =>
    simp only [ServerOp.apply, execute, hostOps]
    cases s.pool[index]? with
    | none => rfl
    | some task => exact consume_host codec matchHeaders _ task.qname
  | queueRuntimeStats queueName => rfl
  | compactQueue queueName => rfl

variable {codec matchHeaders}

theorem Reachable.host {s : BrokerServer} (reached : s.Reachable codec matchHeaders) :
    s.host.Reachable codec matchHeaders := by
  induction reached with
  | start initial =>
    obtain ⟨host, fresh, rfl⟩ := initial
    exact .start fresh
  | next op _ ih =>
    rw [apply_host]
    exact ih.exec _

end BrokerServer

end HzMq
