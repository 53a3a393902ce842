import HzMq.Common.Wire
import HzMq.Library.Refinement
import HzMq.Service.View

/-!
# The virtual host is that service

Every operation of a well-formed host is, on what there is to see of it, the
operation of the service; taking statistics and compacting are no operation at
all.
-/

namespace HzMq

section Reads

variable (codec : Codec) (matchHeaders : StrMap Bytes → StrMap Bytes → Bool)

def HostOp.reads (h : VirtualHost) : HostOp → Option ServiceOp
  | .declareExchange exchangeName type _ _ _ => some (.declareExchange exchangeName type)
  | .deleteExchange exchangeName => some (.deleteExchange exchangeName)
  | .declareQueue queueName durable _ _ _ =>
    some (.declareQueue queueName (h.kept codec queueName durable))
  | .declareQueueWithDlq queueName durable _ _ _ config =>
    some (.declareQueueWithDlq queueName ⟨config.exchangeName, config.routingKey⟩
      (h.kept codec queueName durable))
  | .deleteQueue queueName => some (.deleteQueue queueName)
  | .bind exchangeName queueName bindingKey bindingArgs =>
    some (.bind exchangeName queueName bindingKey bindingArgs)
  | .unbind exchangeName queueName => some (.unbind exchangeName queueName)
  | .basicPublish queueName bp body => some (.publishQueue queueName bp body)
  | .publishToExchange visit exchangeName bp body => some (.publish visit exchangeName bp body)
  | .publishEx visit exchangeName routingKey bp body =>
    some (.publishEx visit exchangeName routingKey bp body)
  | .basicConsume queueName => some (.take queueName)
  | .basicConsumeAndRemove queueName => some (.take queueName)
  | .basicAck queueName msgId => some (.ack queueName msgId)
  | .basicNack visit queueName msgId requeue _ => some (.nack visit queueName msgId requeue)
  | .basicQuery visit => some (.query ((visit.order h.queueMessages).map Prod.fst))
  | .queueRuntimeStats _ => none
  | .compactQueue _ => none

/-- What the caller is told; a statistic is told to the management interface. -/
def HostOp.answers (h : VirtualHost) : HostOp → List ServiceAnswer
  | .declareExchange exchangeName type durable autoDelete args =>
    [.done (h.declareExchange exchangeName type durable autoDelete args).1]
  | .declareQueue queueName durable exclusive autoDelete args =>
    [.done (h.declareQueue codec queueName durable exclusive autoDelete args).1]
  | .declareQueueWithDlq queueName durable exclusive autoDelete args config =>
    [.done (h.declareQueueWithDlq codec queueName durable exclusive autoDelete args config).1]
  | .bind exchangeName queueName bindingKey bindingArgs =>
    [.done (h.bind exchangeName queueName bindingKey bindingArgs).1]
  | .basicPublish queueName bp body => [.done (h.basicPublish codec queueName bp body).1]
  | .publishToExchange visit exchangeName bp body =>
    [.done (h.publishToExchange codec matchHeaders visit exchangeName bp body).1]
  | .publishEx visit exchangeName routingKey bp body =>
    [.done (h.publishEx codec visit exchangeName routingKey bp body).1]
  | .basicConsume queueName =>
    [.letter ((h.basicConsume codec queueName).1.map MessagePtr.letter)]
  | .basicConsumeAndRemove queueName =>
    [.letter ((h.basicConsumeAndRemove codec queueName).1.map MessagePtr.letter)]
  | .basicQuery visit => [.text (h.basicQuery codec visit).1]
  | _ => []

def HostOp.act (h : VirtualHost) (op : HostOp) : List ServiceAnswer × VirtualHost :=
  (op.answers codec matchHeaders h, op.apply codec matchHeaders h)

end Reads

namespace VirtualHost

/-- One step: nothing for the upkeep, the service's own step for everything else. -/
theorem refines_service (codec : Codec) (matchHeaders : StrMap Bytes → StrMap Bytes → Bool) :
    Machine.Abstraction WellFormed (HostOp.act codec matchHeaders) (ServiceOp.act matchHeaders)
      service (HostOp.reads codec) where
  keeps h op ok := ok.apply op
  silent h op _ read := by
    cases op with
    | queueRuntimeStats queueName => exact ⟨rfl, queueRuntimeStats_service h queueName⟩
    | compactQueue queueName => exact ⟨rfl, compactQueue_service h queueName⟩
    | _ => cases read
  shows h op op' ok read := by
    cases op with
    | declareExchange exchangeName type durable autoDelete args =>
      cases read
      obtain ⟨answer, moves⟩ := h.declareExchange_service exchangeName type durable autoDelete args
      exact ⟨congrArg (fun b => [ServiceAnswer.done b]) answer, moves⟩
    | deleteExchange exchangeName =>
      cases read
      exact ⟨rfl, deleteExchange_service h exchangeName⟩
    | declareQueue queueName durable exclusive autoDelete args =>
      cases read
      have declared := declared_service codec ok queueName durable
        { name := queueName, durable, exclusive, autoDelete, args }
      simp only [HostOp.act, HostOp.answers, HostOp.apply, ServiceOp.act, declareQueue_eq]
      refine ⟨trivial, ?_⟩
      rw [(bind_service _ _ _ _ _).2]
      exact congrArg (fun t => (Service.bind t [] queueName queueName ∅).2) declared
    | declareQueueWithDlq queueName durable exclusive autoDelete args config =>
      cases read
      simp only [HostOp.act, HostOp.answers, HostOp.apply, ServiceOp.act, declareQueueWithDlq_eq]
      exact ⟨trivial, declared_service codec ok queueName durable _⟩
    | deleteQueue queueName =>
      cases read
      exact ⟨rfl, deleteQueue_service h queueName⟩
    | bind exchangeName queueName bindingKey bindingArgs =>
      cases read
      obtain ⟨answer, moves⟩ := bind_service h exchangeName queueName bindingKey bindingArgs
      exact ⟨congrArg (fun b => [ServiceAnswer.done b]) answer, moves⟩
    | unbind exchangeName queueName =>
      cases read
      exact ⟨rfl, unbind_service h exchangeName queueName⟩
    | basicPublish queueName bp body =>
      cases read
      obtain ⟨answer, moves⟩ := basicPublish_service codec ok queueName bp body
      exact ⟨congrArg (fun b => [ServiceAnswer.done b]) answer, moves⟩
    | publishToExchange visit exchangeName bp body =>
      cases read
      obtain ⟨answer, moves⟩ :=
        publishToExchange_service codec matchHeaders ok visit exchangeName bp body
      exact ⟨congrArg (fun b => [ServiceAnswer.done b]) answer, moves⟩
    | publishEx visit exchangeName routingKey bp body =>
      cases read
      obtain ⟨answer, moves⟩ := publishEx_service codec ok visit exchangeName routingKey bp body
      exact ⟨congrArg (fun b => [ServiceAnswer.done b]) answer, moves⟩
    | basicConsume queueName =>
      cases read
      obtain ⟨answer, moves⟩ := takeFront_service codec h queueName
      exact ⟨congrArg (fun l => [ServiceAnswer.letter l]) answer, moves⟩
    | basicConsumeAndRemove queueName =>
      cases read
      obtain ⟨answer, moves⟩ := takeFront_service codec h queueName
      exact ⟨congrArg (fun l => [ServiceAnswer.letter l]) answer, moves⟩
    | basicAck queueName msgId =>
      cases read
      exact ⟨rfl, basicAck_service codec h queueName msgId⟩
    | basicNack visit queueName msgId requeue reason =>
      cases read
      exact ⟨rfl, basicNack_service codec matchHeaders ok visit queueName msgId requeue reason⟩
    | basicQuery visit =>
      cases read
      obtain ⟨answer, moves⟩ := basicQuery_service codec h visit
      exact ⟨congrArg (fun b => [ServiceAnswer.text b]) answer, moves⟩
    | queueRuntimeStats queueName => cases read
    | compactQueue queueName => cases read

theorem apply_service (codec : Codec) (matchHeaders : StrMap Bytes → StrMap Bytes → Bool)
    {h : VirtualHost} (ok : h.WellFormed) (op : HostOp) :
    (op.apply codec matchHeaders h).service =
      ((op.reads codec h).map fun r => (r.act matchHeaders h.service).2).getD h.service := by
  cases read : op.reads codec h with
  | none => exact ((refines_service codec matchHeaders).silent h op ok read).2
  | some r => exact ((refines_service codec matchHeaders).shows h op r ok read).2

/-- Along every run of every host that can be reached, the answers are those of the service
and what there is to see at the end is the state of the service. -/
theorem host_refines_service (codec : Codec) (matchHeaders : StrMap Bytes → StrMap Bytes → Bool)
    {h : VirtualHost} (reached : h.Reachable codec matchHeaders) (ops : List HostOp) :
    let read := Machine.readings (HostOp.act codec matchHeaders) (HostOp.reads codec) h ops
    Machine.answers (HostOp.act codec matchHeaders) h ops =
        Machine.answers (ServiceOp.act matchHeaders) h.service read ∧
      (Machine.exec (HostOp.apply codec matchHeaders) h ops).service =
        Machine.final (ServiceOp.act matchHeaders) h.service read :=
  (refines_service codec matchHeaders).run reached.wellFormed ops

/-- A durable queue is declared, compacted and drained. -/
theorem host_refines_service_example :
    let ops : List HostOp := [.declareQueue (str "q") true false false ∅,
      .basicPublish (str "q") none (str "x"), .compactQueue (str "q"), .basicConsume (str "q")]
    Machine.answers (HostOp.act Wire.codec fun _ _ => false) .blank ops =
      Machine.answers (ServiceOp.act fun _ _ => false) VirtualHost.blank.service
        (Machine.readings (HostOp.act Wire.codec fun _ _ => false) (HostOp.reads Wire.codec)
          .blank ops) :=
  (host_refines_service Wire.codec (fun _ _ => false) (.start blank_initial) _).1

end VirtualHost

end HzMq
