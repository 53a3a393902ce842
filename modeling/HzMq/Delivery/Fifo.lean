import HzMq.Common.Wire
import HzMq.Server.VirtualHost.Publish

/-!
# First in, first out

The host refines a family of abstract FIFO queues: a publication is a run of
puts, taking a message is a take of the head, although the source removes by
id.
-/

namespace HzMq.Delivery

open VirtualHost KeyedFifo Machine

variable (codec : Codec) (matchHeaders : StrMap Bytes → StrMap Bytes → Bool)

def publishes : HostOp → Bool
  | .basicPublish _ _ _ => true
  | .publishToExchange _ _ _ _ => true
  | .publishEx _ _ _ _ _ => true
  | _ => false

def consumes : HostOp → Bool
  | .basicConsume _ => true
  | .basicConsumeAndRemove _ => true
  | .basicQuery _ => true
  | _ => false

def takenBy (h : VirtualHost) : HostOp → List (Bytes × MessagePtr)
  | .basicConsume queue => ((h.basicConsume codec queue).1.map fun m => (queue, m)).toList
  | .basicConsumeAndRemove queue =>
    ((h.basicConsumeAndRemove codec queue).1.map fun m => (queue, m)).toList
  | .basicQuery visit =>
    match queryTarget (visit.order h.queueMessages) with
    | none => []
    | some (queue, _, m) => [(queue, m)]
  | _ => []

/-- What a publication adds to a queue: the part by which it has grown. -/
def appendedBy (h : VirtualHost) (op : HostOp) (queueName : Bytes) : List MessagePtr :=
  if publishes op then
    ((op.apply codec matchHeaders h).contents queueName).drop (h.contents queueName).length
  else []

def taken (queueName : Bytes) : VirtualHost → List HostOp → List MessagePtr
  | _, [] => []
  | h, op :: ops =>
    ((takenBy codec h op).filter fun e => e.1 = queueName).map Prod.snd ++
      taken queueName (op.apply codec matchHeaders h) ops

def appended (queueName : Bytes) : VirtualHost → List HostOp → List MessagePtr
  | _, [] => []
  | h, op :: ops =>
    appendedBy codec matchHeaders h op queueName ++
      appended queueName (op.apply codec matchHeaders h) ops

variable {codec matchHeaders} {h : VirtualHost}

def Simulates (codec : Codec) (matchHeaders : StrMap Bytes → StrMap Bytes → Bool)
    (h : VirtualHost) (op : HostOp) : Prop :=
  ∃ events, Steps FifoStep h.contents events (op.apply codec matchHeaders h).contents ∧
    ∀ queueName,
      takes queueName events = ((takenBy codec h op).filter fun e => e.1 = queueName).map Prod.snd ∧
        puts queueName events = appendedBy codec matchHeaders h op queueName

theorem simulates_of_appends {op : HostOp} {log : List (Bytes × MessagePtr)}
    (isPublish : publishes op = true) (appends : Appends h (op.apply codec matchHeaders h) log) :
    Simulates codec matchHeaders h op := by
  refine ⟨_, appends, fun queueName => ⟨?_, ?_⟩⟩
  · have nothing : takenBy codec h op = [] := by cases op <;> first | rfl | cases isPublish
    rw [nothing, takes_log]
    rfl
  · rw [puts_log, appendedBy, if_pos isPublish, appends.contents_eq, List.drop_left]

theorem simulates_of_take {op : HostOp} (queueName : Bytes) (isConsume : consumes op = true)
    (effect : op.apply codec matchHeaders h = (h.takeFront codec queueName).2)
    (hands : takenBy codec h op =
      ((h.takeFront codec queueName).1.map fun m => (queueName, m)).toList) :
    Simulates codec matchHeaders h op := by
  have noAppend : ∀ name, appendedBy codec matchHeaders h op name = [] := by
    intro name
    have notPublish : publishes op = false := by cases op <;> first | rfl | cases isConsume
    rw [appendedBy, notPublish]
    rfl
  rw [Simulates, effect, hands]
  cases held : h.contents queueName with
  | nil =>
    rw [takeFront_empty codec held]
    exact ⟨[], .nil _, fun name => ⟨rfl, (noAppend name).symm⟩⟩
  | cons m rest =>
    obtain ⟨out, left⟩ := takeFront_cons codec held
    rw [out, left]
    refine ⟨[.take queueName m], Steps.one (.take queueName m rest held), fun name => ⟨?_, ?_⟩⟩
    · by_cases same : queueName = name <;> simp [takes, same]
    · rw [noAppend]
      rfl

theorem publication_appends (ok : WellFormed h) {op : HostOp} (isPublish : publishes op = true) :
    ∃ log, Appends h (op.apply codec matchHeaders h) log := by
  cases op with
  | basicPublish queueName bp body =>
    obtain ⟨log, appends, -⟩ := basicPublish_appends codec h queueName bp body
    exact ⟨log, appends⟩
  | publishToExchange visit exchangeName bp body =>
    obtain ⟨log, appends, -⟩ :=
      publishToExchange_appends codec matchHeaders ok visit exchangeName bp body
    exact ⟨log, appends⟩
  | publishEx visit exchangeName routingKey bp body =>
    obtain ⟨log, appends, -⟩ := publishEx_appends codec ok visit exchangeName routingKey bp body
    exact ⟨log, appends⟩
  | _ => cases isPublish

theorem simulates_of_idle {op : HostOp} (isConsume : consumes op = true)
    (effect : op.apply codec matchHeaders h = h) (hands : takenBy codec h op = []) :
    Simulates codec matchHeaders h op := by
  refine ⟨[], ?_, fun name => ⟨?_, ?_⟩⟩
  · rw [effect]
    exact .nil _
  · rw [hands]
    rfl
  · have notPublish : publishes op = false := by cases op <;> first | rfl | cases isConsume
    simp [appendedBy, notPublish]

theorem simulates (ok : WellFormed h) {op : HostOp}
    (allowed : publishes op = true ∨ consumes op = true) : Simulates codec matchHeaders h op := by
  rcases allowed with isPublish | isConsume
  · obtain ⟨log, appends⟩ := publication_appends ok isPublish
    exact simulates_of_appends isPublish appends
  · cases op with
    | basicConsume queueName => exact simulates_of_take queueName isConsume rfl rfl
    | basicConsumeAndRemove queueName => exact simulates_of_take queueName isConsume rfl rfl
    | basicQuery visit =>
      have effect : (HostOp.basicQuery visit).apply codec matchHeaders h =
          (h.basicQuery codec visit).2 := rfl
      rw [basicQuery_eq] at effect
      cases found : queryTarget (visit.order h.queueMessages) with
      | none =>
        exact simulates_of_idle isConsume (by rw [effect, found]) (by simp [takenBy, found])
      | some pulled =>
        obtain ⟨queueName, store, m⟩ := pulled
        obtain ⟨visited, held⟩ := queryTarget_some found
        refine simulates_of_take queueName isConsume (by rw [effect, found]) ?_
        have stored := visit.mem_order.mp visited
        simp [takenBy, found, takeFront, stored, held]
    | _ => cases isConsume

/-- In every run of publications and consumptions, what was taken out of a queue
followed by what it holds is what it held at the start followed by what was
appended to it. -/
theorem run_fifo {h : VirtualHost} (reached : h.Reachable codec matchHeaders) (ops : List HostOp)
    (allowed : ∀ op ∈ ops, publishes op = true ∨ consumes op = true) (queueName : Bytes) :
    taken codec matchHeaders queueName h ops ++
        (exec (HostOp.apply codec matchHeaders) h ops).contents queueName =
      h.contents queueName ++ appended codec matchHeaders queueName h ops := by
  induction ops generalizing h with
  | nil => simp [taken, appended]
  | cons op ops ih =>
    obtain ⟨events, steps, ledger⟩ := simulates reached.wellFormed (allowed op List.mem_cons_self)
    obtain ⟨took, put⟩ := ledger queueName
    have first := steps.fifo_ledger queueName
    have later := ih (reached.next op) fun other member =>
      allowed other (List.mem_cons_of_mem op member)
    rw [took, put] at first
    rw [taken, appended, exec_cons, List.append_assoc, later, ← List.append_assoc, first,
      List.append_assoc]

/-- Two messages with one id go into a queue that is declared first; a pull and a
consumption take them out again. -/
def repeatedIdRun : List HostOp :=
  [.basicPublish (str "q") (some { id := str "m" }) (str "1"),
    .basicPublish (str "q") (some { id := str "m" }) (str "2"),
    .basicQuery .stored, .basicConsume (str "q")]

def declaredHost : VirtualHost :=
  HostOp.apply Wire.codec (fun _ _ => false)
    .blank
    (.declareQueue (str "q") false false false ∅)

theorem run_fifo_example :
    taken Wire.codec (fun _ _ => false) (str "q") declaredHost repeatedIdRun ++
        (exec (HostOp.apply Wire.codec fun _ _ => false) declaredHost repeatedIdRun).contents
          (str "q") =
      declaredHost.contents (str "q") ++
        appended Wire.codec (fun _ _ => false) (str "q") declaredHost repeatedIdRun :=
  run_fifo (.next _ (.start blank_initial)) repeatedIdRun (by decide) (str "q")

example : (taken Wire.codec (fun _ _ => false) (str "q") declaredHost repeatedIdRun).map
    MessagePtr.body = [str "1", str "2"] := by decide

end HzMq.Delivery
