import HzMq.Common.Wire
import HzMq.Server.VirtualHost.Bindings
import HzMq.Server.VirtualHost.Publish

/-!
# Declaring a queue again, and declaring it in two ways

A declaration of an existing name is always accepted and looks at no attribute.
The two ways to declare a queue differ in one thing: only the plain one binds
the queue to the default exchange, each time it is called.
-/

namespace HzMq.Topology

open VirtualHost

/-- The attributes a plain declaration asks for are those of the queue; argument tables
count as equal when they give the same value for every key. -/
structure SameAttributes (info : MsgQueue) (durable exclusive autoDelete : Bool)
    (args : StrMap Bytes) : Prop where
  durable : info.durable = durable
  exclusive : info.exclusive = exclusive
  autoDelete : info.autoDelete = autoDelete
  args : ∀ key, info.args.lookup key = args.lookup key

structure Unchanged (h h' : VirtualHost) : Prop where
  queueMgr : h'.queueMgr = h.queueMgr
  queueMessages : h'.queueMessages = h.queueMessages
  fs : h'.fs = h.fs
  exchangeMgr : h'.exchangeMgr = h.exchangeMgr
  bindings : ∀ exchange queue, h'.bindingAt exchange queue = h.bindingAt exchange queue

/-- A safe answer to the declaration of an existing queue: yes exactly when it asks for
what the queue has, and no effect in either case. -/
structure SafelyRedeclared (same : Prop) (h : VirtualHost) (result : Bool × VirtualHost) :
    Prop where
  answer : result.1 = true ↔ same
  unchanged : Unchanged h result.2

section Redeclare

variable {codec : Codec} {h : VirtualHost} {queueName : Bytes} {info : MsgQueue}

theorem declare_of_known {mgr : MsgQueueManager} (known : mgr.selectQueue queueName = some info)
    (q : MsgQueue) : mgr.declare queueName q = (true, mgr) :=
  if_pos (Option.isSome_of_eq_some known)

theorem addStore_of_known (ok : WellFormed h) (known : h.queueMgr.selectQueue queueName = some info)
    (durable : Bool) : h.addStore codec queueName durable = h := by
  have stored : (h.queueMessages.lookup queueName).isSome := by
    rw [← ok.stored]
    exact Option.isSome_of_eq_some known
  exact if_pos stored

theorem declareQueue_of_known (ok : WellFormed h)
    (known : h.queueMgr.selectQueue queueName = some info) (durable exclusive autoDelete : Bool)
    (args : StrMap Bytes) :
    h.declareQueue codec queueName durable exclusive autoDelete args =
      (true, (h.bind [] queueName queueName).2) := by
  rw [declareQueue_eq, MsgQueueManager.declareQueue, declare_of_known known]
  exact congrArg (fun h : VirtualHost => (true, (h.bind [] queueName queueName).2))
    (addStore_of_known ok known durable)

theorem declareQueueWithDlq_of_known (ok : WellFormed h)
    (known : h.queueMgr.selectQueue queueName = some info) (durable exclusive autoDelete : Bool)
    (args : StrMap Bytes) (dlqConfig : DeadLetterConfig) :
    h.declareQueueWithDlq codec queueName durable exclusive autoDelete args dlqConfig =
      (true, h) := by
  rw [declareQueueWithDlq_eq, MsgQueueManager.declareQueueWithDlq, declare_of_known known]
  exact congrArg (Prod.mk true) (addStore_of_known ok known durable)

/-- Binding again changes nothing when the binding is there already, or cannot be made. -/
theorem unchanged_bind_iff (known : h.queueMgr.exists? queueName = true) :
    Unchanged h (h.bind [] queueName queueName).2 ↔
      h.selectExchange [] = none ∨
        h.bindingAt [] queueName = some ⟨[], queueName, queueName, ∅⟩ := by
  constructor
  · intro unchanged
    cases default : h.selectExchange [] with
    | none => exact Or.inl rfl
    | some exchange =>
      have same := unchanged.bindings [] queueName
      rw [bindingAt_bind, if_pos ⟨by simp [default], known, rfl, rfl⟩] at same
      exact Or.inr same.symm
  · intro harmless
    obtain ⟨stores, sameFs, exchanges⟩ := bind_stores h [] queueName queueName ∅
    refine ⟨(bind_mgr h [] queueName queueName ∅).1, stores, sameFs, exchanges,
      fun exchange queue => ?_⟩
    rw [bindingAt_bind]
    split
    · next here =>
      rcases harmless with absent | bound
      · simp [absent] at here
      · rw [here.2.2.1, here.2.2.2, bound]
    · rfl

end Redeclare

/-- A declaration of an existing queue is answered safely exactly when it asks for what the
queue has and, if it is the plain one, the default binding is in place or impossible. -/
theorem redeclaration_safe_iff (codec : Codec)
    (matchHeaders : StrMap Bytes → StrMap Bytes → Bool) {h : VirtualHost}
    (reached : h.Reachable codec matchHeaders) {queueName : Bytes} {info : MsgQueue}
    (known : h.queueMgr.selectQueue queueName = some info) (durable exclusive autoDelete : Bool)
    (args : StrMap Bytes) :
    (SafelyRedeclared (SameAttributes info durable exclusive autoDelete args) h
        (h.declareQueue codec queueName durable exclusive autoDelete args) ↔
      SameAttributes info durable exclusive autoDelete args ∧
        (h.selectExchange [] = none ∨
          h.bindingAt [] queueName = some ⟨[], queueName, queueName, ∅⟩)) ∧
    ∀ dlqConfig,
      (SafelyRedeclared
          (SameAttributes info durable exclusive autoDelete args ∧ info.dlqConfig = dlqConfig) h
          (h.declareQueueWithDlq codec queueName durable exclusive autoDelete args dlqConfig) ↔
        SameAttributes info durable exclusive autoDelete args ∧ info.dlqConfig = dlqConfig) := by
  have ok := Reachable.wellFormed reached
  have exists' : h.queueMgr.exists? queueName = true := Option.isSome_of_eq_some known
  constructor
  · rw [declareQueue_of_known ok known]
    constructor
    · intro safe
      exact ⟨safe.answer.mp rfl, (unchanged_bind_iff exists').mp safe.unchanged⟩
    · rintro ⟨same, harmless⟩
      exact ⟨iff_of_true rfl same, (unchanged_bind_iff exists').mpr harmless⟩
  · intro dlqConfig
    rw [declareQueueWithDlq_of_known ok known]
    constructor
    · intro safe
      exact safe.answer.mp rfl
    · intro same
      exact ⟨iff_of_true rfl same, rfl, rfl, rfl, rfl, fun _ _ => rfl⟩

/-- A host with a durable queue that was taken off the default exchange. -/
def unboundHost : VirtualHost :=
  Machine.exec (HostOp.apply Wire.codec fun _ _ => false) .blank
    [.declareQueue (str "q") true false false ∅, .unbind [] (str "q")]

theorem unboundHost_reachable : unboundHost.Reachable Wire.codec fun _ _ => false :=
  Machine.Reachable.exec (.start blank_initial) _

def unboundQueue : MsgQueue := { name := str "q", durable := true }

theorem unboundQueue_known :
    unboundHost.queueMgr.selectQueue (str "q") = some unboundQueue := by decide

theorem redeclaration_safe_example :
    SafelyRedeclared (SameAttributes unboundQueue true false false ∅ ∧
        unboundQueue.dlqConfig = {}) unboundHost
      (unboundHost.declareQueueWithDlq Wire.codec (str "q") true false false ∅ {}) :=
  ((redeclaration_safe_iff Wire.codec (fun _ _ => false) unboundHost_reachable
    unboundQueue_known true false false ∅).2 {}).mpr ⟨⟨rfl, rfl, rfl, fun _ => rfl⟩, rfl⟩

/-- A second declaration restores the binding the client had removed, and one that asks for
a queue that is not durable is accepted as well. -/
theorem redeclaration_unsafe :
    unboundHost.queueMgr.selectQueue (str "q") = some unboundQueue ∧
      ¬SafelyRedeclared (SameAttributes unboundQueue true false false ∅) unboundHost
        (unboundHost.declareQueue Wire.codec (str "q") true false false ∅) ∧
      ¬SafelyRedeclared (SameAttributes unboundQueue false false false ∅) unboundHost
        (unboundHost.declareQueue Wire.codec (str "q") false false false ∅) := by
  refine ⟨unboundQueue_known, ?_, ?_⟩
  · intro safe
    exact absurd (safe.unchanged.bindings [] (str "q")) (by decide)
  · intro safe
    exact absurd (safe.answer.mp (by decide)).durable (by decide)

/-! ### The two ways to declare a new queue -/

/-- The same answer, exchanges, stores and files, and the same queues up to the dead-letter
configuration of the new one. -/
structure SameQueues (queueName : Bytes) (dlqConfig : DeadLetterConfig)
    (plain withDlq : Bool × VirtualHost) : Prop where
  answer : withDlq.1 = plain.1
  metadata : ∀ name, withDlq.2.queueMgr.selectQueue name =
    (plain.2.queueMgr.selectQueue name).map fun info =>
      if name = queueName then info.setDeadLetterConfig dlqConfig else info
  queueMessages : withDlq.2.queueMessages = plain.2.queueMessages
  fs : withDlq.2.fs = plain.2.fs
  exchangeMgr : withDlq.2.exchangeMgr = plain.2.exchangeMgr

structure PathsAgree (queueName : Bytes) (dlqConfig : DeadLetterConfig)
    (plain withDlq : Bool × VirtualHost) : Prop
    extends SameQueues queueName dlqConfig plain withDlq where
  bindings : ∀ exchange queue, withDlq.2.bindingAt exchange queue = plain.2.bindingAt exchange queue

section Paths

variable {codec : Codec} {h : VirtualHost} {queueName : Bytes}

theorem declare_of_unknown {mgr : MsgQueueManager} (unknown : mgr.exists? queueName = false)
    (q : MsgQueue) : mgr.declare queueName q = (true, ⟨mgr.msgQueues.insert queueName q⟩) := by
  simp [MsgQueueManager.declare, unknown, MsgQueueMapper.insert]

variable (codec h queueName) in
/-- Which queues the manager knows does not matter for making a store. -/
theorem addStore_stores (queueMgr queueMgr' : MsgQueueManager) (durable : Bool) :
    (addStore codec { h with queueMgr } queueName durable).queueMessages =
        (addStore codec { h with queueMgr := queueMgr' } queueName durable).queueMessages ∧
      (addStore codec { h with queueMgr } queueName durable).fs =
        (addStore codec { h with queueMgr := queueMgr' } queueName durable).fs := by
  unfold VirtualHost.addStore
  split <;> exact ⟨rfl, rfl⟩

theorem sameQueues_declare (unknown : h.queueMgr.exists? queueName = false)
    (durable exclusive autoDelete : Bool) (args : StrMap Bytes) (dlqConfig : DeadLetterConfig) :
    SameQueues queueName dlqConfig
      (h.declareQueue codec queueName durable exclusive autoDelete args)
      (h.declareQueueWithDlq codec queueName durable exclusive autoDelete args dlqConfig) := by
  rw [declareQueue_eq, declareQueueWithDlq_eq, MsgQueueManager.declareQueue,
    MsgQueueManager.declareQueueWithDlq, declare_of_unknown unknown, declare_of_unknown unknown]
  refine ⟨rfl, ?_, ?_, ?_, ?_⟩
  · intro name
    simp only [(bind_mgr _ _ _ _ _).1, (addStore_tables h codec _ _ _).2.2,
      MsgQueueManager.selectQueue]
    by_cases same : name = queueName
    · subst same
      simp
    · simp [same, AList.lookup_insert_ne]
  · simp only [(bind_stores _ _ _ _ _).1]
    exact (addStore_stores codec h queueName _ _ durable).1
  · simp only [(bind_stores _ _ _ _ _).2.1]
    exact (addStore_stores codec h queueName _ _ durable).2
  · simp only [(bind_stores _ _ _ _ _).2.2, (addStore_tables h codec _ _ _).2.1]

/-- Without a binding the default exchange does not route to a queue. -/
theorem publish_unbound {matchHeaders : StrMap Bytes → StrMap Bytes → Bool} (ok : WellFormed h)
    {exchangeName : Bytes} (unbound : h.bindingAt exchangeName queueName = none)
    (visit : Visit Binding) (bp : Option BasicProperties) (body : Bytes) :
    (h.publishToExchange codec matchHeaders visit exchangeName bp body).2.2.contents queueName =
      h.contents queueName := by
  cases found : h.selectExchange exchangeName with
  | none => rw [publishToExchange_absent codec matchHeaders visit found]
  | some exchange =>
    obtain ⟨log, appends, -, names, -⟩ :=
      publishToExchange_spec codec matchHeaders ok visit found bp body
    refine appends.contents_of_not_mem ?_
    intro logged
    rw [names] at logged
    obtain ⟨binding, visited, -⟩ := mem_accepted logged
    have bound : h.bindingAt exchangeName queueName = some binding := visit.mem_order.mp visited
    rw [unbound] at bound
    cases bound

end Paths

/-- For no new queue do the two declarations agree: they do up to the bindings, but only the
plain one binds the queue to the default exchange, so that after the other one nothing
published there reaches the queue. -/
theorem declaration_paths_disagree (codec : Codec)
    (matchHeaders : StrMap Bytes → StrMap Bytes → Bool) {h : VirtualHost}
    (reached : h.Reachable codec matchHeaders) (default : (h.selectExchange []).isSome)
    {queueName : Bytes} (unknown : h.queueMgr.exists? queueName = false)
    (durable exclusive autoDelete : Bool) (args : StrMap Bytes) (dlqConfig : DeadLetterConfig) :
    let plain := h.declareQueue codec queueName durable exclusive autoDelete args
    let withDlq := h.declareQueueWithDlq codec queueName durable exclusive autoDelete args dlqConfig
    ¬PathsAgree queueName dlqConfig plain withDlq ∧
      SameQueues queueName dlqConfig plain withDlq ∧
      (∀ exchange queue, (exchange, queue) ≠ ([], queueName) →
        withDlq.2.bindingAt exchange queue = plain.2.bindingAt exchange queue) ∧
      ∀ visit bp body,
        (withDlq.2.publishToExchange codec matchHeaders visit [] bp body).2.2.contents queueName =
          withDlq.2.contents queueName := by
  intro plain withDlq
  have ok := Reachable.wellFormed reached
  have bound : plain.2.bindingAt [] queueName = some ⟨[], queueName, queueName, ∅⟩ := by
    rw [bindingAt_declareQueue, if_pos ⟨default, rfl, rfl⟩]
  have before : h.bindingAt [] queueName = none := by
    by_contra stored
    have known := ok.bound [] queueName (Option.isSome_iff_ne_none.mpr stored)
    rw [← ok.stored, unknown] at known
    cases known
  have unbound : withDlq.2.bindingAt [] queueName = none := by
    rw [bindingAt_declareQueueWithDlq, before]
  refine ⟨fun agree => ?_, sameQueues_declare unknown durable exclusive autoDelete args dlqConfig,
    fun exchange queue other => ?_, fun visit bp body => ?_⟩
  · have same := agree.bindings [] queueName
    rw [bound, unbound] at same
    cases same
  · rw [bindingAt_declareQueueWithDlq, bindingAt_declareQueue, if_neg]
    rintro ⟨-, rfl, rfl⟩
    exact other rfl
  · exact publish_unbound
      (ok.declareQueueWithDlq queueName durable exclusive autoDelete args dlqConfig) unbound
      visit bp body

/-- A host right after construction, and a dead-letter configuration. -/
theorem declaration_paths_disagree_example :
    ¬PathsAgree (str "q") ⟨str "dlx", str "k", 3⟩
      (VirtualHost.blank.declareQueue Wire.codec (str "q") true false false ∅)
      (VirtualHost.blank.declareQueueWithDlq Wire.codec (str "q") true false false ∅
        ⟨str "dlx", str "k", 3⟩) :=
  (declaration_paths_disagree Wire.codec (fun _ _ => false) (.start blank_initial) (by decide)
    (by decide) true false false ∅ _).1

/-- The message reaches the queue after the plain declaration, and not after the other one. -/
theorem declaration_paths_route_apart :
    ¬PathsAgree (str "q") ⟨str "dlx", str "k", 3⟩
        (VirtualHost.blank.declareQueue Wire.codec (str "q") true false false ∅)
        (VirtualHost.blank.declareQueueWithDlq Wire.codec (str "q") true false false ∅
          ⟨str "dlx", str "k", 3⟩) ∧
      ((VirtualHost.blank.declareQueue Wire.codec (str "q") false false false ∅).2.publishToExchange
        Wire.codec (fun _ _ => false) .stored [] (some { routingKey := str "q" })
          (str "x")).1 = true ∧
      ((VirtualHost.blank.declareQueueWithDlq Wire.codec (str "q") false false false ∅
        ⟨str "dlx", str "k", 3⟩).2.publishToExchange Wire.codec (fun _ _ => false) .stored []
          (some { routingKey := str "q" }) (str "x")).1 = false := by
  refine ⟨fun agree => absurd (agree.bindings [] (str "q")) ?_, ?_, ?_⟩ <;> decide

end HzMq.Topology
