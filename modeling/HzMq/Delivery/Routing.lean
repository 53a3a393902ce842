import HzMq.Common.Wire
import HzMq.Server.VirtualHost.Publish

/-!
# Publishing to an exchange

Which bindings match is decided with the key the message came with, but the
insertion into a queue tests the key again, against the queue's name, and stores
that name in the message. The two rules agree for all matching queues only under
the condition stated here.
-/

namespace HzMq.Delivery

open VirtualHost

variable (codec : Codec) (matchHeaders : StrMap Bytes → StrMap Bytes → Bool)

def Routed (h : VirtualHost) (exchangeName : Bytes) (exchange : Exchange) (routingKey : Bytes)
    (queueName : Bytes) : Prop :=
  ∃ binding, (h.bindingsOf exchangeName).lookup queueName = some binding ∧
    Router.matchRoute exchange.type routingKey binding.bindingKey = true

/-- Exactly the routed queues gain one message, with the given body, and the answer
says whether there are any. -/
def PublishesToRouted (h : VirtualHost) (visit : Visit Binding) (exchangeName : Bytes)
    (exchange : Exchange) (bp : Option BasicProperties) (body : Bytes) : Prop :=
  let result := h.publishToExchange codec matchHeaders visit exchangeName bp body
  (∀ queueName, Routed h exchangeName exchange (routingKeyOf bp) queueName →
      ∃ m, m.body = body ∧ result.2.2.contents queueName = h.contents queueName ++ [m]) ∧
    (∀ queueName, ¬ Routed h exchangeName exchange (routingKeyOf bp) queueName →
      result.2.2.contents queueName = h.contents queueName) ∧
    (result.1 = true ↔ ∃ queueName, Routed h exchangeName exchange (routingKeyOf bp) queueName)

section Routes

variable {codec matchHeaders} {h : VirtualHost} {exchangeName : Bytes} {exchange : Exchange}

theorem shouldPublish_eq (kind : exchange.type = .direct ∨ exchange.type = .fanout ∨
    exchange.type = .topic) (routingKey : Bytes) (headers : StrMap Bytes) (binding : Binding) :
    shouldPublish matchHeaders exchange.type routingKey headers binding =
      Router.matchRoute exchange.type routingKey binding.bindingKey := by
  rcases kind with kind | kind | kind <;> rw [kind] <;> rfl

theorem publishesToRouted_iff (ok : WellFormed h)
    (found : h.selectExchange exchangeName = some exchange)
    (kind : exchange.type = .direct ∨ exchange.type = .fanout ∨ exchange.type = .topic)
    (visit : Visit Binding) (bp : Option BasicProperties) (body : Bytes) :
    PublishesToRouted codec matchHeaders h visit exchangeName exchange bp body ↔
      ∀ queueName, Routed h exchangeName exchange (routingKeyOf bp) queueName →
        queueName ∈ accepted
          (fun binding => Router.matchRoute exchange.type (routingKeyOf bp) binding.bindingKey)
          (bp.map BasicProperties.routingKey) (visit.order (h.bindingsOf exchangeName)) := by
  obtain ⟨log, appends, bodies, names, answer⟩ :=
    publishToExchange_spec codec matchHeaders ok visit found bp body
  have sameRule : shouldPublish matchHeaders exchange.type (routingKeyOf bp) (headersOf bp) =
      fun binding => Router.matchRoute exchange.type (routingKeyOf bp) binding.bindingKey :=
    funext fun binding => shouldPublish_eq kind _ _ binding
  rw [sameRule] at names
  have distinct : (log.map Prod.fst).Nodup := by
    rw [names]
    exact (accepted_sublist _ _ _).nodup (visit.keys_nodup _)
  have routed : ∀ queueName, queueName ∈ log.map Prod.fst →
      Routed h exchangeName exchange (routingKeyOf bp) queueName := by
    intro queueName logged
    rw [names] at logged
    obtain ⟨binding, visited, matching⟩ := mem_accepted logged
    exact ⟨binding, visit.mem_order.mp visited, matching⟩
  rw [← names]
  constructor
  · rintro ⟨delivered, -, -⟩ queueName isRouted
    by_contra missing
    obtain ⟨m, -, grown⟩ := delivered queueName isRouted
    rw [appends.contents_of_not_mem missing] at grown
    simpa using congrArg List.length grown
  · intro reaches
    refine ⟨?_, ?_, ?_⟩
    · intro queueName isRouted
      obtain ⟨e, inLog, rfl⟩ := List.mem_map.mp (reaches queueName isRouted)
      exact ⟨e.2, (bodies e inLog).1, appends.contents_of_mem distinct inLog⟩
    · intro queueName notRouted
      exact appends.contents_of_not_mem fun logged => notRouted (routed queueName logged)
    · rw [answer]
      cases log with
      | nil =>
        simp only [List.isEmpty_nil, Bool.not_true, Bool.false_eq_true, false_iff, not_exists]
        intro queueName isRouted
        simpa using reaches queueName isRouted
      | cons e rest =>
        simp only [List.isEmpty_cons, Bool.not_false, true_iff]
        exact ⟨e.1, routed e.1 (by simp)⟩

theorem accepted_key_iff {key : Bytes} (set : key ≠ []) :
    (∀ (visit : Visit Binding) (queueName : Bytes), Routed h exchangeName exchange key queueName →
      queueName ∈ accepted (fun binding => Router.matchRoute exchange.type key binding.bindingKey)
        (some key) (visit.order (h.bindingsOf exchangeName))) ↔
      ∀ queueName, Routed h exchangeName exchange key queueName → queueName = key := by
  constructor
  · intro reaches queueName isRouted
    exact eq_key_of_mem_accepted set (reaches .stored queueName isRouted)
  · rintro named visit queueName ⟨binding, bound, matching⟩
    obtain rfl := named queueName ⟨binding, bound, matching⟩
    exact mem_accepted_key set (visit.mem_order.mpr bound) matching

/-- Without a key the first queue that takes the message names it for all others. -/
theorem accepted_unset_iff :
    (∀ (visit : Visit Binding) (queueName : Bytes), Routed h exchangeName exchange [] queueName →
      queueName ∈ accepted (fun binding => Router.matchRoute exchange.type [] binding.bindingKey)
        (some []) (visit.order (h.bindingsOf exchangeName))) ↔
      ∀ a b, Routed h exchangeName exchange [] a → Routed h exchangeName exchange [] b → a = b := by
  constructor
  · intro reaches
    -- of two routed queues, one with a non-empty name is visited first
    have first (a b : Bytes) (named : a ≠ []) (isA : Routed h exchangeName exchange [] a)
        (isB : Routed h exchangeName exchange [] b) : a = b := by
      obtain ⟨binding, bound, matching⟩ := isA
      obtain ⟨before, after, split⟩ := List.append_of_mem (StrMap.mem_pairs.mpr bound)
      have rearranged : ((a, binding) :: (before ++ after)).Perm
          (h.bindingsOf exchangeName).pairs := split ▸ List.perm_middle.symm
      obtain ⟨visit, order⟩ := Visit.exists_order rearranged
      have reached := reaches visit b isB
      rw [order, accepted] at reached
      simp only [matching, acceptsKey, beq_self_eq_true, Bool.true_or, Bool.and_self, if_true,
        Option.map_some, List.mem_cons] at reached
      rcases reached with same | later
      · exact same.symm
      · exact (eq_key_of_mem_accepted named later).symm
    intro a b isA isB
    by_cases named : a = []
    · by_cases named' : b = []
      · rw [named, named']
      · exact (first b a named' isB isA).symm
    · exact first a b named isA isB
  · rintro unique visit queueName ⟨binding, bound, matching⟩
    have someTakes : accepted
        (fun binding => Router.matchRoute exchange.type [] binding.bindingKey) (some [])
        (visit.order (h.bindingsOf exchangeName)) ≠ [] :=
      accepted_ne_nil (visit.mem_order.mpr bound) matching
    obtain ⟨taker, takes⟩ := List.exists_mem_of_ne_nil _ someTakes
    obtain ⟨other, visited, alsoMatching⟩ := mem_accepted takes
    have same := unique queueName taker ⟨binding, bound, matching⟩
      ⟨other, visit.mem_order.mp visited, alsoMatching⟩
    exact same ▸ takes

end Routes

/-- When a publication reaches all the queues its routing key is routed to: it has
no properties; or its key is set and no queue of another name is routed; or its
key is empty and at most one queue is routed. -/
theorem publishToExchange_reaches_routed_iff {h : VirtualHost}
    (reached : h.Reachable codec matchHeaders) {exchangeName : Bytes} {exchange : Exchange}
    (found : h.selectExchange exchangeName = some exchange)
    (kind : exchange.type = .direct ∨ exchange.type = .fanout ∨ exchange.type = .topic)
    (bp : Option BasicProperties) (body : Bytes) :
    (∀ visit, PublishesToRouted codec matchHeaders h visit exchangeName exchange bp body) ↔
      bp = none ∨
        (routingKeyOf bp ≠ [] ∧ ∀ queueName,
          Routed h exchangeName exchange (routingKeyOf bp) queueName →
            queueName = routingKeyOf bp) ∨
        (routingKeyOf bp = [] ∧ ∀ a b, Routed h exchangeName exchange (routingKeyOf bp) a →
          Routed h exchangeName exchange (routingKeyOf bp) b → a = b) := by
  have ok := reached.wellFormed
  simp only [publishesToRouted_iff ok found kind]
  cases bp with
  | none =>
    simp only [Option.map_none, true_or, iff_true]
    rintro visit queueName ⟨binding, bound, matching⟩
    exact mem_accepted_none (visit.mem_order.mpr bound) matching
  | some props =>
    simp only [Option.map_some, reduceCtorEq, false_or]
    have key : routingKeyOf (some props) = props.routingKey := rfl
    rw [key]
    by_cases unset : props.routingKey = []
    · rw [unset, accepted_unset_iff]
      simp
    · rw [accepted_key_iff unset]
      simp [unset]

def directSetup : List HostOp :=
  [.declareExchange (str "direct_exchange") .direct false false ∅,
    .declareQueue (str "queue1") false false false ∅,
    .bind (str "direct_exchange") (str "queue1") (str "key1") ∅]

def directHost : VirtualHost :=
  Machine.exec (HostOp.apply Wire.codec fun _ _ => false)
    .blank directSetup

theorem directHost_reachable : directHost.Reachable Wire.codec fun _ _ => false :=
  Machine.Reachable.exec (.start blank_initial) directSetup

def fanoutHost : VirtualHost :=
  Machine.exec (HostOp.apply Wire.codec fun _ _ => false) .blank
    [.declareExchange (str "news") .fanout false false ∅,
      .declareQueue (str "queue1") false false false ∅,
      .declareQueue (str "queue2") false false false ∅,
      .bind (str "news") (str "queue1") (str "key1") ∅, .bind (str "news") (str "queue2") [] ∅,
      .basicPublish (str "queue1") none (str "before")]

/-- Without properties the message reaches both queues of the exchange. -/
theorem publishToExchange_reaches_routed_example :
    Routed fanoutHost (str "news") ⟨str "news", .fanout, false, false, ∅⟩ [] (str "queue1") ∧
      Routed fanoutHost (str "news") ⟨str "news", .fanout, false, false, ∅⟩ [] (str "queue2") ∧
      PublishesToRouted Wire.codec (fun _ _ => false) fanoutHost .stored (str "news")
        ⟨str "news", .fanout, false, false, ∅⟩ none (str "x") :=
  ⟨⟨⟨str "news", str "queue1", str "key1", ∅⟩, by decide, by decide⟩,
    ⟨⟨str "news", str "queue2", [], ∅⟩, by decide, by decide⟩,
    (publishToExchange_reaches_routed_iff Wire.codec (fun _ _ => false)
      (Machine.Reachable.exec (.start blank_initial) _) rfl (Or.inr (Or.inl rfl)) none
      (str "x")).mpr (Or.inl rfl) .stored⟩

/-- With the binding's key the queue is routed, and nothing reaches it. -/
theorem publishToExchange_misses_routed :
    Routed directHost (str "direct_exchange")
        ⟨str "direct_exchange", .direct, false, false, ∅⟩ (str "key1") (str "queue1") ∧
      ∀ visit, ¬ PublishesToRouted Wire.codec (fun _ _ => false) directHost visit
        (str "direct_exchange") ⟨str "direct_exchange", .direct, false, false, ∅⟩
        (some { routingKey := str "key1" }) (str "direct message") := by
  have routed : Routed directHost (str "direct_exchange")
      ⟨str "direct_exchange", .direct, false, false, ∅⟩ (str "key1") (str "queue1") :=
    ⟨⟨str "direct_exchange", str "queue1", str "key1", ∅⟩, by decide, by decide⟩
  refine ⟨routed, ?_⟩
  intro visit delivers
  have taken := (publishesToRouted_iff directHost_reachable.wellFormed rfl (Or.inl rfl) visit _
    _).mp delivers (str "queue1") routed
  exact absurd (eq_key_of_mem_accepted (by decide) taken) (by decide)

end HzMq.Delivery
