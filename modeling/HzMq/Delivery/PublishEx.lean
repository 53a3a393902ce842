import HzMq.Delivery.Confirmation
import HzMq.Delivery.Routing

/-!
# Publishing with an explicit routing key

`publish_ex` hands one shared properties object to every matching queue and never
looks at the key again, so unlike `publish_to_exchange` it reaches all of them.
-/

namespace HzMq.Delivery

open VirtualHost

def keyOr (bp : Option BasicProperties) (routingKey : Bytes) : Bytes :=
  if routingKeyOf bp = [] then routingKey else routingKeyOf bp

def keyed (bp : Option BasicProperties) (routingKey : Bytes) : BasicProperties :=
  { bp.getD {} with routingKey := keyOr bp routingKey }

theorem exProps_eq (bp : Option BasicProperties) (routingKey : Bytes) :
    exProps bp routingKey = keyed bp routingKey := by
  have key : routingKeyOf bp = (bp.getD {}).routingKey := by cases bp <;> rfl
  simp only [exProps, keyed, keyOr, key]
  split <;> rfl

def Gained (h h' : VirtualHost) (queueName : Bytes) (props : BasicProperties) (body : Bytes) :
    Prop :=
  ∃ m, Appended h h' queueName m ∧ m.body = body ∧ m.payload.properties? = some props

section PublishEx

variable (codec : Codec) {h : VirtualHost} {exchangeName : Bytes} {exchange : Exchange}

theorem mem_followed (visit : Visit Binding) (routingKey queueName : Bytes) :
    queueName ∈ followed exchange.type routingKey (visit.order (h.bindingsOf exchangeName)) ↔
      Routed h exchangeName exchange routingKey queueName := by
  simp only [followed, List.mem_map, List.mem_filter, Routed]
  constructor
  · rintro ⟨⟨name, binding⟩, ⟨visited, matching⟩, rfl⟩
    exact ⟨binding, visit.mem_order.mp visited, matching⟩
  · rintro ⟨binding, bound, matching⟩
    exact ⟨(queueName, binding), ⟨visit.mem_order.mpr bound, matching⟩, rfl⟩

theorem followed_nodup (visit : Visit Binding) (type : ExchangeType) (routingKey : Bytes) :
    (followed type routingKey (visit.order (h.bindingsOf exchangeName))).Nodup :=
  (visit.keys_nodup _).sublist (List.filter_sublist.map _)

theorem publishEx_gained (ok : WellFormed h) (found : h.selectExchange exchangeName = some exchange)
    (visit : Visit Binding) (routingKey : Bytes) (bp : Option BasicProperties) (body : Bytes)
    {queueName : Bytes}
    (routed : Routed h exchangeName exchange (keyOr bp routingKey) queueName) :
    Gained h (h.publishEx codec visit exchangeName routingKey bp body).2.2 queueName
      (keyed bp routingKey) body := by
  obtain ⟨log, appends, copies, names, -⟩ :=
    publishEx_spec codec ok visit found routingKey bp body
  rw [exProps_eq] at copies names
  have distinct : (log.map Prod.fst).Nodup := names ▸ followed_nodup visit _ _
  have taken : queueName ∈ log.map Prod.fst := names ▸ (mem_followed visit _ queueName).mpr routed
  obtain ⟨e, inLog, rfl⟩ := List.mem_map.mp taken
  exact ⟨e.2, appends.contents_of_mem distinct inLog, copies e inLog⟩

theorem publishEx_passed (ok : WellFormed h) (found : h.selectExchange exchangeName = some exchange)
    (visit : Visit Binding) (routingKey : Bytes) (bp : Option BasicProperties) (body : Bytes)
    {queueName : Bytes}
    (other : ¬Routed h exchangeName exchange (keyOr bp routingKey) queueName) :
    (h.publishEx codec visit exchangeName routingKey bp body).2.2.contents queueName =
      h.contents queueName := by
  obtain ⟨log, appends, -, names, -⟩ := publishEx_spec codec ok visit found routingKey bp body
  rw [exProps_eq] at names
  refine appends.contents_of_not_mem fun taken => other ?_
  exact (mem_followed visit _ queueName).mp (names ▸ taken)

theorem publishEx_answer (ok : WellFormed h) (found : h.selectExchange exchangeName = some exchange)
    (visit : Visit Binding) (routingKey : Bytes) (bp : Option BasicProperties) (body : Bytes) :
    (h.publishEx codec visit exchangeName routingKey bp body).1 = true ↔
      ∃ queueName, Routed h exchangeName exchange (keyOr bp routingKey) queueName := by
  obtain ⟨log, -, -, names, answer⟩ := publishEx_spec codec ok visit found routingKey bp body
  rw [exProps_eq] at names
  have nonempty : (!log.isEmpty) = true ↔ ∃ queueName, queueName ∈ log.map Prod.fst := by
    cases log <;> simp
  rw [answer, nonempty, names]
  exact exists_congr fun queueName => mem_followed visit _ queueName

end PublishEx

/-- Every queue bound by a key that the routing key matches gains one message, no other queue
does, all copies have the same body and properties whatever the order of the visits, and the
answer says whether there is such a queue. Without the exchange nothing happens. -/
theorem publishEx_delivers (codec : Codec) (matchHeaders : StrMap Bytes → StrMap Bytes → Bool)
    {h : VirtualHost} (reached : h.Reachable codec matchHeaders) (visit : Visit Binding)
    (exchangeName routingKey : Bytes) (bp : Option BasicProperties) (body : Bytes) :
    match h.selectExchange exchangeName with
    | none => h.publishEx codec visit exchangeName routingKey bp body = (false, bp, h)
    | some exchange =>
      let result := h.publishEx codec visit exchangeName routingKey bp body
      let key := keyOr bp routingKey
      (∀ queueName, Routed h exchangeName exchange key queueName →
          Gained h result.2.2 queueName { bp.getD {} with routingKey := key } body) ∧
        (∀ queueName, ¬Routed h exchangeName exchange key queueName →
          result.2.2.contents queueName = h.contents queueName) ∧
        (result.1 = true ↔ ∃ queueName, Routed h exchangeName exchange key queueName) := by
  have ok := reached.wellFormed
  cases found : h.selectExchange exchangeName with
  | none => exact publishEx_absent codec visit found routingKey bp body
  | some exchange =>
    exact ⟨fun queueName => publishEx_gained codec ok found visit routingKey bp body,
      fun queueName => publishEx_passed codec ok found visit routingKey bp body,
      publishEx_answer codec ok found visit routingKey bp body⟩

/-- With the key of its binding the queue is reached, without properties to carry it. -/
theorem publishEx_delivers_example :
    Gained directHost
      (directHost.publishEx Wire.codec .stored (str "direct_exchange") (str "key1") none
        (str "direct message")).2.2
      (str "queue1") { routingKey := str "key1" } (str "direct message") :=
  (publishEx_delivers Wire.codec (fun _ _ => false) directHost_reachable .stored
    (str "direct_exchange") (str "key1") none (str "direct message")).1 (str "queue1")
    ⟨⟨str "direct_exchange", str "queue1", str "key1", ∅⟩, by decide, by decide⟩

end HzMq.Delivery
