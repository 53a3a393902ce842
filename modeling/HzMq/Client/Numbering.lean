import HzMq.Library.Handover
import HzMq.Service.Refinement

/-!
# The numbers that messages get

A message that a client publishes comes with a routing key and without an id, so the
server numbers it and at most one queue takes it. What else a client can ask for
takes messages out of queues at most.
-/

namespace HzMq.Client

open VirtualHost

theorem toStdString_injective : Function.Injective toStdString := by
  intro m n same
  have read := congrArg number same
  rwa [number_toStdString, number_toStdString, Option.some.injEq] at read

def issued (start n : Nat) : List Bytes :=
  (List.range n).map fun i => toStdString ((start + i + 1) % 2 ^ 64)

theorem issued_succ (start n : Nat) :
    issued start (n + 1) = issued start n ++ [toStdString ((start + n + 1) % 2 ^ 64)] := by
  rw [issued, List.range_succ, List.map_append]
  rfl

/-- Less than a full round of the counter, all numbers are different. -/
theorem issued_nodup {n : Nat} (start : Nat) (bounded : n ≤ 2 ^ 64) : (issued start n).Nodup := by
  refine List.Nodup.map_on ?_ List.nodup_range
  intro i inside j inside' same
  have equal := toStdString_injective same
  rw [List.mem_range] at inside inside'
  omega

theorem issued_ne_nil {start n : Nat} {id : Bytes} (given : id ∈ issued start n) : id ≠ [] := by
  obtain ⟨i, -, rfl⟩ := List.mem_map.mp given
  exact toStdString_ne_nil _

def idsOf (t : Service) (queueName : Bytes) : List Bytes := (t.letters queueName).map Letter.id

/-- Nothing is put into a queue, and no number is given out. -/
structure Loses (t t' : Service) : Prop where
  fewer : ∀ queueName, (t'.letters queueName).Sublist (t.letters queueName)
  seq : t'.seq = t.seq

inductive Change (t t' : Service) : Prop
  | loses : Loses t t' → Change t t'
  | skips : t'.letters = t.letters → t'.seq = (t.seq + 1) % 2 ^ 64 → Change t t'
  | puts (queueName : Bytes) : idsOf t' =
        Function.update (idsOf t) queueName (idsOf t queueName ++ [t.nextId]) →
      t'.seq = (t.seq + 1) % 2 ^ 64 → Change t t'

def Plain (bp : Option BasicProperties) : Prop :=
  ∃ props, bp = some props ∧ props.routingKey ≠ [] ∧ props.id = []

def Takes : HostOp → Prop
  | .declareQueue _ durable _ _ _ => durable = false
  | .declareQueueWithDlq _ durable _ _ _ _ => durable = false
  | .publishToExchange _ _ _ _ => False
  | .basicPublish _ _ _ => False
  | .publishEx _ _ _ _ _ => False
  | .basicNack _ _ _ _ _ => False
  | _ => True

section Change

variable {t : Service}

theorem Loses.same {t' : Service} (letters : t'.letters = t.letters) (seq : t'.seq = t.seq) :
    Loses t t' := ⟨fun _ => letters ▸ List.Sublist.refl _, seq⟩

theorem Change.same {t' : Service} (letters : t'.letters = t.letters) (seq : t'.seq = t.seq) :
    Change t t' := .loses (.same letters seq)

theorem sublist_update {letters : Bytes → List Letter} {queueName : Bytes} {rest : List Letter}
    (less : rest.Sublist (letters queueName)) (other : Bytes) :
    (Function.update letters queueName rest other).Sublist (letters other) := by
  by_cases same : other = queueName
  · subst same
    rwa [Function.update_self]
  · rw [Function.update_of_ne same]

theorem remove_sublist (letters : List Letter) (id : Bytes) :
    (Letter.remove letters id).Sublist letters := by
  rw [Letter.remove]
  split
  · exact List.tail_sublist letters
  · exact List.eraseP_sublist

variable (t) in
theorem post_letters (receivers : List Bytes) (letter : Bytes → Letter) {queueName : Bytes}
    (only : ∀ receiver ∈ receivers, receiver = queueName) :
    (t.post receivers letter).letters = t.letters ∨
      idsOf (t.post receivers letter) = Function.update (idsOf t) queueName
        (idsOf t queueName ++ [(letter queueName).id]) := by
  by_cases takes : queueName ∈ receivers
  · right
    funext other
    by_cases same : other = queueName
    · subst same
      simp [idsOf, Service.post, takes]
    · have passed : other ∉ receivers := fun member => same (only other member)
      simp [idsOf, Service.post, passed, same]
  · left
    funext other
    have passed : other ∉ receivers := fun member => takes (only other member ▸ member)
    simp [Service.post, passed]

variable (t) in
theorem publish_change (matchHeaders : StrMap Bytes → StrMap Bytes → Bool) (visit : Visit Binding)
    (exchangeName : Bytes) {bp : Option BasicProperties} (plain : Plain bp) (body : Bytes) :
    Change t (t.publish matchHeaders visit exchangeName bp body).2 := by
  obtain ⟨props, rfl, key, anonymous⟩ := plain
  unfold Service.publish
  cases t.exchanges exchangeName with
  | none => exact .same rfl rfl
  | some type =>
    have counts (tried : Bool) : Service.counts (some props) tried = tried := by
      simp [Service.counts, anonymous]
    have number : (t.letterFor (some props) body props.routingKey).id = t.nextId := by
      simp [Service.letterFor, Service.idFor, anonymous, Letter.id]
    have posted := post_letters t
      (accepted (Service.matching matchHeaders type (some props)) (some props.routingKey)
        (visit.order (t.bindingsOf exchangeName)))
      (t.letterFor (some props) body) fun _ member => eq_key_of_mem_accepted key member
    rw [number] at posted
    simp only [counts, Option.map_some]
    split
    · rcases posted with same | put
      · exact .skips same rfl
      · exact .puts props.routingKey put rfl
    · next untried =>
      have nobody : accepted (Service.matching matchHeaders type (some props))
          (some props.routingKey) (visit.order (t.bindingsOf exchangeName)) = [] := by
        refine List.eq_nil_iff_forall_not_mem.mpr ?_
        intro queueName member
        obtain ⟨binding, visited, matching⟩ := mem_accepted member
        exact untried (List.any_eq_true.mpr ⟨_, visited, matching⟩)
      rw [nobody]
      exact .same (by funext queueName; simp [Service.post]) rfl

theorem Loses.update {queueName : Bytes} {rest : List Letter}
    (less : rest.Sublist (t.letters queueName)) :
    Loses t { t with letters := Function.update t.letters queueName rest } :=
  ⟨sublist_update less, rfl⟩

theorem ack_loses (t : Service) (queueName id : Bytes) : Loses t (t.ack queueName id) :=
  .update (remove_sublist _ id)

theorem take_loses (t : Service) (queueName : Bytes) : Loses t (t.take queueName).2 :=
  .update (List.tail_sublist _)

theorem addQueue_loses (t : Service) (queueName : Bytes) (target : DeadLetterTarget) :
    Loses t (t.addQueue queueName target []) := by
  unfold Service.addQueue
  split
  · exact .same rfl rfl
  · exact ⟨sublist_update (List.nil_sublist _), rfl⟩

theorem Loses.bind {t' : Service} (loses : Loses t t') (exchangeName queueName bindingKey : Bytes)
    (bindingArgs : StrMap Bytes) :
    Loses t (t'.bind exchangeName queueName bindingKey bindingArgs).2 := by
  unfold Service.bind
  split <;> exact ⟨loses.fewer, loses.seq⟩

theorem query_loses (t : Service) (names : List Bytes) : Loses t (t.query names).2 := by
  unfold Service.query
  split
  · exact .same rfl rfl
  · exact take_loses t _

end Change

section Host

variable (codec : Codec) (matchHeaders : StrMap Bytes → StrMap Bytes → Bool)

theorem takes_loses {h : VirtualHost} (ok : h.WellFormed) {op : HostOp} (takes : Takes op) :
    Loses h.service (op.apply codec matchHeaders h).service := by
  rw [apply_service codec matchHeaders ok]
  have empty {queueName : Bytes} {durable : Bool} (volatile : durable = false) :
      h.kept codec queueName durable = [] := by
    subst volatile
    rfl
  cases op with
  | declareExchange exchangeName type durable autoDelete args =>
    simp only [HostOp.reads, Option.map_some, Option.getD_some, ServiceOp.act,
      Service.declareExchange]
    split <;> exact .same rfl rfl
  | deleteExchange exchangeName => exact .same rfl rfl
  | declareQueue queueName durable exclusive autoDelete args =>
    simp only [HostOp.reads, Option.map_some, Option.getD_some, ServiceOp.act, empty takes]
    exact (addQueue_loses _ queueName _).bind _ _ _ _
  | declareQueueWithDlq queueName durable exclusive autoDelete args config =>
    simp only [HostOp.reads, Option.map_some, Option.getD_some, ServiceOp.act, empty takes]
    exact addQueue_loses _ queueName _
  | deleteQueue queueName =>
    exact ⟨sublist_update (List.nil_sublist (h.service.letters queueName)), rfl⟩
  | bind exchangeName queueName bindingKey bindingArgs =>
    exact (Loses.same rfl rfl : Loses h.service h.service).bind _ _ _ _
  | unbind exchangeName queueName =>
    simp only [HostOp.reads, Option.map_some, Option.getD_some, ServiceOp.act, Service.unbind]
    split <;> exact .same rfl rfl
  | publishToExchange visit exchangeName bp body => exact absurd takes id
  | basicPublish queueName bp body => exact absurd takes id
  | publishEx visit exchangeName routingKey bp body => exact absurd takes id
  | basicConsume queueName => exact take_loses h.service queueName
  | basicConsumeAndRemove queueName => exact take_loses h.service queueName
  | basicAck queueName msgId => exact ack_loses h.service queueName msgId
  | basicNack visit queueName msgId requeue reason => exact absurd takes id
  | basicQuery visit => exact query_loses h.service _
  | queueRuntimeStats queueName => exact .same rfl rfl
  | compactQueue queueName => exact .same rfl rfl

variable {codec matchHeaders}

def stored (h : VirtualHost) : Bytes → List Bytes := idsOf h.service

/-- The counter stands where `n` numbers from `start` on leave it, and what was handed over and
what still waits is in the order of these numbers. -/
structure Numbered {ρ : Type} (start n : Nat) (handed : ρ → Bytes → List Bytes)
    (h : VirtualHost) : Prop where
  seq : h.seq % 2 ^ 64 = (start + n) % 2 ^ 64
  orderly : Handover.Orderly (issued start n) handed (stored h)

theorem Numbered.change {ρ : Type} {start n : Nat} {handed : ρ → Bytes → List Bytes}
    {h h' : VirtualHost} (numbered : Numbered start n handed h) (bounded : n < 2 ^ 64)
    (change : Change h.service h'.service) :
    ∃ m, m ≤ n + 1 ∧ Numbered start m handed h' := by
  have next : (h.seq + 1) % 2 ^ 64 = (start + n + 1) % 2 ^ 64 := by
    have seq := numbered.seq
    omega
  have counted (seq : h'.service.seq = (h.service.seq + 1) % 2 ^ 64) :
      h'.seq % 2 ^ 64 = (start + (n + 1)) % 2 ^ 64 := by
    have moved : h'.seq = (h.seq + 1) % 2 ^ 64 := seq
    omega
  cases change with
  | loses loses =>
    have moved : h'.seq = h.seq := loses.seq
    refine ⟨n, Nat.le_succ n, by rw [moved, numbered.seq], numbered.orderly.lose ?_ ?_⟩
    · exact fun _ _ => List.Sublist.refl _
    · exact fun queueName => (loses.fewer queueName).map Letter.id
  | skips same seq =>
    refine ⟨n + 1, Nat.le_refl _, counted seq, ?_⟩
    have ids : stored h' = stored h := by
      funext queueName
      rw [stored, stored, idsOf, idsOf, same]
    rw [ids, issued_succ]
    exact numbered.orderly.issue _
  | puts queueName put seq =>
    refine ⟨n + 1, Nat.le_refl _, counted seq, ?_⟩
    have given : h.service.nextId = toStdString ((start + n + 1) % 2 ^ 64) :=
      congrArg toStdString next
    have fresh : toStdString ((start + n + 1) % 2 ^ 64) ∉ issued start n := by
      have distinct := issued_nodup start (n := n + 1) bounded
      rw [issued_succ, List.nodup_append] at distinct
      exact fun member => distinct.2.2 _ member _ (List.mem_singleton_self _) rfl
    rw [stored, put, given, issued_succ]
    exact numbered.orderly.put fresh queueName

end Host

end HzMq.Client
