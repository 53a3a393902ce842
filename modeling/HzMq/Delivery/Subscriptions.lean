import HzMq.Topology.Tables

/-!
# Who owns a subscription

A subscription belongs to the channel it was requested on and should last until
it is cancelled, its queue is deleted or that channel is closed. A channel,
however, keeps one consumer only, and its destructor removes by queue and tag
whatever is registered there.
-/

namespace HzMq.Delivery

open Machine HzMq.Topology

structure Subscription where
  queueName : Bytes
  tag : Bytes
  owner : ChannelRef
  deriving DecidableEq

def registered (cmp : ConsumerManager) : List Subscription :=
  cmp.queueConsumers.pairs.flatMap fun e =>
    e.2.consumers.map fun c => ⟨e.1, c.tag, c.callback⟩

section Ledger

variable (s : BrokerServer)

def closing : ServerOp → List Channel
  | .closeChannel conn _ cid => (s.selectChannel conn cid).toList
  | .deleteConnection conn => ((s.connections.lookup conn).getD ∅).pairs.map Prod.snd
  | _ => []

/-- What a request does to the subscriptions: one is made when the queue exists and its tag
is not in use there. -/
def requested (ch : Channel) (subs : List Subscription) : Call → List Subscription
  | .basicConsume tag queueName _ =>
    if s.host.queueMgr.exists? queueName &&
        !subs.any fun x => x.queueName == queueName && x.tag == tag then
      subs ++ [⟨queueName, tag, ch.ref⟩]
    else subs
  | .basicCancel tag queueName => subs.filter fun x => !(x.queueName == queueName && x.tag == tag)
  | .deleteQueue queueName => subs.filter fun x => !(x.queueName == queueName)
  | _ => subs

def subscriptions (subs : List Subscription) : ServerOp → List Subscription
  | .request conn _ cid call =>
    match s.selectChannel conn cid with
    | none => subs
    | some ch => requested s ch subs call
  | op => subs.filter fun x => !(closing s op).any fun ch => ch.ref == x.owner

def remembers (x : Subscription) (ch : Channel) : Bool :=
  ch.consumer.any fun c => c.qname == x.queueName && c.tag == x.tag

/-- A subscription is only asked for with a tag that is free in its queue, and a channel is
only closed while its remembered consumer is the one consumer registered for it. -/
def keepsOwnership : ServerOp → Bool
  | .request conn _ cid (.basicConsume tag queueName _) =>
    (s.selectChannel conn cid).isNone || !s.host.queueMgr.exists? queueName ||
      !(s.cmp.consumersOf queueName).any fun c => c.tag == tag
  | .request _ _ _ _ => true
  | op => (registered s.cmp).all fun x =>
      ((closing s op).any fun ch => ch.ref == x.owner) == (closing s op).any (remembers x)

/-- A subscribing request is answered by yes exactly when it registers a new consumer. -/
def Truthful : ServerOp → Prop
  | .request conn _ cid (.basicConsume tag queueName autoAck) =>
    ∀ ch, s.selectChannel conn cid = some ch →
      ((s.basicConsume ch tag queueName autoAck).1 = true ↔
        (s.basicConsume ch tag queueName autoAck).2.2.cmp.consumersOf queueName =
          s.cmp.consumersOf queueName ++ [⟨tag, queueName, autoAck, ch.ref⟩])
  | _ => True

def InStep (subs : List Subscription) : Prop := ∀ x, x ∈ registered s.cmp ↔ x ∈ subs

end Ledger

section Registered

variable {cmp : ConsumerManager}

theorem mem_registered {x : Subscription} :
    x ∈ registered cmp ↔
      ∃ c ∈ cmp.consumersOf x.queueName, c.tag = x.tag ∧ c.callback = x.owner := by
  constructor
  · intro member
    obtain ⟨⟨queueName, qc⟩, stored, listed⟩ := List.mem_flatMap.mp member
    obtain ⟨c, inList, rfl⟩ := List.mem_map.mp listed
    have found := StrMap.mem_pairs.mp stored
    exact ⟨c, by rwa [cmp.consumersOf_of_lookup found], rfl, rfl⟩
  · rintro ⟨c, inList, sameTag, sameOwner⟩
    obtain ⟨queueName, tag, owner⟩ := x
    subst sameTag sameOwner
    cases found : cmp.queueConsumers.lookup queueName with
    | none => simp [ConsumerManager.consumersOf, found] at inList
    | some qc =>
      rw [cmp.consumersOf_of_lookup found] at inList
      exact List.mem_flatMap.mpr ⟨(queueName, qc), StrMap.mem_pairs.mpr found,
        List.mem_map.mpr ⟨c, inList, rfl⟩⟩

theorem registered_congr {cmp' : ConsumerManager}
    (same : ∀ name, cmp'.consumersOf name = cmp.consumersOf name) (x : Subscription) :
    x ∈ registered cmp' ↔ x ∈ registered cmp := by
  rw [mem_registered, mem_registered, same]

def UniqueTags (cmp : ConsumerManager) : Prop :=
  ∀ queueName, ((cmp.consumersOf queueName).map Consumer.tag).Nodup

theorem eraseP_eq_filter {consumers : List Consumer}
    (unique : (consumers.map Consumer.tag).Nodup) (tag : Bytes) :
    consumers.eraseP (fun c => c.tag == tag) = consumers.filter fun c => c.tag != tag := by
  induction consumers with
  | nil => rfl
  | cons c consumers ih =>
    obtain ⟨fresh, rest⟩ := List.nodup_cons.mp unique
    by_cases here : c.tag = tag
    · have others : consumers.filter (fun c => c.tag != tag) = consumers := by
        refine List.filter_eq_self.mpr ?_
        intro d member
        have differs : d.tag ≠ tag := fun same =>
          fresh (here ▸ same ▸ List.mem_map_of_mem member)
        simpa using differs
      simp [here, others]
    · simp [here, ih rest]

theorem mem_registered_destroy (queueName : Bytes) (x : Subscription) :
    x ∈ registered (cmp.destroyQueueConsumer queueName) ↔
      x ∈ registered cmp ∧ x.queueName ≠ queueName := by
  simp only [mem_registered, ConsumerManager.consumersOf_destroyQueueConsumer]
  by_cases same : x.queueName = queueName <;> simp [same]

theorem mem_registered_remove (unique : UniqueTags cmp) (tag queueName : Bytes)
    (x : Subscription) :
    x ∈ registered (cmp.remove tag queueName) ↔
      x ∈ registered cmp ∧ ¬(x.queueName = queueName ∧ x.tag = tag) := by
  simp only [mem_registered, ConsumerManager.consumersOf_remove]
  by_cases same : x.queueName = queueName
  · rw [if_pos same, eraseP_eq_filter (unique x.queueName)]
    simp only [List.mem_filter, bne_iff_ne, same, true_and]
    constructor
    · rintro ⟨c, ⟨inList, differs⟩, sameTag, sameOwner⟩
      exact ⟨⟨c, inList, sameTag, sameOwner⟩, fun here => differs (sameTag.trans here)⟩
    · rintro ⟨⟨c, inList, sameTag, sameOwner⟩, other⟩
      exact ⟨c, ⟨inList, fun here => other (sameTag.symm.trans here)⟩, sameTag, sameOwner⟩
  · simp [same]

theorem mem_registered_create {queueName : Bytes}
    (known : (cmp.queueConsumers.lookup queueName).isSome) (tag : Bytes) (autoAck : Bool)
    (ref : ChannelRef) (x : Subscription) :
    x ∈ registered (cmp.create tag queueName autoAck ref).2 ↔
      x ∈ registered cmp ∨ (cmp.consumersOf queueName).any (fun c => c.tag == tag) = false ∧
        x = ⟨queueName, tag, ref⟩ := by
  obtain ⟨xQueue, xTag, xOwner⟩ := x
  simp only [mem_registered, cmp.consumersOf_create known, Subscription.mk.injEq]
  by_cases free : (cmp.consumersOf queueName).any (fun c => c.tag == tag) = false
  · by_cases same : xQueue = queueName
    · subst same
      simp only [free, and_self, if_true, List.mem_append, List.mem_singleton, true_and]
      constructor
      · rintro ⟨c, inList | rfl, sameTag, sameOwner⟩
        · exact Or.inl ⟨c, inList, sameTag, sameOwner⟩
        · exact Or.inr ⟨sameTag.symm, sameOwner.symm⟩
      · rintro (⟨c, inList, sameTag, sameOwner⟩ | ⟨rfl, rfl⟩)
        · exact ⟨c, Or.inl inList, sameTag, sameOwner⟩
        · exact ⟨_, Or.inr rfl, rfl, rfl⟩
    · simp [same]
  · simp [free]

namespace UniqueTags

theorem of_same {cmp' : ConsumerManager} (unique : UniqueTags cmp)
    (same : ∀ name, cmp'.consumersOf name = cmp.consumersOf name) : UniqueTags cmp' := fun name =>
  (congrArg (fun cs => (cs.map Consumer.tag).Nodup) (same name)).mpr (unique name)

theorem destroy (unique : UniqueTags cmp) (queueName : Bytes) :
    UniqueTags (cmp.destroyQueueConsumer queueName) := fun name => by
  rw [ConsumerManager.consumersOf_destroyQueueConsumer]
  split
  · exact List.nodup_nil
  · exact unique name

theorem remove (unique : UniqueTags cmp) (tag queueName : Bytes) :
    UniqueTags (cmp.remove tag queueName) := fun name => by
  rw [ConsumerManager.consumersOf_remove]
  split
  · exact (unique name).sublist (List.eraseP_sublist.map _)
  · exact unique name

theorem create (unique : UniqueTags cmp) {queueName : Bytes}
    (known : (cmp.queueConsumers.lookup queueName).isSome) (tag : Bytes) (autoAck : Bool)
    (ref : ChannelRef) : UniqueTags (cmp.create tag queueName autoAck ref).2 := fun name => by
  rw [cmp.consumersOf_create known]
  split
  · next added =>
    obtain ⟨rfl, free⟩ := added
    rw [List.map_append, List.nodup_append]
    refine ⟨unique name, List.nodup_singleton _, ?_⟩
    rintro t taken u new rfl
    obtain ⟨c, inList, rfl⟩ := List.mem_map.mp taken
    rw [List.any_eq_false] at free
    exact free c inList (by simpa using new)
  · exact unique name

end UniqueTags

end Registered

section Step

variable {codec : Codec} {matchHeaders : StrMap Bytes → StrMap Bytes → Bool} {s : BrokerServer}
  {subs : List Subscription}

/-- Destroying channels removes what they remember, one after the other. -/
theorem destroyChannels_registered (channels : List (Bytes × Channel))
    (unique : UniqueTags s.cmp) :
    UniqueTags (channels.foldl (fun s e => s.destroyChannel e.2) s).cmp ∧
      ∀ x, x ∈ registered (channels.foldl (fun s e => s.destroyChannel e.2) s).cmp ↔
        x ∈ registered s.cmp ∧ (channels.map Prod.snd).any (remembers x) = false := by
  induction channels generalizing s with
  | nil => exact ⟨unique, by simp⟩
  | cons e channels ih =>
    obtain ⟨cid, ch⟩ := e
    have first : UniqueTags (s.destroyChannel ch).cmp ∧
        ∀ x, x ∈ registered (s.destroyChannel ch).cmp ↔
          x ∈ registered s.cmp ∧ remembers x ch = false := by
      unfold BrokerServer.destroyChannel
      cases kept : ch.consumer with
      | none => exact ⟨unique, by simp [remembers, kept]⟩
      | some c =>
        refine ⟨unique.remove c.tag c.qname, ?_⟩
        intro x
        have recalled : remembers x ch = false ↔ ¬(x.queueName = c.qname ∧ x.tag = c.tag) := by
          rw [remembers, kept]
          simp [@eq_comm _ c.qname, @eq_comm _ c.tag]
        rw [mem_registered_remove unique, recalled]
    obtain ⟨unique', rest⟩ := ih first.1
    refine ⟨unique', ?_⟩
    intro x
    rw [List.foldl_cons, rest, first.2]
    simp [and_assoc]

theorem closeChannel_cmp (conn : Nat) (rid cid : Bytes) :
    (s.closeChannel conn rid cid).2.cmp =
      (((s.selectChannel conn cid).toList.map fun ch => (cid, ch)).foldl
        (fun s e => s.destroyChannel e.2) s).cmp := by
  unfold BrokerServer.closeChannel BrokerServer.selectChannel
  cases s.connections.lookup conn with
  | none => rfl
  | some channels =>
    cases opened : channels.lookup cid with
    | none => simp [opened]
    | some ch => simp [opened]

theorem consume_consumersOf (qname name : Bytes) :
    (s.consume codec qname).2.cmp.consumersOf name = s.cmp.consumersOf name := by
  have chosen := s.cmp.consumersOf_choose qname name
  simp only [BrokerServer.consume]
  rcases s.host.basicConsume codec qname with ⟨_ | mp, host⟩
  · rfl
  · generalize s.cmp.choose qname = picked at chosen
    rcases picked with ⟨_ | cp, cmp⟩ <;> exact chosen

variable (codec matchHeaders) in
/-- Requests are the only steps that subscribe; the others only close channels. -/
theorem apply_registered (unique : UniqueTags s.cmp) {op : ServerOp}
    (other : ∀ conn rid cid call, op ≠ .request conn rid cid call) :
    UniqueTags (op.apply codec matchHeaders s).cmp ∧
      ∀ x, x ∈ registered (op.apply codec matchHeaders s).cmp ↔
        x ∈ registered s.cmp ∧ (closing s op).any (remembers x) = false := by
  cases op with
  | newConnection conn =>
    simp only [ServerOp.apply, BrokerServer.newConnection]
    split <;> exact ⟨unique, by simp [closing]⟩
  | deleteConnection conn => exact destroyChannels_registered _ unique
  | openChannel conn rid cid =>
    simp only [ServerOp.apply, BrokerServer.openChannel]
    split
    · exact ⟨unique, by simp [closing]⟩
    · split <;> exact ⟨unique, by simp [closing, BrokerServer.putChannel]⟩
  | closeChannel conn rid cid =>
    rw [ServerOp.apply, closeChannel_cmp]
    simpa [closing, Function.comp_def] using destroyChannels_registered
      ((s.selectChannel conn cid).toList.map fun ch => (cid, ch)) unique
  | request conn rid cid call => exact absurd rfl (other conn rid cid call)
  | execute index =>
    have same (name : Bytes) : (ServerOp.apply codec matchHeaders s
        (.execute index)).cmp.consumersOf name = s.cmp.consumersOf name := by
      simp only [ServerOp.apply, BrokerServer.execute]
      cases s.pool[index]? with
      | none => rfl
      | some task => exact consume_consumersOf _ _
    exact ⟨unique.of_same same, fun x => by simp [registered_congr same, closing]⟩
  | queueRuntimeStats queueName => exact ⟨unique, by simp [ServerOp.apply, closing]⟩
  | compactQueue queueName => exact ⟨unique, by simp [ServerOp.apply, closing]⟩

structure Sound (s : BrokerServer) (subs : List Subscription) : Prop where
  inStep : InStep s subs
  unique : UniqueTags s.cmp
  lists : Subscribable s

def subscribes : Call → Bool
  | .basicConsume _ _ _ => true
  | .basicCancel _ _ => true
  | .deleteQueue _ => true
  | _ => false

theorem handle_consumersOf (ch : Channel) (rid cid : Bytes) {call : Call}
    (other : subscribes call = false) (name : Bytes) :
    (s.handle codec matchHeaders ch rid cid call).2.2.cmp.consumersOf name =
      s.cmp.consumersOf name := by
  cases call with
  | declareQueue queue durable exclusive autoDelete args =>
    simp [BrokerServer.handle, VirtualHost.declareQueue_eq]
  | declareQueueWithDlq queue durable exclusive autoDelete args config =>
    simp [BrokerServer.handle, VirtualHost.declareQueueWithDlq_eq]
  | basicPublish visit tasks exchange properties body =>
    simp only [BrokerServer.handle, BrokerServer.basicPublish]
    cases s.host.selectExchange exchange <;> rfl
  | basicConsume tag queueName autoAck => cases other
  | basicCancel tag queueName => cases other
  | deleteQueue queueName => cases other
  | _ => rfl

theorem taken_iff (inStep : InStep s subs) (queueName tag : Bytes) :
    (s.cmp.consumersOf queueName).any (fun c => c.tag == tag) =
      subs.any fun x => x.queueName == queueName && x.tag == tag := by
  rw [Bool.eq_iff_iff, List.any_eq_true, List.any_eq_true]
  constructor
  · rintro ⟨c, inList, sameTag⟩
    refine ⟨⟨queueName, tag, c.callback⟩, (inStep _).mp (mem_registered.mpr ?_), by simp⟩
    exact ⟨c, inList, by simpa using sameTag, rfl⟩
  · rintro ⟨x, member, named⟩
    simp only [Bool.and_eq_true, beq_iff_eq] at named
    obtain ⟨rfl, rfl⟩ := named
    obtain ⟨c, inList, sameTag, -⟩ := mem_registered.mp ((inStep x).mpr member)
    exact ⟨c, inList, by simpa using sameTag⟩

def AsksFree (s : BrokerServer) (call : Call) : Prop :=
  ∀ tag queueName autoAck, call = .basicConsume tag queueName autoAck →
    s.host.queueMgr.exists? queueName = true →
      (s.cmp.consumersOf queueName).any (fun c => c.tag == tag) = false

theorem basicConsume_exact (sound : Sound s subs) {ch : Channel} {tag queueName : Bytes}
    {autoAck : Bool} (exists' : s.host.queueMgr.exists? queueName = true) :
    (s.cmp.consumersOf queueName).any (fun c => c.tag == tag) = false ↔
      ((s.basicConsume ch tag queueName autoAck).1 = true ↔
        (s.basicConsume ch tag queueName autoAck).2.2.cmp.consumersOf queueName =
          s.cmp.consumersOf queueName ++ [⟨tag, queueName, autoAck, ch.ref⟩]) := by
  have known : (s.cmp.queueConsumers.lookup queueName).isSome := by rw [sound.lists, exists']
  simp only [BrokerServer.basicConsume, exists', Bool.not_true, Bool.false_eq_true, if_false,
    s.cmp.consumersOf_create known, true_and, true_iff]
  cases taken : (s.cmp.consumersOf queueName).any fun c => c.tag == tag <;> simp

theorem handle_unique (sound : Sound s subs) (ch : Channel) (rid cid : Bytes) (call : Call) :
    UniqueTags (s.handle codec matchHeaders ch rid cid call).2.2.cmp := by
  cases kind : subscribes call with
  | false => exact sound.unique.of_same (handle_consumersOf ch rid cid kind)
  | true =>
    cases call with
    | basicConsume tag queueName autoAck =>
      simp only [BrokerServer.handle, BrokerServer.basicConsume]
      cases exists' : s.host.queueMgr.exists? queueName with
      | false => exact sound.unique
      | true => exact sound.unique.create (by rw [sound.lists, exists']) tag autoAck ch.ref
    | basicCancel tag queueName => exact sound.unique.remove tag queueName
    | deleteQueue queueName => exact sound.unique.destroy queueName
    | _ => cases kind

/-- Unless it asks for a tag that is taken, a request does to the registered consumers what
it should do to the subscriptions. -/
theorem handle_inStep (sound : Sound s subs) (ch : Channel) (rid cid : Bytes) {call : Call}
    (free : AsksFree s call) :
    InStep (s.handle codec matchHeaders ch rid cid call).2.2 (requested s ch subs call) := by
  cases kind : subscribes call with
  | false =>
    have same : requested s ch subs call = subs := by cases call <;> first | rfl | cases kind
    rw [same]
    exact fun x => (registered_congr (handle_consumersOf ch rid cid kind) x).trans (sound.inStep x)
  | true =>
    cases call with
    | basicConsume tag queueName autoAck =>
      simp only [BrokerServer.handle, BrokerServer.basicConsume, requested]
      cases exists' : s.host.queueMgr.exists? queueName with
      | false => exact sound.inStep
      | true =>
        have isFree := free tag queueName autoAck rfl exists'
        intro x
        simp only [Bool.not_true, Bool.false_eq_true, if_false, ← taken_iff sound.inStep, isFree,
          Bool.not_false, Bool.and_self, if_true, List.mem_append, List.mem_singleton,
          ← sound.inStep x]
        rw [mem_registered_create (by rw [sound.lists, exists'])]
        simp only [isFree, true_and]
    | basicCancel tag queueName =>
      intro x
      refine (mem_registered_remove sound.unique tag queueName x).trans ?_
      simp [requested, sound.inStep x, imp_iff_not_or]
    | deleteQueue queueName =>
      intro x
      refine (mem_registered_destroy queueName x).trans ?_
      simp [requested, sound.inStep x]
    | _ => cases kind

theorem keepsOwnership_iff {conn : Nat} {rid cid : Bytes} {ch : Channel} (call : Call)
    (opened : s.selectChannel conn cid = some ch) :
    keepsOwnership s (.request conn rid cid call) = true ↔ AsksFree s call := by
  cases call with
  | basicConsume tag queueName autoAck =>
    simp only [keepsOwnership, opened, Option.isNone_some, Bool.false_or, Bool.or_eq_true,
      Bool.not_eq_true']
    constructor
    · rintro allowed _ _ _ ⟨⟩ exists'
      exact allowed.resolve_left (by simp [exists'])
    · intro free
      cases exists' : s.host.queueMgr.exists? queueName with
      | false => exact Or.inl rfl
      | true => exact Or.inr (free tag queueName autoAck rfl exists')
  | _ => exact iff_of_true rfl fun _ _ _ same => by cases same

theorem truthful_iff (sound : Sound s subs) {conn : Nat} {rid cid : Bytes} {ch : Channel}
    (call : Call) (opened : s.selectChannel conn cid = some ch) :
    Truthful s (.request conn rid cid call) ↔ AsksFree s call := by
  cases call with
  | basicConsume tag queueName autoAck =>
    cases exists' : s.host.queueMgr.exists? queueName with
    | false =>
      refine iff_of_true (fun ch _ => ?_) ?_
      · simp [BrokerServer.basicConsume, exists']
      · intro _ _ _ same known
        cases same
        rw [exists'] at known
        cases known
    | true =>
      constructor
      · rintro truthful _ _ _ ⟨⟩ -
        exact (basicConsume_exact sound exists').mpr (truthful ch opened)
      · intro free ch _
        exact (basicConsume_exact sound exists').mp (free tag queueName autoAck rfl exists')
  | _ => exact iff_of_true trivial fun _ _ _ same => by cases same

/-- A request keeps the ledger, and is answered truthfully, exactly when it does not ask for
a tag that is taken. -/
theorem request_exact (sound : Sound s subs) (conn : Nat) (rid cid : Bytes) (call : Call) :
    keepsOwnership s (.request conn rid cid call) = true ↔
      Truthful s (.request conn rid cid call) ∧
        InStep (ServerOp.apply codec matchHeaders s (.request conn rid cid call))
          (subscriptions s subs (.request conn rid cid call)) := by
  cases opened : s.selectChannel conn cid with
  | none =>
    have idle : InStep (ServerOp.apply codec matchHeaders s (.request conn rid cid call))
        (subscriptions s subs (.request conn rid cid call)) := by
      simpa [ServerOp.apply, BrokerServer.request, subscriptions, opened] using sound.inStep
    cases call <;> simp [keepsOwnership, Truthful, opened, idle]
  | some ch =>
    have next : InStep (ServerOp.apply codec matchHeaders s (.request conn rid cid call))
          (subscriptions s subs (.request conn rid cid call)) ↔
        InStep (s.handle codec matchHeaders ch rid cid call).2.2 (requested s ch subs call) := by
      simp only [ServerOp.apply, BrokerServer.request, subscriptions, opened]
      exact Iff.rfl
    rw [keepsOwnership_iff call opened, truthful_iff sound call opened, next]
    exact ⟨fun free => ⟨free, handle_inStep sound ch rid cid free⟩, And.left⟩

/-- A closing keeps the ledger exactly when the registered consumers of the closed channels
are those they remember. -/
theorem closing_exact (sound : Sound s subs) {op : ServerOp}
    (other : ∀ conn rid cid call, op ≠ .request conn rid cid call) :
    keepsOwnership s op = true ↔
      Truthful s op ∧ InStep (op.apply codec matchHeaders s) (subscriptions s subs op) := by
  have condition : keepsOwnership s op = (registered s.cmp).all fun x =>
      ((closing s op).any fun ch => ch.ref == x.owner) == (closing s op).any (remembers x) := by
    cases op <;> first | rfl | exact absurd rfl (other _ _ _ _)
  have ledger : subscriptions s subs op =
      subs.filter fun x => !(closing s op).any fun ch => ch.ref == x.owner := by
    cases op <;> first | rfl | exact absurd rfl (other _ _ _ _)
  have truthful : Truthful s op := by
    cases op <;> first | trivial | exact absurd rfl (other _ _ _ _)
  have effect := (apply_registered codec matchHeaders sound.unique other).2
  rw [condition, ledger, List.all_eq_true]
  simp only [truthful, true_and, InStep, effect, List.mem_filter, ← sound.inStep _,
    Bool.not_eq_true', beq_iff_eq]
  refine forall_congr' ?_
  intro x
  constructor
  · intro same
    exact and_congr_right fun member => by rw [same member]
  · intro kept member
    have iff := (and_congr_right_iff.mp kept) member
    rw [Bool.eq_iff_iff, ← not_iff_not, Bool.not_eq_true, Bool.not_eq_true, iff]

variable (codec matchHeaders) in
theorem step_exact (sound : Sound s subs) (op : ServerOp) :
    keepsOwnership s op = true ↔
      Truthful s op ∧ InStep (op.apply codec matchHeaders s) (subscriptions s subs op) := by
  cases op with
  | request conn rid cid call => exact request_exact sound conn rid cid call
  | _ => exact closing_exact sound fun _ _ _ _ same => by cases same

variable (codec matchHeaders) in
theorem Sound.next (sound : Sound s subs) (op : ServerOp)
    (kept : InStep (op.apply codec matchHeaders s) (subscriptions s subs op)) :
    Sound (op.apply codec matchHeaders s) (subscriptions s subs op) := by
  refine ⟨kept, ?_, sound.lists.apply op⟩
  cases op with
  | request conn rid cid call =>
    simp only [ServerOp.apply, BrokerServer.request]
    cases s.selectChannel conn cid with
    | none => exact sound.unique
    | some ch => exact handle_unique sound ch rid cid call
  | _ =>
    exact (apply_registered codec matchHeaders sound.unique fun _ _ _ _ same => by cases same).1

theorem Sound.initial (fresh : s.Initial) : Sound s [] := by
  obtain ⟨host, ⟨name, baseDir, exchanges, seq, fs, rfl⟩, rfl⟩ := fresh
  exact ⟨fun x => Iff.rfl, fun _ => List.nodup_nil, fun _ => rfl⟩

end Step

section Run

variable (codec : Codec) (matchHeaders : StrMap Bytes → StrMap Bytes → Bool)

def ledgerStep (x : BrokerServer × List Subscription) (op : ServerOp) :
    BrokerServer × List Subscription :=
  (op.apply codec matchHeaders x.1, subscriptions x.1 x.2 op)

def Owned (x : BrokerServer × List Subscription) (op : ServerOp) : Prop :=
  Truthful x.1 op ∧ InStep (op.apply codec matchHeaders x.1) (subscriptions x.1 x.2 op)

/-- In a run of a fresh broker the registered consumers are always those subscribed to, and
subscribing is answered truthfully, exactly when no request asks for a tag that is taken
and a channel is only closed while the one consumer it remembers is the only one
registered for it, and registered for no other channel. -/
theorem subscriptions_owned_iff {s : BrokerServer} (fresh : s.Initial) (ops : List ServerOp) :
    Along (ledgerStep codec matchHeaders) (Owned codec matchHeaders) (s, []) ops ↔
      Along (ServerOp.apply codec matchHeaders) (fun s op => keepsOwnership s op = true) s ops := by
  have onBroker : Along (ledgerStep codec matchHeaders)
        (fun x op => keepsOwnership x.1 op = true) (s, []) ops ↔
      Along (ServerOp.apply codec matchHeaders) (fun s op => keepsOwnership s op = true) s ops :=
    along_project Prod.fst (fun _ _ => rfl) (fun s op => keepsOwnership s op = true) (s, []) ops
  rw [← onBroker]
  refine (along_congr (fun x => Sound x.1 x.2) (fun x op sound => ?_)
    (fun x op sound owned => ?_) (Sound.initial fresh) ops).symm
  · exact step_exact codec matchHeaders sound op
  · exact sound.next codec matchHeaders op owned.2

end Run

def twoChannels : List ServerOp :=
  [.newConnection 0, .openChannel 0 [] (str "c"), .openChannel 0 [] (str "d"),
    .request 0 [] (str "c") (.declareQueue (str "q") false false false ∅)]

def subscribe (cid tag : Bytes) : ServerOp := .request 0 [] cid (.basicConsume tag (str "q") false)

/-- A channel that subscribes, cancels and subscribes again is closed. -/
theorem subscriptions_owned_example :
    Along (ledgerStep Wire.codec fun _ _ => false) (Owned Wire.codec fun _ _ => false)
      (.new .blank, [])
      (twoChannels ++ [subscribe (str "c") (str "t"),
        .request 0 [] (str "d") (.basicCancel (str "t") (str "q")),
        subscribe (str "c") (str "u"), .closeChannel 0 [] (str "c")]) :=
  (subscriptions_owned_iff Wire.codec (fun _ _ => false)
    ⟨_, VirtualHost.blank_initial, rfl⟩ _).mpr (by decide)

/-- A channel with two subscriptions is closed and leaves the first one behind; a channel
whose subscription was cancelled is closed and takes away another channel's of the same
tag; and a tag that is taken is asked for and promised. -/
theorem subscriptions_not_owned :
    ¬Along (ledgerStep Wire.codec fun _ _ => false) (Owned Wire.codec fun _ _ => false)
        (.new .blank, [])
        ((twoChannels ++ [subscribe (str "c") (str "t"), subscribe (str "c") (str "u")]) ++
          [.closeChannel 0 [] (str "c")]) ∧
      ¬Along (ledgerStep Wire.codec fun _ _ => false) (Owned Wire.codec fun _ _ => false)
        (.new .blank, [])
        ((twoChannels ++ [subscribe (str "c") (str "t"),
            .request 0 [] (str "d") (.basicCancel (str "t") (str "q")),
            subscribe (str "d") (str "t")]) ++
          [.closeChannel 0 [] (str "c")]) ∧
      ¬Along (ledgerStep Wire.codec fun _ _ => false) (Owned Wire.codec fun _ _ => false)
        (.new .blank, [])
        ((twoChannels ++ [subscribe (str "c") (str "t")]) ++ [subscribe (str "d") (str "t")]) := by
  refine ⟨?_, ?_, ?_⟩
  · intro owned
    have left := ((along_append.mp owned).2.1.2 ⟨str "q", str "t", ⟨0, str "c"⟩⟩).mp (by decide)
    exact absurd left (by decide)
  · intro owned
    have lost := ((along_append.mp owned).2.1.2 ⟨str "q", str "t", ⟨1, str "d"⟩⟩).mpr (by decide)
    exact absurd lost (by decide)
  · intro owned
    have promised := ((along_append.mp owned).2.1.1 ⟨⟨1, str "d"⟩, none⟩ (by rfl)).mp (by decide)
    exact absurd promised (by decide)

end HzMq.Delivery
