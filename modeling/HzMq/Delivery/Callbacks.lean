import HzMq.Delivery.Subscriptions
import HzMq.Protocol.Channels

/-!
# Whom a consumer calls back

A consumer calls back the channel object that it was subscribed on. The number of a channel
object is never given out again, so as long as the object can be found on a connection,
that connection asked for what it is sent; a consumer that is left behind calls nobody.
-/

namespace HzMq.Delivery

open Machine Protocol

section Consumers

variable (codec : Codec) (matchHeaders : StrMap Bytes → StrMap Bytes → Bool)
  {s : BrokerServer} {queueName : Bytes} {c : Consumer}

theorem destroyChannels_consumersOf (channels : List (Bytes × Channel))
    (member : c ∈ (channels.foldl (fun s e => s.destroyChannel e.2) s).cmp.consumersOf queueName) :
    c ∈ s.cmp.consumersOf queueName := by
  induction channels generalizing s with
  | nil => exact member
  | cons e channels ih =>
    have later : c ∈ (s.destroyChannel e.2).cmp.consumersOf queueName := ih member
    unfold BrokerServer.destroyChannel at later
    split at later
    · exact later
    · rw [ConsumerManager.consumersOf_remove] at later
      split at later
      · exact List.mem_of_mem_eraseP later
      · exact later

theorem create_consumersOf {mgr : ConsumerManager} {tag name : Bytes} {autoAck : Bool}
    {ref : ChannelRef} (member : c ∈ (mgr.create tag name autoAck ref).2.consumersOf queueName) :
    c ∈ mgr.consumersOf queueName ∨ queueName = name ∧ c = ⟨tag, name, autoAck, ref⟩ := by
  cases known : (mgr.queueConsumers.lookup name).isSome with
  | false =>
    have unknown := Option.isSome_eq_false_iff.mp known
    rw [ConsumerManager.create, Option.isNone_iff_eq_none.mp unknown] at member
    exact Or.inl member
  | true =>
    rw [mgr.consumersOf_create known] at member
    split at member
    · next added =>
      rcases List.mem_append.mp member with old | new
      · exact Or.inl old
      · exact Or.inr ⟨added.1, List.mem_singleton.mp new⟩
    · exact Or.inl member

theorem handle_consumer {ch : Channel} {rid cid : Bytes} {call : Call}
    (member :
      c ∈ (s.handle codec matchHeaders ch rid cid call).2.2.cmp.consumersOf queueName) :
    c ∈ s.cmp.consumersOf queueName ∨ ∃ tag autoAck,
      call = .basicConsume tag queueName autoAck ∧ c = ⟨tag, queueName, autoAck, ch.ref⟩ := by
  cases kind : subscribes call with
  | false =>
    rw [handle_consumersOf ch rid cid kind] at member
    exact Or.inl member
  | true =>
    cases call with
    | basicConsume tag name autoAck =>
      simp only [BrokerServer.handle, BrokerServer.basicConsume] at member
      split at member
      · exact Or.inl member
      · rcases create_consumersOf member with old | ⟨rfl, new⟩
        · exact Or.inl old
        · exact Or.inr ⟨tag, autoAck, rfl, new⟩
    | basicCancel tag name =>
      simp only [BrokerServer.handle, ConsumerManager.consumersOf_remove] at member
      split at member
      · exact Or.inl (List.mem_of_mem_eraseP member)
      · exact Or.inl member
    | deleteQueue name =>
      simp only [BrokerServer.handle, ConsumerManager.consumersOf_destroyQueueConsumer] at member
      split at member
      · cases member
      · exact Or.inl member
    | _ => cases kind

theorem apply_consumer {op : ServerOp}
    (member : c ∈ (op.apply codec matchHeaders s).cmp.consumersOf queueName) :
    c ∈ s.cmp.consumersOf queueName ∨ ∃ conn rid cid tag autoAck ref,
      op = .request conn rid cid (.basicConsume tag queueName autoAck) ∧
        refAt s conn cid = some ref ∧ c = ⟨tag, queueName, autoAck, ref⟩ := by
  cases op with
  | newConnection conn =>
    simp only [ServerOp.apply, BrokerServer.newConnection] at member
    split at member <;> exact Or.inl member
  | deleteConnection conn => exact Or.inl (destroyChannels_consumersOf _ member)
  | openChannel conn rid cid =>
    simp only [ServerOp.apply, BrokerServer.openChannel] at member
    split at member
    · exact Or.inl member
    · split at member <;> exact Or.inl member
  | closeChannel conn rid cid =>
    rw [ServerOp.apply, closeChannel_cmp] at member
    exact Or.inl (destroyChannels_consumersOf _ member)
  | request conn rid cid call =>
    simp only [ServerOp.apply, BrokerServer.request] at member
    cases selected : s.selectChannel conn cid with
    | none =>
      rw [selected] at member
      exact Or.inl member
    | some ch =>
      rw [selected] at member
      rcases handle_consumer codec matchHeaders member with old | ⟨tag, autoAck, rfl, new⟩
      · exact Or.inl old
      · exact Or.inr ⟨conn, rid, cid, tag, autoAck, ch.ref, rfl,
          by rw [refAt, selected, Option.map_some], new⟩
  | execute index =>
    simp only [ServerOp.apply, BrokerServer.execute] at member
    cases found : s.pool[index]? with
    | none =>
      rw [found] at member
      exact Or.inl member
    | some task =>
      rw [found] at member
      simp only [consume_consumersOf] at member
      exact Or.inl member
  | queueRuntimeStats queueName => exact Or.inl member
  | compactQueue queueName => exact Or.inl member

end Consumers

/-- Every connection that a consumer can reach asked for that consumer. -/
structure Answerable (asked : Nat → Bytes → Bytes → Bool → Prop) (s : BrokerServer) : Prop where
  numbered : ∀ conn cid ref, refAt s conn cid = some ref → ref.addr < s.opened
  single : ∀ conn cid conn' cid' ref, refAt s conn cid = some ref → refAt s conn' cid' = some ref →
    conn = conn'
  consumers : ∀ queueName, ∀ c ∈ s.cmp.consumersOf queueName, c.callback.addr < s.opened ∧
    ∀ conn cid, refAt s conn cid = some c.callback → asked conn c.tag queueName c.autoAck

section Answerable

variable {asked : Nat → Bytes → Bytes → Bool → Prop} {s : BrokerServer}

theorem Answerable.initial (start : s.Initial) : Answerable asked s := by
  obtain ⟨host, ⟨name, baseDir, exchanges, seq, fs, rfl⟩, rfl⟩ := start
  refine ⟨?_, ?_, ?_⟩
  · intro conn cid ref known
    cases known
  · intro conn cid conn' cid' ref known
    cases known
  · intro queueName c member
    cases member

variable (codec : Codec) (matchHeaders : StrMap Bytes → StrMap Bytes → Bool)

theorem Answerable.kept (answerable : Answerable asked s) {op : ServerOp}
    (asks : ∀ conn rid cid tag queueName autoAck,
      op = .request conn rid cid (.basicConsume tag queueName autoAck) →
        asked conn tag queueName autoAck)
    (opened : (op.apply codec matchHeaders s).opened = s.opened)
    (less : ∀ conn cid ref, refAt (op.apply codec matchHeaders s) conn cid = some ref →
      refAt s conn cid = some ref) : Answerable asked (op.apply codec matchHeaders s) where
  numbered conn cid ref known := opened ▸ answerable.numbered conn cid ref (less conn cid ref known)
  single conn cid conn' cid' ref known known' :=
    answerable.single conn cid conn' cid' ref (less conn cid ref known) (less conn' cid' ref known')
  consumers queueName c member := by
    rcases apply_consumer codec matchHeaders member with
      old | ⟨conn, rid, cid, tag, autoAck, ref, rfl, mine, rfl⟩
    · obtain ⟨small, answers⟩ := answerable.consumers queueName c old
      exact ⟨opened ▸ small, fun conn cid known => answers conn cid (less conn cid _ known)⟩
    · refine ⟨opened ▸ answerable.numbered conn cid ref mine, ?_⟩
      intro conn' cid' known
      obtain rfl := answerable.single conn cid conn' cid' ref mine (less conn' cid' ref known)
      exact asks conn rid cid tag queueName autoAck rfl

theorem Answerable.added (answerable : Answerable asked s) {op : ServerOp} {conn : Nat}
    {cid : Bytes} (opened : (op.apply codec matchHeaders s).opened = s.opened + 1)
    (added : ∀ other c, refAt (op.apply codec matchHeaders s) other c =
      if other = conn ∧ c = cid then some ⟨s.opened, cid⟩ else refAt s other c)
    (same : ∀ queueName, ∀ c ∈ (op.apply codec matchHeaders s).cmp.consumersOf queueName,
      c ∈ s.cmp.consumersOf queueName) :
    Answerable asked (op.apply codec matchHeaders s) := by
  have cases' {other : Nat} {c : Bytes} {ref : ChannelRef}
      (known : refAt (op.apply codec matchHeaders s) other c = some ref) :
      (other = conn ∧ ref.addr = s.opened) ∨ refAt s other c = some ref ∧ ref.addr < s.opened := by
    rw [added] at known
    split at known
    · next here => exact Or.inl ⟨here.1, Option.some.inj known ▸ rfl⟩
    · exact Or.inr ⟨known, answerable.numbered other c ref known⟩
  refine ⟨?_, ?_, ?_⟩
  · intro other c ref known
    rcases cases' known with ⟨-, number⟩ | ⟨-, small⟩ <;> omega
  · intro other c other' c' ref known known'
    rcases cases' known with ⟨rfl, number⟩ | ⟨old, small⟩
    · rcases cases' known' with ⟨rfl, -⟩ | ⟨-, small⟩
      · rfl
      · omega
    · rcases cases' known' with ⟨-, number⟩ | ⟨old', -⟩
      · omega
      · exact answerable.single other c other' c' ref old old'
  · intro queueName c member
    obtain ⟨small, answers⟩ := answerable.consumers queueName c (same queueName c member)
    refine ⟨by omega, ?_⟩
    intro other cid' known
    rcases cases' known with ⟨-, number⟩ | ⟨old, -⟩
    · omega
    · exact answers other cid' old

/-- As long as no connection subscribes but as it is entitled to. -/
theorem Answerable.apply (answerable : Answerable asked s) (op : ServerOp)
    (asks : ∀ conn rid cid tag queueName autoAck,
      op = .request conn rid cid (.basicConsume tag queueName autoAck) →
        asked conn tag queueName autoAck) : Answerable asked (op.apply codec matchHeaders s) := by
  rcases refAt_apply codec matchHeaders s op with
    ⟨opened, less⟩ | ⟨conn, rid, cid, rfl, opened, added⟩
  · exact answerable.kept codec matchHeaders asks opened less
  · refine answerable.added codec matchHeaders opened added ?_
    intro queueName c member
    rcases apply_consumer codec matchHeaders member with
      old | ⟨conn', rid', cid', tag, autoAck, ref, subscribes, -⟩
    · exact old
    · cases subscribes

end Answerable

end HzMq.Delivery
