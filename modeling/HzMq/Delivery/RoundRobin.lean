import HzMq.Library.Rotation
import HzMq.Library.Run
import HzMq.Server.Consumer

/-!
# Consumers take turns

The index is left alone when a consumer is removed and may be larger than what is
left of the list. As it is taken modulo the size before it is used, the calls that
follow go through the list in order from wherever it points.
-/

namespace HzMq

namespace QueueConsumer

inductive Op
  | create (ctag queueName : Bytes) (ackFlag : Bool) (cb : ChannelRef)
  | remove (ctag : Bytes)
  | rrChoose
  | clear

def Op.apply (qc : QueueConsumer) : Op → QueueConsumer
  | .create ctag queueName ackFlag cb => (qc.create ctag queueName ackFlag cb).2
  | .remove ctag => qc.remove ctag
  | .rrChoose => qc.rrChoose.2
  | .clear => qc.clear

def DistinctTags (qc : QueueConsumer) : Prop := (qc.consumers.map Consumer.tag).Nodup

def chooseTimes (qc : QueueConsumer) : Nat → List (Option Consumer)
  | 0 => []
  | k + 1 => qc.rrChoose.1 :: qc.rrChoose.2.chooseTimes k

section Tags

variable {qc : QueueConsumer}

@[simp] theorem rrChoose_consumers (qc : QueueConsumer) :
    qc.rrChoose.2.consumers = qc.consumers := by
  unfold rrChoose
  split <;> rfl

theorem DistinctTags.nodup (distinct : qc.DistinctTags) : qc.consumers.Nodup :=
  List.Nodup.of_map Consumer.tag distinct

theorem DistinctTags.create (distinct : qc.DistinctTags) (ctag queueName : Bytes)
    (ackFlag : Bool) (cb : ChannelRef) : (qc.create ctag queueName ackFlag cb).2.DistinctTags := by
  unfold QueueConsumer.create
  split
  · exact distinct
  · next free =>
    have absent : ctag ∉ qc.consumers.map Consumer.tag := by simpa using free
    rw [DistinctTags, List.map_append, List.map_singleton, ← List.concat_eq_append]
    exact distinct.concat absent

theorem DistinctTags.remove (distinct : qc.DistinctTags) (ctag : Bytes) :
    (qc.remove ctag).DistinctTags :=
  List.Nodup.sublist (List.Sublist.map Consumer.tag List.eraseP_sublist) distinct

theorem DistinctTags.apply (distinct : qc.DistinctTags) (op : Op) :
    (op.apply qc).DistinctTags := by
  cases op with
  | create ctag queueName ackFlag cb => exact distinct.create ctag queueName ackFlag cb
  | remove ctag => exact distinct.remove ctag
  | rrChoose => rwa [DistinctTags, Op.apply, rrChoose_consumers]
  | clear => exact List.nodup_nil

theorem distinctTags_new (qname : Bytes) : DistinctTags { qname } := List.nodup_nil

theorem distinctTags_exec (qname : Bytes) (ops : List Op) :
    (Machine.exec Op.apply { qname } ops).DistinctTags :=
  have new : Machine.Reachable (· = { qname }) Op.apply { qname } := .start rfl
  (new.exec ops).invariant (fun _ start => start ▸ distinctTags_new qname)
    (fun _ op distinct => distinct.apply op)

end Tags

section Turns

variable (qc : QueueConsumer)

/-- One call answers whose turn it is, with an index of any size. -/
theorem rrChoose_fst : qc.rrChoose.1 = Rotation.turn qc.consumers qc.rrIndex := by
  by_cases nobody : qc.consumers = []
  · simp [rrChoose, Rotation.turn, nobody]
  · rw [rrChoose, if_neg nobody, Rotation.turn]

theorem turns_rrChoose (k : Nat) :
    Rotation.turns qc.consumers qc.rrChoose.2.rrIndex k =
      Rotation.turns qc.consumers (qc.rrIndex + 1) k := by
  by_cases nobody : qc.consumers = []
  · simp [Rotation.turns, Rotation.turn, nobody]
  · rw [rrChoose, if_neg nobody, Rotation.turns_mod]

theorem chooseTimes_eq_turns (k : Nat) :
    qc.chooseTimes k = Rotation.turns qc.consumers qc.rrIndex k := by
  induction k generalizing qc with
  | zero => exact (Rotation.turns_zero _ _).symm
  | succ k ih =>
    rw [chooseTimes, ih, rrChoose_consumers, turns_rrChoose, rrChoose_fst, Rotation.turns_succ]

theorem rrChoose_eq_none_iff : qc.rrChoose.1 = none ↔ qc.consumers = [] := by
  constructor
  · intro null
    by_contra registered
    have chosen := rrChoose_isSome registered
    rw [null] at chosen
    cases chosen
  · intro nobody
    rw [rrChoose, if_pos nobody]

end Turns

end QueueConsumer

namespace Delivery

open QueueConsumer

/-- After any calls, tags are distinct, choosing answers null exactly when nobody is registered
and somebody registered otherwise, and of any number of choices in a row each consumer gets an
even share, wherever the index was left. -/
theorem rrChoose_takes_turns (qname : Bytes) (ops : List Op) :
    let qc := Machine.exec Op.apply { qname } ops
    (qc.consumers.map Consumer.tag).Nodup ∧
      (qc.rrChoose.1 = none ↔ qc.consumers = []) ∧
      (∀ c, qc.rrChoose.1 = some c → c ∈ qc.consumers) ∧
      ∀ k, ∀ c ∈ qc.consumers,
        (qc.chooseTimes k).count (some c) = k / qc.consumers.length ∨
          (qc.chooseTimes k).count (some c) = k ⌈/⌉ qc.consumers.length := by
  intro qc
  have distinct : qc.DistinctTags := distinctTags_exec qname ops
  refine ⟨distinct, qc.rrChoose_eq_none_iff, fun _ => rrChoose_mem, ?_⟩
  intro k c registered
  rw [chooseTimes_eq_turns]
  exact Rotation.count_turns distinct.nodup registered qc.rrIndex k

end Delivery

end HzMq
