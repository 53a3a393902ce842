import HzMq.Delivery.PublishEx
import HzMq.Library.Register
import HzMq.Topology.Tables

/-!
# Binding the same pair again

The binding table of an exchange is keyed by queue names, and `unbind` takes no
key: between an exchange and a queue there is one binding at a time, and a later
`bind` replaces it. The key in force is a register that `bind` and `unbind` write.
-/

namespace HzMq.Topology

open VirtualHost Delivery

def boundKey (exchangeName queueName : Bytes) (h : VirtualHost) : Option Bytes :=
  (h.bindingAt exchangeName queueName).map Binding.bindingKey

def keyWrite (exchangeName queueName : Bytes) (h : VirtualHost) : HostOp → Option (Option Bytes)
  | .bind exchange queue key args =>
    if exchange = exchangeName ∧ queue = queueName ∧ (h.bind exchange queue key args).1 then
      some (some key)
    else none
  | .unbind exchange queue =>
    if exchange = exchangeName ∧ queue = queueName then some none else none
  | .declareQueue queue _ _ _ _ =>
    if (h.selectExchange []).isSome ∧ exchangeName = [] ∧ queueName = queue then some (some queue)
    else none
  | .deleteQueue queue => if queueName = queue then some none else none
  | .deleteExchange exchange => if exchangeName = exchange then some none else none
  | _ => none

/-- The two operations that clients change bindings with. -/
def rebinds : HostOp → Bool
  | .bind .. | .unbind .. => true
  | _ => false

section Register

variable (codec : Codec) (matchHeaders : StrMap Bytes → StrMap Bytes → Bool)
variable (exchangeName queueName : Bytes)

theorem bind_accepted (h : VirtualHost) (exchange queue key : Bytes) (args : StrMap Bytes) :
    (h.bind exchange queue key args).1 = true ↔
      (h.selectExchange exchange).isSome ∧ h.queueMgr.exists? queue = true := by
  unfold VirtualHost.bind
  split
  · next refused =>
    simp only [Bool.false_eq_true, false_iff, not_and]
    intro known
    simpa [Option.isSome_iff_ne_none.mp known] using refused
  · next allowed =>
    simpa [Option.isSome_iff_ne_none] using allowed

theorem boundKey_apply (h : VirtualHost) (op : HostOp) :
    boundKey exchangeName queueName (op.apply codec matchHeaders h) =
      (keyWrite exchangeName queueName h op).getD (boundKey exchangeName queueName h) := by
  by_cases messages : Frame.onMessages op = true
  · have frame : Frame h (op.apply codec matchHeaders h) := Frame.apply h messages
    have none' : keyWrite exchangeName queueName h op = none := by
      cases op <;> first | rfl | cases messages
    rw [none', boundKey, bindingAt, frame.bindingsOf]
    rfl
  cases op with
  | declareExchange name type durable autoDelete args =>
    rw [boundKey, HostOp.apply, bindingAt, bindingsOf,
      (h.declareExchange_tables name type durable autoDelete args).1]
    rfl
  | deleteExchange name =>
    simp only [boundKey, HostOp.apply, bindingAt_deleteExchange, keyWrite]
    split <;> rfl
  | declareQueue name durable exclusive autoDelete args =>
    simp only [boundKey, HostOp.apply, bindingAt_declareQueue, keyWrite]
    split <;> rfl
  | declareQueueWithDlq name durable exclusive autoDelete args config =>
    rw [boundKey, HostOp.apply, bindingAt_declareQueueWithDlq]
    rfl
  | deleteQueue name =>
    simp only [boundKey, HostOp.apply, bindingAt_deleteQueue, keyWrite]
    split <;> rfl
  | bind exchange queue key args =>
    simp only [boundKey, HostOp.apply, bindingAt_bind, keyWrite, bind_accepted]
    by_cases here : exchange = exchangeName ∧ queue = queueName ∧
        (h.selectExchange exchange).isSome ∧ h.queueMgr.exists? queue = true
    · obtain ⟨rfl, rfl, known⟩ := here
      simp [known]
    · rw [if_neg here, if_neg (by tauto)]
      rfl
  | unbind exchange queue =>
    simp only [boundKey, HostOp.apply, bindingAt_unbind, keyWrite]
    by_cases here : exchange = exchangeName ∧ queue = queueName
    · rw [if_pos here, if_pos ⟨here.1.symm, here.2.symm⟩]
      rfl
    · rw [if_neg here, if_neg fun same => here ⟨same.1.symm, same.2.symm⟩]
      rfl
  | _ => exact absurd rfl messages

def keyRegister : Machine.Register (HostOp.apply codec matchHeaders) (Option Bytes) where
  read := boundKey exchangeName queueName
  write := keyWrite exchangeName queueName
  read_step := boundKey_apply codec matchHeaders exchangeName queueName

end Register

section History

variable (codec : Codec) (matchHeaders : StrMap Bytes → StrMap Bytes → Bool)
variable (h : VirtualHost) (exchangeName queueName key : Bytes)

abbrev afterOps (ops : List HostOp) : VirtualHost :=
  Machine.exec (HostOp.apply codec matchHeaders) h ops

def namesPair : HostOp → Bool
  | .bind exchange queue _ _ | .unbind exchange queue =>
    exchange = exchangeName ∧ queue = queueName
  | _ => false

/-- Some `bind` of the pair with this key answered true, and no `unbind` of the pair came
after it. -/
def BoundSince (ops : List HostOp) : Prop :=
  ∃ before args rest, ops = before ++ .bind exchangeName queueName key args :: rest ∧
    ((afterOps codec matchHeaders h before).bind exchangeName queueName key args).1 = true ∧
    ∀ op ∈ rest, op ≠ .unbind exchangeName queueName

/-- That `bind` was moreover the last call on the pair. -/
def BoundLast (ops : List HostOp) : Prop :=
  ∃ before args rest, ops = before ++ .bind exchangeName queueName key args :: rest ∧
    ((afterOps codec matchHeaders h before).bind exchangeName queueName key args).1 = true ∧
    ∀ op ∈ rest, namesPair exchangeName queueName op = false

variable {codec matchHeaders h exchangeName queueName key}

theorem rebinds_tables {op : HostOp} (only : rebinds op = true) :
    (op.apply codec matchHeaders h).exchangeMgr = h.exchangeMgr ∧
      (op.apply codec matchHeaders h).queueMgr = h.queueMgr := by
  cases op with
  | bind exchange queue key args =>
    exact ⟨(h.bind_stores exchange queue key args).2.2, (h.bind_mgr exchange queue key args).1⟩
  | unbind exchange queue =>
    simp only [HostOp.apply, VirtualHost.unbind]
    split <;> exact ⟨rfl, rfl⟩
  | _ => cases only

theorem rebinds_exec {ops : List HostOp} (only : ∀ op ∈ ops, rebinds op = true) :
    (afterOps codec matchHeaders h ops).exchangeMgr = h.exchangeMgr ∧
      (afterOps codec matchHeaders h ops).queueMgr = h.queueMgr := by
  induction ops generalizing h with
  | nil => exact ⟨rfl, rfl⟩
  | cons op ops ih =>
    have first : (op.apply codec matchHeaders h).exchangeMgr = h.exchangeMgr ∧
        (op.apply codec matchHeaders h).queueMgr = h.queueMgr :=
      rebinds_tables (only op List.mem_cons_self)
    rw [afterOps, Machine.exec_cons, ← first.1, ← first.2]
    exact ih fun later member => only later (List.mem_cons_of_mem _ member)

/-- Both names are known, so a `bind` of the pair is accepted. -/
structure Known (h : VirtualHost) (exchangeName queueName : Bytes) : Prop where
  exchange : (h.selectExchange exchangeName).isSome
  queue : h.queueMgr.exists? queueName = true

theorem Known.of_tables {h' : VirtualHost} (known : Known h exchangeName queueName)
    (same : h'.exchangeMgr = h.exchangeMgr ∧ h'.queueMgr = h.queueMgr) :
    Known h' exchangeName queueName where
  exchange := by rw [selectExchange, same.1]; exact known.exchange
  queue := by rw [same.2]; exact known.queue

theorem keyWrite_eq_none_iff (known : Known h exchangeName queueName) {op : HostOp}
    (only : rebinds op = true) :
    keyWrite exchangeName queueName h op = none ↔ namesPair exchangeName queueName op = false := by
  cases op with
  | bind exchange queue key args =>
    by_cases here : exchange = exchangeName ∧ queue = queueName
    · obtain ⟨rfl, rfl⟩ := here
      simp [keyWrite, namesPair, bind_accepted, known.exchange, known.queue]
    · simp [keyWrite, namesPair, ← and_assoc, here]
  | unbind exchange queue => simp [keyWrite, namesPair]
  | _ => cases only

theorem keyWrite_eq_bind_iff {op : HostOp} (only : rebinds op = true) :
    keyWrite exchangeName queueName h op = some (some key) ↔
      ∃ args, op = .bind exchangeName queueName key args ∧
        (h.bind exchangeName queueName key args).1 = true := by
  cases op with
  | bind exchange queue key' args =>
    simp only [keyWrite, Option.ite_none_right_eq_some, Option.some.injEq, HostOp.bind.injEq]
    constructor
    · rintro ⟨⟨rfl, rfl, accepted⟩, rfl⟩
      exact ⟨args, ⟨rfl, rfl, rfl, rfl⟩, accepted⟩
    · rintro ⟨_, ⟨rfl, rfl, rfl, rfl⟩, accepted⟩
      exact ⟨⟨rfl, rfl, accepted⟩, rfl⟩
  | unbind exchange queue => simp [keyWrite]
  | _ => cases only

theorem untouched_iff (known : Known h exchangeName queueName) {ops : List HostOp}
    (only : ∀ op ∈ ops, rebinds op = true) :
    (keyRegister codec matchHeaders exchangeName queueName).Untouched h ops ↔
      ∀ op ∈ ops, namesPair exchangeName queueName op = false := by
  induction ops generalizing h with
  | nil => simp [Machine.Register.Untouched, Machine.Along]
  | cons op ops ih =>
    have first := only op List.mem_cons_self
    rw [List.forall_mem_cons]
    exact and_congr (keyWrite_eq_none_iff known first)
      (ih (known.of_tables (rebinds_tables first)) fun later member =>
        only later (List.mem_cons_of_mem _ member))

theorem last_iff (known : Known h exchangeName queueName) {ops : List HostOp}
    (only : ∀ op ∈ ops, rebinds op = true) :
    (keyRegister codec matchHeaders exchangeName queueName).Last h ops (some key) ↔
      BoundLast codec matchHeaders h exchangeName queueName key ops := by
  have rest {before rest : List HostOp} {op : HostOp} (split : ops = before ++ op :: rest) :
      (keyRegister codec matchHeaders exchangeName queueName).Untouched
          (afterOps codec matchHeaders h (before ++ [op])) rest ↔
        ∀ op ∈ rest, namesPair exchangeName queueName op = false := by
    subst split
    refine untouched_iff (known.of_tables (rebinds_exec fun o member => only o ?_))
      fun o member => only o ?_
    · simp only [List.mem_append, List.mem_cons] at member ⊢
      tauto
    · simp [member]
  constructor
  · rintro ⟨before, op, later, split, written, quiet⟩
    obtain ⟨args, rfl, accepted⟩ := (keyWrite_eq_bind_iff (only op (by simp [split]))).mp written
    exact ⟨before, args, later, split, accepted, (rest split).mp quiet⟩
  · rintro ⟨before, args, later, split, accepted, quiet⟩
    exact ⟨before, _, later, split, (keyWrite_eq_bind_iff rfl).mpr ⟨args, rfl, accepted⟩,
      (rest split).mpr quiet⟩

theorem routed_direct_iff {exchange : Exchange} (direct : exchange.type = .direct) :
    Routed h exchangeName exchange key queueName ↔
      boundKey exchangeName queueName h = some key := by
  simp only [Routed, direct, Router.matchRoute, beq_iff_eq, boundKey, bindingAt,
    Option.map_eq_some_iff, @eq_comm _ key]

theorem gained_iff_routed (ok : WellFormed h) {exchange : Exchange}
    (found : h.selectExchange exchangeName = some exchange) (visit : Visit Binding)
    (routingKey : Bytes) (bp : Option BasicProperties) (body : Bytes) :
    Gained h (h.publishEx codec visit exchangeName routingKey bp body).2.2 queueName
        (keyed bp routingKey) body ↔
      Routed h exchangeName exchange (keyOr bp routingKey) queueName := by
  refine ⟨?_, publishEx_gained codec ok found visit routingKey bp body⟩
  intro gained
  by_contra other
  obtain ⟨m, appended, -⟩ := gained
  rw [Appended, publishEx_passed codec ok found visit routingKey bp body other] at appended
  simp at appended

end History

/-- After any calls of `bind` and `unbind`, a publication with a key reaches a queue of a direct
exchange exactly when the last call on the pair bound it by that key, or when there was no such
call and the queue was bound by that key before. -/
theorem reached_iff_boundLast (codec : Codec)
    (matchHeaders : StrMap Bytes → StrMap Bytes → Bool) {h : VirtualHost}
    (reached : h.Reachable codec matchHeaders) {exchangeName queueName : Bytes}
    {exchange : Exchange} (found : h.selectExchange exchangeName = some exchange)
    (direct : exchange.type = .direct) (known : h.queueMgr.exists? queueName = true)
    (ops : List HostOp) (only : ∀ op ∈ ops, rebinds op = true) (visit : Visit Binding)
    (key : Bytes) (bp : Option BasicProperties) (unset : routingKeyOf bp = []) (body : Bytes) :
    let h' := afterOps codec matchHeaders h ops
    Gained h' (h'.publishEx codec visit exchangeName key bp body).2.2 queueName
        { bp.getD {} with routingKey := key } body ↔
      BoundLast codec matchHeaders h exchangeName queueName key ops ∨
        ((∀ op ∈ ops, namesPair exchangeName queueName op = false) ∧
          boundKey exchangeName queueName h = some key) := by
  intro h'
  have both : Known h exchangeName queueName := ⟨Option.isSome_of_eq_some found, known⟩
  have found' : h'.selectExchange exchangeName = some exchange := by
    rw [selectExchange, (rebinds_exec only).1]
    exact found
  have ok : WellFormed h' := VirtualHost.Reachable.wellFormed (reached.exec ops)
  have sameKey : keyOr bp key = key := if_pos unset
  have delivery : Gained h' (h'.publishEx codec visit exchangeName key bp body).2.2 queueName
      (keyed bp key) body ↔ Routed h' exchangeName exchange (keyOr bp key) queueName :=
    gained_iff_routed ok found' visit key bp body
  rw [keyed, sameKey, routed_direct_iff direct] at delivery
  rw [delivery, ← last_iff both only, ← untouched_iff both only]
  exact (keyRegister codec matchHeaders exchangeName queueName).read_exec_iff h ops (some key)

def pairHost : VirtualHost :=
  Machine.exec (HostOp.apply Wire.codec fun _ _ => false) .blank (directSetup.take 2)

theorem pairHost_reachable : pairHost.Reachable Wire.codec fun _ _ => false :=
  Machine.Reachable.exec (.start blank_initial) (directSetup.take 2)

def twoBinds : List HostOp :=
  [.bind (str "direct_exchange") (str "queue1") (str "key1") ∅,
    .bind (str "direct_exchange") (str "queue1") (str "key2") ∅]

/-- The queue is reached by the second key. -/
theorem reached_iff_boundLast_example :
    let h := afterOps Wire.codec (fun _ _ => false) pairHost twoBinds
    Gained h
      (h.publishEx Wire.codec .stored (str "direct_exchange") (str "key2") none (str "m")).2.2
      (str "queue1") { routingKey := str "key2" } (str "m") :=
  (reached_iff_boundLast Wire.codec (fun _ _ => false) pairHost_reachable rfl rfl (by decide)
    twoBinds (by decide) .stored (str "key2") none rfl (str "m")).mpr
    (Or.inl ⟨twoBinds.take 1, ∅, [], rfl, by decide, by simp⟩)

/-- It is no longer reached by the first key, though both calls answered true and the pair was
never unbound. -/
theorem first_key_lost :
    BoundSince Wire.codec (fun _ _ => false) pairHost (str "direct_exchange") (str "queue1")
        (str "key1") twoBinds ∧
      ((afterOps Wire.codec (fun _ _ => false) pairHost (twoBinds.take 1)).bind
        (str "direct_exchange") (str "queue1") (str "key2") ∅).1 = true ∧
      ∀ visit : Visit Binding,
        let h := afterOps Wire.codec (fun _ _ => false) pairHost twoBinds
        (h.publishEx Wire.codec visit (str "direct_exchange") (str "key1") none
          (str "m")).2.2.contents (str "queue1") = h.contents (str "queue1") := by
  refine ⟨⟨[], ∅, twoBinds.drop 1, rfl, by decide, ?_⟩, by decide, ?_⟩
  · intro op member
    obtain rfl : op = _ := List.mem_singleton.mp member
    exact HostOp.noConfusion
  · intro visit
    have ok : WellFormed (afterOps Wire.codec (fun _ _ => false) pairHost twoBinds) :=
      VirtualHost.Reachable.wellFormed (pairHost_reachable.exec twoBinds)
    have found : (afterOps Wire.codec (fun _ _ => false) pairHost twoBinds).selectExchange
        (str "direct_exchange") = some ⟨str "direct_exchange", .direct, false, false, ∅⟩ := rfl
    refine publishEx_passed Wire.codec ok found visit _ _ _ ?_
    intro routed
    have held := (routed_direct_iff rfl).mp routed
    exact absurd held (by decide)

end HzMq.Topology
