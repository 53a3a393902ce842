import HzMq.Delivery.Confirmation
import HzMq.Delivery.Routing
import HzMq.Server.HostEffects

/-!
# The tasks a publication leaves behind

A publication that was taken by some queue leaves a consume task for every queue
bound to the exchange, not for those that took a copy. The two lists agree when
nobody takes the message and when everybody does.
-/

namespace HzMq.Delivery

open VirtualHost BrokerServer

/-- The new tasks are, queue by queue, as many as the messages the queue gained. -/
def OneTaskPerCopy (s s' : BrokerServer) : Prop :=
  ∃ tasks, s'.pool = s.pool ++ tasks ∧
    ∀ queueName, ∃ copies, s'.host.contents queueName = s.host.contents queueName ++ copies ∧
      (tasks.map Task.qname).count queueName = copies.length

section Accepted

variable (should : Binding → Bool)

theorem accepted_eq_nil_iff (key : Option Bytes) (entries : List (Bytes × Binding)) :
    accepted should key entries = [] ↔
      ∀ e ∈ entries, ¬(should e.2 = true ∧ acceptsKey key e.1 = true) := by
  induction entries with
  | nil => simp [accepted]
  | cons entry rest ih =>
    obtain ⟨queueName, binding⟩ := entry
    rw [accepted, List.forall_mem_cons, ← ih]
    by_cases takes : should binding = true ∧ acceptsKey key queueName = true
    · simp [takes]
    · simp [takes]

theorem accepted_none (entries : List (Bytes × Binding)) :
    accepted should none entries = (entries.filter fun e => should e.2).map Prod.fst := by
  induction entries with
  | nil => rfl
  | cons entry rest ih =>
    obtain ⟨queueName, binding⟩ := entry
    rw [accepted, Option.map_none, ih]
    cases matching : should binding with
    | false => simp [matching]
    | true => simp [matching, acceptsKey]

theorem accepted_none_eq_iff (entries : List (Bytes × Binding)) :
    accepted should none entries = entries.map Prod.fst ↔
      ∀ e ∈ entries, should e.2 = true := by
  rw [accepted_none]
  constructor
  · intro all
    have lengths := congrArg List.length all
    rwa [List.length_map, List.length_map, List.length_filter_eq_length_iff] at lengths
  · intro all
    rw [List.filter_eq_self.mpr all]

variable {should} in
theorem accepted_some_cons {k queueName : Bytes} {binding : Binding}
    {rest : List (Bytes × Binding)}
    (all : accepted should (some k) ((queueName, binding) :: rest) =
      queueName :: rest.map Prod.fst) :
    should binding = true ∧ (k = [] ∨ k = queueName) ∧
      accepted should (some queueName) rest = rest.map Prod.fst := by
  rw [accepted] at all
  split at all
  · next takes =>
    obtain ⟨matching, key⟩ := Bool.and_eq_true_iff.mp takes
    exact ⟨matching, by simpa [acceptsKey] using key, (List.cons.inj all).2⟩
  · have shorter := (accepted_sublist should (some k) rest).length_le
    rw [all] at shorter
    simp at shorter

/-- With properties the copies go to one queue, or to the queue without a name and then to one
more. -/
theorem accepted_some_eq_iff (k : Bytes) (entries : List (Bytes × Binding))
    (distinct : (entries.map Prod.fst).Nodup) :
    accepted should (some k) entries = entries.map Prod.fst ↔
      entries = [] ∨
        (∃ queueName binding, entries = [(queueName, binding)] ∧ should binding = true ∧
          (k = [] ∨ k = queueName)) ∨
        (∃ first queueName binding, entries = [([], first), (queueName, binding)] ∧
          should first = true ∧ should binding = true ∧ k = []) := by
  constructor
  · intro all
    induction entries generalizing k with
    | nil => exact Or.inl rfl
    | cons entry rest ih =>
      obtain ⟨queueName, binding⟩ := entry
      obtain ⟨matching, key, others⟩ := accepted_some_cons all
      obtain ⟨new, distinct'⟩ := List.nodup_cons.mp distinct
      refine Or.inr ?_
      by_cases unnamed : queueName = []
      · subst unnamed
        rcases ih [] distinct' others with
          rfl | ⟨name, binding', rfl, matching', -⟩ | ⟨_, name, binding', rfl, -⟩
        · exact Or.inl ⟨[], binding, rfl, matching, key⟩
        · exact Or.inr ⟨binding, name, binding', rfl, matching, matching', by simpa using key⟩
        · simp at new
      · have noOther : rest.map Prod.fst = [] := by
          rw [List.eq_nil_iff_forall_not_mem]
          intro other member
          obtain rfl := eq_key_of_mem_accepted unnamed (others ▸ member)
          exact new member
        obtain rfl := List.map_eq_nil_iff.mp noOther
        exact Or.inl ⟨queueName, binding, rfl, matching, key⟩
  · rintro (rfl | ⟨queueName, binding, rfl, matching, key⟩ |
      ⟨first, queueName, binding, rfl, matching, matching', rfl⟩)
    · rfl
    · simp [accepted, matching, acceptsKey, key]
    · simp [accepted, matching, matching', acceptsKey]

def Admits (key : Option Bytes) (e : Bytes × Binding) : Prop :=
  should e.2 = true ∧ acceptsKey key e.1 = true

theorem accepted_none_or_all_iff (key : Option Bytes) (entries : List (Bytes × Binding))
    (distinct : (entries.map Prod.fst).Nodup) :
    (accepted should key entries = [] ∨ accepted should key entries = entries.map Prod.fst) ↔
      (∀ e ∈ entries, ¬Admits should key e) ∨
        (key = none ∧ ∀ e ∈ entries, Admits should key e) ∨
        (∃ e, entries = [e] ∧ Admits should key e) ∨
        (∃ first second, entries = [([], first), second] ∧ key.getD [] = [] ∧
          Admits should key ([], first) ∧ Admits should key second) := by
  rw [accepted_eq_nil_iff]
  constructor
  · rintro (nobody | all)
    · exact Or.inl nobody
    · cases key with
      | none =>
        have matching := (accepted_none_eq_iff should entries).mp all
        exact Or.inr (Or.inl ⟨rfl, fun e member => ⟨matching e member, rfl⟩⟩)
      | some k =>
        rcases (accepted_some_eq_iff should k entries distinct).mp all with
          rfl | ⟨queueName, binding, rfl, matching, named⟩ |
          ⟨first, queueName, binding, rfl, matching, matching', rfl⟩
        · exact Or.inl (by simp)
        · exact Or.inr (Or.inr (Or.inl ⟨_, rfl, matching, by simpa [acceptsKey] using named⟩))
        · exact Or.inr (Or.inr (Or.inr ⟨first, _, rfl, rfl, ⟨matching, rfl⟩, matching', rfl⟩))
  · rintro (nobody | ⟨rfl, all⟩ | ⟨e, rfl, admits⟩ | ⟨first, second, rfl, unset, here, there⟩)
    · exact Or.inl nobody
    · exact Or.inr ((accepted_none_eq_iff should entries).mpr fun e member => (all e member).1)
    · refine Or.inr ?_
      obtain ⟨queueName, binding⟩ := e
      simp [accepted, admits.1, admits.2]
    · refine Or.inr ?_
      obtain ⟨queueName, binding⟩ := second
      cases key with
      | none => simp [accepted, here.1, there.1, acceptsKey]
      | some k =>
        obtain rfl : k = [] := unset
        simp [accepted, here.1, there.1, acceptsKey]

end Accepted

section Publication

variable (codec : Codec) (matchHeaders : StrMap Bytes → StrMap Bytes → Bool)

def boundQueues (visit : Visit Binding) (h : VirtualHost) (exchangeName : Bytes) : List Bytes :=
  (visit.order (h.bindingsOf exchangeName)).map Prod.fst

theorem takers_sublist (visit : Visit Binding) (h : VirtualHost) (exchangeName : Bytes)
    (bp : Option BasicProperties) :
    (takers matchHeaders visit h exchangeName bp).Sublist (boundQueues visit h exchangeName) := by
  unfold takers
  split
  · exact List.nil_sublist _
  · exact accepted_sublist _ _ _

theorem boundQueues_perm (visit visit' : Visit Binding) (h : VirtualHost) (exchangeName : Bytes) :
    (boundQueues visit h exchangeName).Perm (boundQueues visit' h exchangeName) :=
  ((visit.perm _).trans (visit'.perm _).symm).map Prod.fst

theorem oneTaskPerCopy_iff_perm {s s' : BrokerServer} {log : List (Bytes × MessagePtr)}
    (appends : Appends s.host s'.host log) {tasks : List Task}
    (pushed : s'.pool = s.pool ++ tasks) :
    OneTaskPerCopy s s' ↔ (tasks.map Task.qname).Perm (log.map Prod.fst) := by
  have copies (queueName : Bytes) :
      ((log.filter fun e => e.1 = queueName).map Prod.snd).length =
        (log.map Prod.fst).count queueName := by
    rw [List.length_map, List.count, List.countP_map, List.countP_eq_length_filter]
    exact congrArg List.length (List.filter_congr fun e _ => (Bool.beq_eq_decide_eq e.1 _).symm)
  rw [List.perm_iff_count]
  constructor
  · rintro ⟨tasks', pushed', agree⟩ queueName
    obtain rfl := List.append_cancel_left (pushed.symm.trans pushed')
    obtain ⟨gained, contents, count⟩ := agree queueName
    rw [appends.contents_eq] at contents
    rw [count, ← copies, List.append_cancel_left contents]
  · exact fun agree => ⟨tasks, pushed, fun queueName =>
      ⟨_, appends.contents_eq queueName, (agree queueName).trans (copies queueName).symm⟩⟩

/-- Tasks and copies agree when the queues that took the message are none or all. -/
theorem oneTaskPerCopy_iff_takers {s : BrokerServer} (ok : WellFormed s.host) {exchangeName : Bytes}
    {exchange : Exchange} (found : s.host.selectExchange exchangeName = some exchange)
    (ch : ChannelRef) (visit tasks : Visit Binding) (bp : Option BasicProperties) (body : Bytes) :
    OneTaskPerCopy s (s.basicPublish codec matchHeaders ch visit tasks exchangeName bp body).2 ↔
      takers matchHeaders visit s.host exchangeName bp = [] ∨
        takers matchHeaders visit s.host exchangeName bp =
          boundQueues visit s.host exchangeName := by
  obtain ⟨log, run, names, answer⟩ :=
    publishToExchange_deliveries codec matchHeaders ok visit exchangeName bp body
  have sub := takers_sublist matchHeaders visit s.host exchangeName bp
  have bindings := run.frame.bindingsOf exchangeName
  simp only [BrokerServer.basicPublish, found]
  generalize s.host.publishToExchange codec matchHeaders visit exchangeName bp body = result at *
  obtain ⟨published, bp', host⟩ := result
  simp only at run answer bindings ⊢
  rw [← names] at sub ⊢
  by_cases nobody : log = []
  · have untaken : published = false := by rw [answer, nobody]; rfl
    have noTasks : (if published then
        s.pool ++ (tasks.order (host.bindingsOf exchangeName)).map fun e => ⟨ch, e.1⟩
        else s.pool) = s.pool ++ [] := by
      rw [untaken, if_neg Bool.false_ne_true, List.append_nil]
    rw [oneTaskPerCopy_iff_perm run.appends noTasks, nobody]
    simp
  · have taken : published = true := by
      rw [answer, Bool.not_eq_true', List.isEmpty_eq_false_iff]
      exact nobody
    rw [oneTaskPerCopy_iff_perm run.appends (by rw [if_pos taken]), List.map_map, bindings]
    have tasksBound : (((tasks.order (s.host.bindingsOf exchangeName)).map
        (Task.qname ∘ fun e => ⟨ch, e.1⟩)).Perm (boundQueues visit s.host exchangeName)) :=
      boundQueues_perm tasks visit s.host exchangeName
    have someone : log.map Prod.fst ≠ [] := fun none' => nobody (List.map_eq_nil_iff.mp none')
    rw [or_iff_right someone]
    constructor
    · intro agree
      exact sub.eq_of_length (agree.symm.trans tasksBound).length_eq
    · intro all
      rw [all]
      exact tasksBound

end Publication

/-- When a publication leaves one task for each copy: the exchange does not exist; or no bound
queue admits the message; or all do, which without properties means that all bindings match,
and with properties that one queue is bound, or two if the first is visited with an empty name
and an empty key. -/
theorem basicPublish_tasks_iff (codec : Codec)
    (matchHeaders : StrMap Bytes → StrMap Bytes → Bool) {s : BrokerServer}
    (reached : s.Reachable codec matchHeaders) (ch : ChannelRef) (visit tasks : Visit Binding)
    (exchangeName : Bytes) (bp : Option BasicProperties) (body : Bytes) :
    OneTaskPerCopy s (s.basicPublish codec matchHeaders ch visit tasks exchangeName bp body).2 ↔
      ∀ exchange, s.host.selectExchange exchangeName = some exchange →
        let entries := visit.order (s.host.bindingsOf exchangeName)
        let admits := Admits
          (shouldPublish matchHeaders exchange.type (routingKeyOf bp) (headersOf bp))
          (bp.map BasicProperties.routingKey)
        (∀ e ∈ entries, ¬admits e) ∨ (bp = none ∧ ∀ e ∈ entries, admits e) ∨
          (∃ e, entries = [e] ∧ admits e) ∨
          (∃ first second, entries = [([], first), second] ∧ routingKeyOf bp = [] ∧
            admits ([], first) ∧ admits second) := by
  have ok : WellFormed s.host := (BrokerServer.Reachable.host reached).wellFormed
  cases found : s.host.selectExchange exchangeName with
  | none =>
    simp only [reduceCtorEq, false_imp_iff, implies_true, iff_true, BrokerServer.basicPublish,
      found]
    exact ⟨[], (List.append_nil _).symm, fun queueName => ⟨[], (List.append_nil _).symm, rfl⟩⟩
  | some exchange =>
    rw [oneTaskPerCopy_iff_takers codec matchHeaders ok found]
    simp only [takers, found, boundQueues, Option.some.injEq, forall_eq',
      accepted_none_or_all_iff _ _ _ (visit.keys_nodup _), Option.map_eq_none_iff, routingKeyOf]

def queuesBroker (queues : List Bytes) (ops : List ServerOp) : BrokerServer :=
  Machine.exec (ServerOp.apply Wire.codec fun _ _ => false) (.new .blank)
    (.newConnection 0 :: .openChannel 0 (str "r1") (str "c") ::
      queues.map (fun q => .request 0 (str "r2") (str "c") (.declareQueue q false false false ∅)) ++
        ops)

theorem queuesBroker_reachable (queues : List Bytes) (ops : List ServerOp) :
    (queuesBroker queues ops).Reachable Wire.codec fun _ _ => false :=
  .exec (.start ⟨.blank, blank_initial, rfl⟩) _

/-- With a single queue the publication leaves one copy and one task. -/
theorem basicPublish_tasks_example :
    OneTaskPerCopy (queuesBroker [str "q1"] [])
      ((queuesBroker [str "q1"] []).basicPublish Wire.codec (fun _ _ => false) ⟨0, str "c"⟩ .stored
        .stored [] (some { routingKey := str "q1" }) (str "x")).2 := by
  refine (basicPublish_tasks_iff Wire.codec (fun _ _ => false) (queuesBroker_reachable _ _)
    ⟨0, str "c"⟩ .stored .stored [] _ _).mpr fun exchange found => Or.inr (Or.inr (Or.inl ?_))
  obtain rfl : (⟨[], .direct, false, false, ∅⟩ : Exchange) = exchange := Option.some.inj found
  exact ⟨(str "q1", ⟨[], str "q1", str "q1", ∅⟩), by decide +kernel, by decide, by decide⟩

def backlogBroker : BrokerServer :=
  queuesBroker [str "q1", str "q2"]
    [.request 0 (str "r3") (str "c") (.basicPublish .stored .stored []
      (some { routingKey := str "q2" }) (str "backlog"))]

/-- The publication to the first queue leaves a task for the second one as well. -/
theorem surplus_task :
    (backlogBroker.Reachable Wire.codec fun _ _ => false) ∧
      ¬OneTaskPerCopy backlogBroker
        (backlogBroker.basicPublish Wire.codec (fun _ _ => false) ⟨0, str "c"⟩ .stored .stored []
          (some { routingKey := str "q1" }) (str "x")).2 := by
  refine ⟨queuesBroker_reachable _ _, ?_⟩
  rintro ⟨tasks, pushed, agree⟩
  obtain ⟨copies, contents, count⟩ := agree (str "q2")
  let after := (backlogBroker.basicPublish Wire.codec (fun _ _ => false) ⟨0, str "c"⟩ .stored
    .stored [] (some { routingKey := str "q1" }) (str "x")).2
  have unchanged : after.host.contents (str "q2") = backlogBroker.host.contents (str "q2") := by
    decide +kernel
  have noCopies : copies = [] := List.self_eq_append_right.mp (unchanged ▸ contents)
  have surplus : ((after.pool.drop backlogBroker.pool.length).map Task.qname).count (str "q2") =
      1 := by decide +kernel
  rw [show after.pool = backlogBroker.pool ++ tasks from pushed, List.drop_left, count,
    noCopies] at surplus
  cases surplus

end HzMq.Delivery
