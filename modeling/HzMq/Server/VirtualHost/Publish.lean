import HzMq.Library.KeyedFifo
import HzMq.Server.VirtualHost.Frame

/-!
# Where a publication ends up

A publication is a run of appends, described by the list of queues that took the
message. `accepted` computes this list from the matching bindings and the shared
routing key: the first queue that takes the message writes its own name into the
key, and from then on only that name is let through.
-/

namespace HzMq

open KeyedFifo

namespace VirtualHost

def Appends (h h' : VirtualHost) (log : List (Bytes × MessagePtr)) : Prop :=
  Steps FifoStep h.contents (log.map fun e => Event.put e.1 e.2) h'.contents

namespace Appends

variable {h h' h'' : VirtualHost} {log log' : List (Bytes × MessagePtr)}

theorem none (same : h'.contents = h.contents) : Appends h h' [] := by
  rw [Appends, same]
  exact .nil _

theorem one {queueName : Bytes} {m : MessagePtr}
    (grown : h'.contents = Function.update h.contents queueName (h.contents queueName ++ [m])) :
    Appends h h' [(queueName, m)] := by
  rw [Appends, grown]
  exact Steps.one (.put queueName m)

theorem append (first : Appends h h' log) (second : Appends h' h'' log') :
    Appends h h'' (log ++ log') := by
  rw [Appends, List.map_append]
  exact Steps.append first second

theorem contents_eq (appends : Appends h h' log) (queueName : Bytes) :
    h'.contents queueName =
      h.contents queueName ++ (log.filter fun e => e.1 = queueName).map Prod.snd := by
  have ledger := appends.fifo_ledger queueName
  rwa [takes_log, puts_log, List.nil_append] at ledger

/-- A queue that is logged once has gained that one message. -/
theorem contents_of_mem (appends : Appends h h' log) (distinct : (log.map Prod.fst).Nodup)
    {e : Bytes × MessagePtr} (member : e ∈ log) :
    h'.contents e.1 = h.contents e.1 ++ [e.2] := by
  rw [appends.contents_eq, log_filter_singleton distinct member]
  rfl

theorem contents_of_not_mem (appends : Appends h h' log) {queueName : Bytes}
    (absent : queueName ∉ log.map Prod.fst) :
    h'.contents queueName = h.contents queueName := by
  rw [appends.contents_eq, log_filter_absent absent, List.map_nil, List.append_nil]

theorem not_mem (appends : Appends h h' log) (ok : WellFormed h') {e : Bytes × MessagePtr}
    (inLog : e ∈ log) : e.2 ∉ h.contents e.1 := by
  intro old
  have distinct := ok.contents_nodup e.1
  rw [appends.contents_eq, List.nodup_append] at distinct
  have appended : e.2 ∈ (log.filter fun x => x.1 = e.1).map Prod.snd :=
    List.mem_map_of_mem (List.mem_filter.mpr ⟨inLog, by simp⟩)
  exact distinct.2.2 e.2 old e.2 appended rfl

end Appends

section Deliveries

variable (codec : Codec) (props : Bytes → BasicProperties) (body : Bytes)

/-- A run of `deliver` steps, with the message that each of them queued; in between only the
counter behind the ids moves. -/
inductive Deliveries : VirtualHost → List (Bytes × MessagePtr) → VirtualHost → Prop
  | nil (h : VirtualHost) : Deliveries h [] h
  | seq {h h' : VirtualHost} {log : List (Bytes × MessagePtr)} (seq : Nat) :
    Deliveries { h with seq } log h' → Deliveries h log h'
  | deliver {h h' : VirtualHost} {log : List (Bytes × MessagePtr)} {queueName : Bytes}
      {store : QueueMessage} :
    h.queueMessages.lookup queueName = some store →
    Deliveries (h.deliver codec queueName store (some (props queueName)) body).2 log h' →
    Deliveries h
      ((queueName, QueueMessage.inserted codec store h.fs (some (props queueName)) body
        (h.isDurable queueName)) :: log) h'

namespace Deliveries

variable {codec props body} {h h' h'' : VirtualHost} {log log' : List (Bytes × MessagePtr)}

theorem append (first : Deliveries codec props body h log h')
    (second : Deliveries codec props body h' log' h'') :
    Deliveries codec props body h (log ++ log') h'' := by
  induction first with
  | nil h => exact second
  | seq n _ ih => exact .seq n (ih second)
  | deliver found _ ih => exact .deliver found (ih second)

theorem assignId (bp : Option BasicProperties)
    (run : Deliveries codec props body (h.assignId bp).2 log h') :
    Deliveries codec props body h log h' := by
  unfold VirtualHost.assignId at run
  split at run
  · exact run
  · split at run
    · exact .seq _ run
    · exact run

theorem appends (run : Deliveries codec props body h log h') : Appends h h' log := by
  induction run with
  | nil h => exact Appends.none rfl
  | seq n _ ih => exact ih
  | @deliver h h' log queueName store found _ ih =>
    refine Appends.append (Appends.one ?_) ih
    rw [contents_of_lookup found]
    exact contents_withStore h queueName _ _

theorem stored (run : Deliveries codec props body h log h') :
    ∀ e ∈ log, e.2.body = body ∧ e.2.payload.properties? = some (props e.1) := by
  induction run with
  | nil h => simp
  | seq n _ ih => exact ih
  | deliver found _ ih =>
    intro e member
    rcases List.mem_cons.mp member with rfl | later
    · simp
    · exact ih e later

theorem frame (run : Deliveries codec props body h log h') : Frame h h' := by
  induction run with
  | nil h => exact Frame.refl h
  | seq n _ ih => exact (Frame.seq _ n).trans ih
  | deliver found _ ih => exact (Frame.delivers.deliver _ _ _ _ body found).trans ih

end Deliveries

end Deliveries

/-- `basic_publish`'s own test of the routing key; there is none without properties. -/
def acceptsKey (key : Option Bytes) (queueName : Bytes) : Bool :=
  match key with
  | none => true
  | some k => k == [] || k == queueName

/-- The queues that take the message, given the key at the start. -/
def accepted (should : Binding → Bool) : Option Bytes → List (Bytes × Binding) → List Bytes
  | _, [] => []
  | key, (queueName, binding) :: rest =>
    if should binding && acceptsKey key queueName then
      queueName :: accepted should (key.map fun _ => queueName) rest
    else accepted should key rest

section Accepted

variable (should : Binding → Bool) (key : Option Bytes) (entries : List (Bytes × Binding))

theorem accepted_sublist : (accepted should key entries).Sublist (entries.map Prod.fst) := by
  induction entries generalizing key with
  | nil => exact List.Sublist.slnil
  | cons entry rest ih =>
    obtain ⟨queueName, binding⟩ := entry
    rw [accepted]
    split
    · exact (ih _).cons_cons queueName
    · exact (ih _).cons queueName

variable {should key entries}

theorem mem_accepted {queueName : Bytes} (member : queueName ∈ accepted should key entries) :
    ∃ binding, (queueName, binding) ∈ entries ∧ should binding = true := by
  induction entries generalizing key with
  | nil => cases member
  | cons entry rest ih =>
    obtain ⟨name, binding⟩ := entry
    rw [accepted] at member
    split at member
    · next taken =>
      rcases List.mem_cons.mp member with rfl | later
      · exact ⟨binding, List.mem_cons_self, (Bool.and_eq_true_iff.mp taken).1⟩
      · obtain ⟨other, inRest, matching⟩ := ih later
        exact ⟨other, List.mem_cons_of_mem _ inRest, matching⟩
    · obtain ⟨other, inRest, matching⟩ := ih member
      exact ⟨other, List.mem_cons_of_mem _ inRest, matching⟩

theorem accepted_of_stable
    (stable : ∀ name, acceptsKey key name = true → (key.map fun _ => name) = key) :
    accepted should key entries =
      (entries.filter fun e => should e.2 && acceptsKey key e.1).map Prod.fst := by
  induction entries with
  | nil => rfl
  | cons entry rest ih =>
    obtain ⟨name, binding⟩ := entry
    rw [accepted, List.filter_cons]
    split
    · next taken => rw [stable name (Bool.and_eq_true_iff.mp taken).2, ih, List.map_cons]
    · exact ih

theorem mem_accepted_none {queueName : Bytes} {binding : Binding}
    (member : (queueName, binding) ∈ entries) (matching : should binding = true) :
    queueName ∈ accepted should none entries := by
  rw [accepted_of_stable fun _ _ => rfl]
  refine List.mem_map.mpr ⟨(queueName, binding), List.mem_filter.mpr ⟨member, ?_⟩, rfl⟩
  simp [matching, acceptsKey]

theorem acceptsKey_set {k : Bytes} (set : k ≠ []) (name : Bytes) :
    acceptsKey (some k) name = true ↔ k = name := by
  simp [acceptsKey, set]

theorem accepted_key {k : Bytes} (set : k ≠ []) : accepted should (some k) entries =
    (entries.filter fun e => should e.2 && acceptsKey (some k) e.1).map Prod.fst :=
  accepted_of_stable fun name accepts => congrArg some ((acceptsKey_set set name).mp accepts).symm

/-- A key that is set lets only the queue of that name through. -/
theorem eq_key_of_mem_accepted {k queueName : Bytes} (set : k ≠ [])
    (member : queueName ∈ accepted should (some k) entries) : queueName = k := by
  rw [accepted_key set] at member
  obtain ⟨e, visited, rfl⟩ := List.mem_map.mp member
  obtain ⟨-, accepts⟩ := Bool.and_eq_true_iff.mp (List.mem_filter.mp visited).2
  exact ((acceptsKey_set set _).mp accepts).symm

theorem mem_accepted_key {k : Bytes} {binding : Binding} (set : k ≠ [])
    (member : (k, binding) ∈ entries) (matching : should binding = true) :
    k ∈ accepted should (some k) entries := by
  rw [accepted_key set]
  refine List.mem_map.mpr ⟨(k, binding), List.mem_filter.mpr ⟨member, ?_⟩, rfl⟩
  simp [matching, acceptsKey]

/-- With an empty key the first matching queue takes the message. -/
theorem accepted_ne_nil {queueName : Bytes} {binding : Binding}
    (member : (queueName, binding) ∈ entries) (matching : should binding = true) :
    accepted should (some []) entries ≠ [] := by
  induction entries with
  | nil => cases member
  | cons entry rest ih =>
    obtain ⟨name, first⟩ := entry
    rw [accepted]
    rcases List.mem_cons.mp member with here | later
    · cases here
      simp [matching, acceptsKey]
    · split
      · simp
      · exact ih later

/-- A set key must name a matching queue; with an empty key any matching queue will do. -/
theorem accepted_ne_nil_iff {k : Bytes} :
    accepted should (some k) entries ≠ [] ↔
      ∃ queueName binding, (queueName, binding) ∈ entries ∧ should binding = true ∧
        (k = [] ∨ queueName = k) := by
  constructor
  · intro taken
    obtain ⟨queueName, member⟩ := List.exists_mem_of_ne_nil _ taken
    obtain ⟨binding, visited, matching⟩ := mem_accepted member
    refine ⟨queueName, binding, visited, matching, ?_⟩
    by_cases empty : k = []
    · exact Or.inl empty
    · exact Or.inr (eq_key_of_mem_accepted empty member)
  · rintro ⟨queueName, binding, visited, matching, key⟩
    by_cases empty : k = []
    · rw [empty]
      exact accepted_ne_nil visited matching
    · obtain rfl := key.resolve_left empty
      exact List.ne_nil_of_mem (mem_accepted_key empty visited matching)

end Accepted

section Publish

variable (codec : Codec) {h : VirtualHost}

theorem assignId_key (h : VirtualHost) (bp : Option BasicProperties) :
    (h.assignId bp).1.map BasicProperties.routingKey = bp.map BasicProperties.routingKey := by
  unfold assignId
  split
  · rfl
  · split <;> rfl

def stampedId (h : VirtualHost) : Option BasicProperties → Bytes
  | none => []
  | some props => if props.id = [] then h.generateId.1 else props.id

def stamped (h : VirtualHost) (bp : Option BasicProperties) (queueName : Bytes) :
    BasicProperties :=
  { bp.getD {} with id := h.stampedId bp, routingKey := queueName }

theorem generateId_ne_nil (h : VirtualHost) : h.generateId.1 ≠ [] := toStdString_ne_nil _

theorem stampedId_ne_nil (h : VirtualHost) (props : BasicProperties) :
    h.stampedId (some props) ≠ [] := by
  simp only [stampedId]
  split
  · exact h.generateId_ne_nil
  · assumption

theorem stamped_of_id (h : VirtualHost) {props : BasicProperties} (given : props.id ≠ [])
    (queueName : Bytes) :
    h.stamped (some props) queueName = { props with routingKey := queueName } := by
  simp [stamped, stampedId, given]

theorem assignId_props (h : VirtualHost) (bp : Option BasicProperties) :
    (h.assignId bp).1 = bp.map fun props => { props with id := h.stampedId bp } := by
  cases bp with
  | none => rfl
  | some props =>
    simp only [assignId, stampedId]
    split <;> rfl

theorem assignId_stamped (h : VirtualHost) (bp : Option BasicProperties) (queueName : Bytes) :
    { (h.assignId bp).1.getD {} with routingKey := queueName } = h.stamped bp queueName := by
  rw [assignId_props]
  cases bp <;> rfl

theorem basicPublish_stamped {queueName : Bytes}
    (stored : (h.queueMessages.lookup queueName).isSome)
    (bp : Option BasicProperties) (body : Bytes) (name : Bytes) :
    (basicPublish codec h queueName bp body).2.2.stamped
        (basicPublish codec h queueName bp body).2.1 name = h.stamped bp name := by
  obtain ⟨store, found⟩ := Option.isSome_iff_exists.mp stored
  unfold basicPublish
  simp only [found, assignId_props]
  cases bp with
  | none =>
    simp only [Option.map_none, Option.getD_none, ne_eq, not_true_eq_false, false_and, if_false]
    rfl
  | some props =>
    have given := h.stampedId_ne_nil props
    simp only [Option.map_some, Option.getD_some]
    split <;> exact stamped_of_id _ given name

/-- `basic_publish` on an existing queue: taken or refused, by the key alone. -/
theorem basicPublish_spec {queueName : Bytes}
    (stored : (h.queueMessages.lookup queueName).isSome) (bp : Option BasicProperties)
    (body : Bytes) :
    if acceptsKey (bp.map BasicProperties.routingKey) queueName then
      (basicPublish codec h queueName bp body).1 = true ∧
        (basicPublish codec h queueName bp body).2.1.map BasicProperties.routingKey =
          (bp.map BasicProperties.routingKey).map (fun _ => queueName) ∧
        ∃ m, Deliveries codec (h.stamped bp) body h [(queueName, m)]
          (basicPublish codec h queueName bp body).2.2
    else
      (basicPublish codec h queueName bp body).1 = false ∧
        (basicPublish codec h queueName bp body).2.1.map BasicProperties.routingKey =
          bp.map BasicProperties.routingKey ∧
        Deliveries codec (h.stamped bp) body h [] (basicPublish codec h queueName bp body).2.2 := by
  obtain ⟨store, found⟩ := Option.isSome_iff_exists.mp stored
  have sameKey := assignId_key h bp
  have sameProps := assignId_stamped h bp queueName
  have foundNamed : (h.assignId bp).2.queueMessages.lookup queueName = some store := by
    rw [assignId_lookup, found]
  have named {log : List (Bytes × MessagePtr)} {h' : VirtualHost} :=
    @Deliveries.assignId codec (h.stamped bp) body h h' log bp
  unfold basicPublish
  simp only [found]
  generalize h.assignId bp = assigned at *
  obtain ⟨bp', h'⟩ := assigned
  simp only at sameKey sameProps foundNamed named ⊢
  rw [← sameKey]
  have taken := named (.deliver foundNamed (.nil _))
  rw [← sameProps] at taken
  cases bp' with
  | none =>
    simp only [Option.getD_none, Option.map_none, acceptsKey, if_true, ne_eq, not_true_eq_false,
      false_and, if_false]
    exact ⟨rfl, trivial, _, taken⟩
  | some props =>
    simp only [Option.getD_some, Option.map_some, acceptsKey, Bool.or_eq_true, beq_iff_eq]
    by_cases refused : props.routingKey ≠ [] ∧ props.routingKey ≠ queueName
    · rw [if_neg (by tauto), if_pos refused]
      exact ⟨rfl, rfl, named (.nil _)⟩
    · rw [if_pos (by tauto), if_neg refused]
      exact ⟨rfl, rfl, _, taken⟩

variable (matchHeaders : StrMap Bytes → StrMap Bytes → Bool)

theorem publishLoop_spec (should : Binding → Bool) (body : Bytes)
    (entries : List (Bytes × Binding)) (published : Bool) (bp : Option BasicProperties)
    (h : VirtualHost)
    (stored : ∀ e ∈ entries, (h.queueMessages.lookup e.1).isSome) :
    ∃ log, Deliveries codec (h.stamped bp) body h log
        (publishLoop codec should body entries published bp h).2.2 ∧
      log.map Prod.fst = accepted should (bp.map BasicProperties.routingKey) entries ∧
      (publishLoop codec should body entries published bp h).1 = (published || !log.isEmpty) := by
  induction entries generalizing published bp h with
  | nil => exact ⟨[], .nil h, rfl, by simp [publishLoop]⟩
  | cons entry rest ih =>
    obtain ⟨queueName, binding⟩ := entry
    have later : ∀ e ∈ rest, (h.queueMessages.lookup e.1).isSome := fun e member =>
      stored e (List.mem_cons_of_mem _ member)
    rw [publishLoop, accepted]
    cases matching : should binding with
    | false => simpa using ih published bp h later
    | true =>
      have first := basicPublish_spec codec (stored (queueName, binding) List.mem_cons_self) bp body
      have frame : Frame h (basicPublish codec h queueName bp body).2.2 :=
        Frame.delivers.basicPublish h queueName bp body
      have props := funext (basicPublish_stamped codec
        (stored (queueName, binding) List.mem_cons_self) bp body)
      generalize basicPublish codec h queueName bp body = result at first frame props
      obtain ⟨ok, bp', h'⟩ := result
      simp only at first frame props
      obtain ⟨log, run, names, answer⟩ := ih (published || ok) bp' h' fun e member => by
        rw [frame.stores]
        exact later e member
      rw [props] at run
      simp only [if_true, Bool.true_and]
      split at first
      · next accepts =>
        obtain ⟨rfl, key, m, one⟩ := first
        refine ⟨(queueName, m) :: log, one.append run, ?_, ?_⟩
        · rw [if_pos accepts, ← key, ← names]
          rfl
        · simpa using answer
      · next refuses =>
        obtain ⟨rfl, key, none⟩ := first
        refine ⟨log, none.append run, ?_, ?_⟩
        · rw [if_neg refuses, ← key, names]
        · simpa using answer

def routingKeyOf (bp : Option BasicProperties) : Bytes :=
  (bp.map BasicProperties.routingKey).getD []

def headersOf (bp : Option BasicProperties) : StrMap Bytes :=
  (bp.map BasicProperties.headers).getD ∅

theorem WellFormed.bound_entry (ok : WellFormed h) (visit : Visit Binding) {exchangeName : Bytes}
    {e : Bytes × Binding} (member : e ∈ visit.order (h.bindingsOf exchangeName)) :
    (h.queueMessages.lookup e.1).isSome :=
  ok.bound exchangeName e.1 (Option.isSome_of_eq_some (visit.mem_order.mp member))

def takers (visit : Visit Binding) (h : VirtualHost) (exchangeName : Bytes)
    (bp : Option BasicProperties) : List Bytes :=
  match h.selectExchange exchangeName with
  | none => []
  | some exchange =>
    accepted (shouldPublish matchHeaders exchange.type (routingKeyOf bp) (headersOf bp))
      (bp.map BasicProperties.routingKey) (visit.order (h.bindingsOf exchangeName))

theorem takers_nodup (visit : Visit Binding) (h : VirtualHost) (exchangeName : Bytes)
    (bp : Option BasicProperties) : (takers matchHeaders visit h exchangeName bp).Nodup := by
  unfold takers
  split
  · exact List.nodup_nil
  · exact (accepted_sublist _ _ _).nodup (visit.keys_nodup _)

theorem publishToExchange_absent (visit : Visit Binding) {exchangeName : Bytes}
    (absent : h.selectExchange exchangeName = none) (bp : Option BasicProperties) (body : Bytes) :
    publishToExchange codec matchHeaders visit h exchangeName bp body = (false, bp, h) := by
  simp [publishToExchange, absent]

/-- A publication is one delivery for each queue that takes it. -/
theorem publishToExchange_deliveries (ok : WellFormed h) (visit : Visit Binding)
    (exchangeName : Bytes) (bp : Option BasicProperties) (body : Bytes) :
    ∃ log, Deliveries codec (h.stamped bp) body h log
        (publishToExchange codec matchHeaders visit h exchangeName bp body).2.2 ∧
      log.map Prod.fst = takers matchHeaders visit h exchangeName bp ∧
      (publishToExchange codec matchHeaders visit h exchangeName bp body).1 = !log.isEmpty := by
  cases found : h.selectExchange exchangeName with
  | none =>
    rw [publishToExchange_absent codec matchHeaders visit found]
    exact ⟨[], .nil h, by simp [takers, found], rfl⟩
  | some exchange =>
    simp only [publishToExchange, takers, found]
    split
    · next empty =>
      have nothing : visit.order (h.bindingsOf exchangeName) = [] := by
        have rearranged := visit.perm (h.bindingsOf exchangeName)
        rw [StrMap.pairs, empty, List.map_nil] at rearranged
        exact rearranged.eq_nil
      exact ⟨[], .nil h, by simp [nothing, accepted], rfl⟩
    · have loop := publishLoop_spec codec
        (shouldPublish matchHeaders exchange.type (routingKeyOf bp) (headersOf bp)) body
        (visit.order (h.bindingsOf exchangeName)) false bp h fun e member =>
          ok.bound_entry visit member
      simp only [Bool.false_or] at loop
      cases bp <;> exact loop

theorem publishToExchange_spec (ok : WellFormed h) (visit : Visit Binding) {exchangeName : Bytes}
    {exchange : Exchange} (found : h.selectExchange exchangeName = some exchange)
    (bp : Option BasicProperties) (body : Bytes) :
    ∃ log, Appends h (publishToExchange codec matchHeaders visit h exchangeName bp body).2.2 log ∧
      (∀ e ∈ log, e.2.body = body ∧ e.2.payload.properties? = some (h.stamped bp e.1)) ∧
      log.map Prod.fst =
        accepted (shouldPublish matchHeaders exchange.type (routingKeyOf bp) (headersOf bp))
          (bp.map BasicProperties.routingKey) (visit.order (h.bindingsOf exchangeName)) ∧
      (publishToExchange codec matchHeaders visit h exchangeName bp body).1 = !log.isEmpty := by
  obtain ⟨log, run, names, answer⟩ :=
    publishToExchange_deliveries codec matchHeaders ok visit exchangeName bp body
  exact ⟨log, run.appends, run.stored, by simpa only [takers, found] using names, answer⟩

/-- The bindings that `publish_ex` follows; it looks at no key of its own. -/
def followed (type : ExchangeType) (routingKey : Bytes) (entries : List (Bytes × Binding)) :
    List Bytes :=
  (entries.filter fun e => Router.matchRoute type routingKey e.2.bindingKey).map Prod.fst

theorem publishExLoop_spec (type : ExchangeType) (props : BasicProperties) (body : Bytes)
    (entries : List (Bytes × Binding)) (delivered : Bool) (h : VirtualHost)
    (stored : ∀ e ∈ entries, (h.queueMessages.lookup e.1).isSome) :
    ∃ log, Deliveries codec (fun _ => props) body h log
        (publishExLoop codec type props body entries delivered h).2 ∧
      log.map Prod.fst = followed type props.routingKey entries ∧
      (publishExLoop codec type props body entries delivered h).1 =
        (delivered || !log.isEmpty) := by
  induction entries generalizing delivered h with
  | nil => exact ⟨[], .nil h, rfl, by simp [publishExLoop]⟩
  | cons entry rest ih =>
    obtain ⟨queueName, binding⟩ := entry
    have later : ∀ e ∈ rest, (h.queueMessages.lookup e.1).isSome := fun e member =>
      stored e (List.mem_cons_of_mem _ member)
    rw [publishExLoop]
    cases matching : Router.matchRoute type props.routingKey binding.bindingKey with
    | false => simpa [followed, matching] using ih delivered h later
    | true =>
      obtain ⟨store, found⟩ := Option.isSome_iff_exists.mp
        (stored (queueName, binding) List.mem_cons_self)
      have frame : Frame h (deliver codec h queueName store (some props) body).2 :=
        Frame.delivers.deliver h queueName store (some props) body found
      obtain ⟨log, run, names, answer⟩ := ih (delivered ||
        (deliver codec h queueName store (some props) body).1)
        (deliver codec h queueName store (some props) body).2 fun e member => by
          rw [frame.stores]
          exact later e member
      simp only [Bool.not_true, Bool.false_eq_true, if_false, found]
      refine ⟨_, .deliver found run, by simpa [followed, matching] using names, ?_⟩
      have taken : (deliver codec h queueName store (some props) body).1 = true := rfl
      rw [answer, taken]
      simp

def exProps (bp : Option BasicProperties) (routingKey : Bytes) : BasicProperties :=
  let props := bp.getD {}
  if props.routingKey = [] then { props with routingKey } else props

theorem publishEx_spec (ok : WellFormed h) (visit : Visit Binding) {exchangeName : Bytes}
    {exchange : Exchange} (found : h.selectExchange exchangeName = some exchange)
    (routingKey : Bytes) (bp : Option BasicProperties) (body : Bytes) :
    ∃ log, Appends h (publishEx codec visit h exchangeName routingKey bp body).2.2 log ∧
      (∀ e ∈ log, e.2.body = body ∧ e.2.payload.properties? = some (exProps bp routingKey)) ∧
      log.map Prod.fst = followed exchange.type (exProps bp routingKey).routingKey
        (visit.order (h.bindingsOf exchangeName)) ∧
      (publishEx codec visit h exchangeName routingKey bp body).1 = !log.isEmpty := by
  obtain ⟨log, run, names, answer⟩ := publishExLoop_spec codec exchange.type
    (exProps bp routingKey) body (visit.order (h.bindingsOf exchangeName)) false h fun e member =>
      ok.bound_entry visit member
  unfold publishEx
  simp only [found]
  exact ⟨log, run.appends, run.stored, names, by simpa [exProps] using answer⟩

theorem publishEx_absent (visit : Visit Binding) {exchangeName : Bytes}
    (absent : h.selectExchange exchangeName = none) (routingKey : Bytes)
    (bp : Option BasicProperties) (body : Bytes) :
    publishEx codec visit h exchangeName routingKey bp body = (false, bp, h) := by
  simp [publishEx, absent]

theorem publishEx_appends (ok : WellFormed h) (visit : Visit Binding)
    (exchangeName routingKey : Bytes) (bp : Option BasicProperties) (body : Bytes) :
    ∃ log, Appends h (publishEx codec visit h exchangeName routingKey bp body).2.2 log ∧
      ∀ e ∈ log, e.2.body = body := by
  cases found : h.selectExchange exchangeName with
  | none =>
    rw [publishEx_absent codec visit found]
    exact ⟨[], Appends.none rfl, by simp⟩
  | some exchange =>
    obtain ⟨log, appends, bodies, -⟩ := publishEx_spec codec ok visit found routingKey bp body
    exact ⟨log, appends, fun e inLog => (bodies e inLog).1⟩

theorem basicPublish_appends (h : VirtualHost) (queueName : Bytes) (bp : Option BasicProperties)
    (body : Bytes) :
    ∃ log, Appends h (basicPublish codec h queueName bp body).2.2 log ∧
      ∀ e ∈ log, e.2.body = body := by
  cases found : h.queueMessages.lookup queueName with
  | none => exact ⟨[], Appends.none (by simp [basicPublish, found]), by simp⟩
  | some store =>
    have taken := basicPublish_spec codec (Option.isSome_of_eq_some found) bp body
    split at taken
    · obtain ⟨-, -, m, one⟩ := taken
      exact ⟨_, one.appends, fun e inLog => (one.stored e inLog).1⟩
    · exact ⟨[], taken.2.2.appends, by simp⟩

theorem publishToExchange_appends (ok : WellFormed h) (visit : Visit Binding)
    (exchangeName : Bytes) (bp : Option BasicProperties) (body : Bytes) :
    ∃ log, Appends h (publishToExchange codec matchHeaders visit h exchangeName bp body).2.2 log ∧
      ∀ e ∈ log, e.2.body = body := by
  obtain ⟨log, run, -, -⟩ :=
    publishToExchange_deliveries codec matchHeaders ok visit exchangeName bp body
  exact ⟨log, run.appends, fun e inLog => (run.stored e inLog).1⟩

end Publish

end VirtualHost

end HzMq
