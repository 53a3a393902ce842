import HzMq.Delivery.DeadLetter

/-!
# Message ids

Ids come from a counter, which every process starts anew, from clients and from
the file of a queue. Only `basic_publish` assigns one, and only to properties
that are there; nobody looks whether the queue holds the id already.
-/

namespace HzMq.Delivery

open VirtualHost Machine

def anonymous (bp : Option BasicProperties) : Bool := bp.all fun props => props.id == []

def Identified (h h' : VirtualHost) : Prop :=
  ∀ queueName, ∀ m ∈ h'.contents queueName, m ∉ h.contents queueName →
    m.id ≠ [] ∧ ∀ x ∈ h'.contents queueName, x ≠ m → x.id ≠ m.id

section Publication

variable (codec : Codec) (matchHeaders : StrMap Bytes → StrMap Bytes → Bool)

/-- The host right after the publication that an operation makes, if it makes one whose
publisher supplied no id. -/
def anonymousPublication (h : VirtualHost) : HostOp → Option VirtualHost
  | .basicPublish queue bp body =>
    if anonymous bp then some (h.basicPublish codec queue bp body).2.2 else none
  | .publishToExchange visit exchange bp body =>
    if anonymous bp then
      some (h.publishToExchange codec matchHeaders visit exchange bp body).2.2
    else none
  | .publishEx visit exchange key bp body =>
    if anonymous bp then some (h.publishEx codec visit exchange key bp body).2.2 else none
  | .basicNack visit queue msgId requeue _ =>
    (letterOf h queue msgId requeue).map (publishLetter codec matchHeaders visit h)
  | _ => none

def Identifies (h : VirtualHost) (op : HostOp) : Prop :=
  ∀ h', anonymousPublication codec matchHeaders h op = some h' → Identified h h'

def takersEx (visit : Visit Binding) (h : VirtualHost) (exchangeName routingKey : Bytes)
    (bp : Option BasicProperties) : List Bytes :=
  match h.selectExchange exchangeName with
  | none => []
  | some exchange =>
    followed exchange.type (exProps bp routingKey).routingKey
      (visit.order (h.bindingsOf exchangeName))

def nextIdFree (h : VirtualHost) (queueName : Bytes) : Bool :=
  (h.contents queueName).all fun m => m.id != h.generateId.1

/-- If a publication without an id is taken by a queue, it came with properties, through
`basic_publish`, and the next number is not an id in that queue. -/
def numbersFreely (h : VirtualHost) : HostOp → Bool
  | .basicPublish queue bp _ =>
    !anonymous bp || (h.queueMessages.lookup queue).isNone ||
      !acceptsKey (bp.map BasicProperties.routingKey) queue || (bp.isSome && nextIdFree h queue)
  | .publishToExchange visit exchange bp _ =>
    !anonymous bp ||
      (takers matchHeaders visit h exchange bp).all fun queue => bp.isSome && nextIdFree h queue
  | .publishEx visit exchange key bp _ =>
    !anonymous bp || (takersEx visit h exchange key bp).isEmpty
  | .basicNack visit queue msgId requeue _ =>
    (letterOf h queue msgId requeue).all fun letter =>
      (letterQueues matchHeaders visit h letter.1).all (nextIdFree h)
  | _ => true

end Publication

section Exact

variable {codec : Codec} {matchHeaders : StrMap Bytes → StrMap Bytes → Bool}
  {h h' : VirtualHost}

theorem identified_of_unchanged (h : VirtualHost) : Identified h h :=
  fun _ _ stored new => absurd stored new

theorem identified_iff {log : List (Bytes × MessagePtr)} (appends : Appends h h' log)
    (ok : WellFormed h') (distinct : (log.map Prod.fst).Nodup) {id : Bytes}
    (ids : ∀ e ∈ log, e.2.id = id) :
    Identified h h' ↔
      ∀ queueName ∈ log.map Prod.fst, id ≠ [] ∧ ∀ x ∈ h.contents queueName, x.id ≠ id := by
  constructor
  · intro identified queueName taken
    obtain ⟨e, inLog, rfl⟩ := List.mem_map.mp taken
    have grown := appends.contents_of_mem distinct inLog
    have new := appends.not_mem ok inLog
    obtain ⟨given, others⟩ := identified e.1 e.2 (by simp [grown]) new
    rw [ids e inLog] at given others
    refine ⟨given, fun x old => others x (by simp [grown, old]) ?_⟩
    rintro rfl
    exact new old
  · intro free queueName m stored new
    have taken : queueName ∈ log.map Prod.fst := by
      by_contra absent
      exact new (appends.contents_of_not_mem absent ▸ stored)
    obtain ⟨given, others⟩ := free queueName taken
    obtain ⟨e, inLog, rfl⟩ := List.mem_map.mp taken
    rw [appends.contents_of_mem distinct inLog, List.mem_append, List.mem_singleton] at stored
    obtain rfl := stored.resolve_left new
    rw [ids e inLog]
    refine ⟨given, fun x queued differs => others x ?_⟩
    rw [appends.contents_of_mem distinct inLog, List.mem_append, List.mem_singleton] at queued
    exact queued.resolve_right differs

theorem nextIdFree_iff {queueName : Bytes} :
    nextIdFree h queueName = true ↔ ∀ x ∈ h.contents queueName, x.id ≠ h.generateId.1 := by
  simp [nextIdFree]

/-- Without an id, what is stored gets the next number, or none without properties. -/
theorem stampedId_of_anonymous {bp : Option BasicProperties} (none' : anonymous bp = true) :
    h.stampedId bp = if bp.isSome then h.generateId.1 else [] := by
  cases bp with
  | none => rfl
  | some props =>
    have empty : props.id = [] := by simpa [anonymous] using none'
    simp [stampedId, empty]

theorem stamped_free_iff {bp : Option BasicProperties} (none' : anonymous bp = true)
    (queueName : Bytes) :
    (h.stampedId bp ≠ [] ∧ ∀ x ∈ h.contents queueName, x.id ≠ h.stampedId bp) ↔
      (bp.isSome && nextIdFree h queueName) = true := by
  rw [stampedId_of_anonymous none']
  cases bp with
  | none => simp
  | some props => simp [generateId_ne_nil, nextIdFree_iff]

theorem identified_stamped {bp : Option BasicProperties} (none' : anonymous bp = true)
    {log : List (Bytes × MessagePtr)} (appends : Appends h h' log) (ok : WellFormed h')
    (distinct : (log.map Prod.fst).Nodup)
    (props : ∀ e ∈ log, e.2.payload.properties? = some (h.stamped bp e.1)) :
    Identified h h' ↔
      ∀ queueName ∈ log.map Prod.fst, (bp.isSome && nextIdFree h queueName) = true := by
  have ids : ∀ e ∈ log, e.2.id = h.stampedId bp := fun e inLog =>
    MessagePtr.id_of_properties (props e inLog)
  rw [identified_iff appends ok distinct ids]
  exact forall₂_congr fun queueName _ => stamped_free_iff none' queueName

variable (codec matchHeaders) in
theorem identifies_basicPublish (ok : WellFormed h) (queueName : Bytes)
    (bp : Option BasicProperties) (body : Bytes) :
    Identifies codec matchHeaders h (.basicPublish queueName bp body) ↔
      numbersFreely matchHeaders h (.basicPublish queueName bp body) = true := by
  cases none' : anonymous bp with
  | false => simp [Identifies, anonymousPublication, numbersFreely, none']
  | true =>
    have after : WellFormed (h.basicPublish codec queueName bp body).2.2 :=
      ok.of_frame (Frame.delivers.basicPublish h queueName bp body)
    simp only [Identifies, anonymousPublication, numbersFreely, none', if_true,
      Option.some.injEq, forall_eq', Bool.not_true, Bool.false_or]
    cases found : h.queueMessages.lookup queueName with
    | none => simp [basicPublish, found, identified_of_unchanged]
    | some store =>
      have spec := basicPublish_spec codec (Option.isSome_of_eq_some found) bp body
      cases accepts : acceptsKey (bp.map BasicProperties.routingKey) queueName with
      | false =>
        simp only [accepts, Bool.false_eq_true, if_false] at spec
        simpa using (identified_stamped none' spec.2.2.appends after (by simp) (by simp)).mpr
          (by simp)
      | true =>
        simp only [accepts, if_true] at spec
        obtain ⟨-, -, m, one⟩ := spec
        simpa using identified_stamped none' one.appends after (by simp)
          fun e inLog => (one.stored e inLog).2

variable (codec matchHeaders) in
theorem identifies_publishToExchange (ok : WellFormed h) (visit : Visit Binding)
    (exchangeName : Bytes) (bp : Option BasicProperties) (body : Bytes) :
    Identifies codec matchHeaders h (.publishToExchange visit exchangeName bp body) ↔
      numbersFreely matchHeaders h (.publishToExchange visit exchangeName bp body) = true := by
  cases none' : anonymous bp with
  | false => simp [Identifies, anonymousPublication, numbersFreely, none']
  | true =>
    simp only [Identifies, anonymousPublication, numbersFreely, none', if_true,
      Option.some.injEq, forall_eq', Bool.not_true, Bool.false_or, List.all_eq_true]
    obtain ⟨log, run, names, -⟩ :=
      publishToExchange_deliveries codec matchHeaders ok visit exchangeName bp body
    rw [← names]
    exact identified_stamped none' run.appends (ok.of_frame run.frame)
      (names ▸ takers_nodup matchHeaders visit h exchangeName bp)
      fun e inLog => (run.stored e inLog).2

variable (codec matchHeaders) in
theorem identifies_publishEx (ok : WellFormed h) (visit : Visit Binding)
    (exchangeName routingKey : Bytes) (bp : Option BasicProperties) (body : Bytes) :
    Identifies codec matchHeaders h (.publishEx visit exchangeName routingKey bp body) ↔
      numbersFreely matchHeaders h (.publishEx visit exchangeName routingKey bp body) = true := by
  cases none' : anonymous bp with
  | false => simp [Identifies, anonymousPublication, numbersFreely, none']
  | true =>
    simp only [Identifies, anonymousPublication, numbersFreely, none', if_true,
      Option.some.injEq, forall_eq', Bool.not_true, Bool.false_or, List.isEmpty_iff]
    cases found : h.selectExchange exchangeName with
    | none =>
      rw [publishEx_absent codec visit found]
      simp [takersEx, found, identified_of_unchanged]
    | some exchange =>
      obtain ⟨log, appends, bodies, names, -⟩ :=
        publishEx_spec codec ok visit found routingKey bp body
      have distinct : (log.map Prod.fst).Nodup := by
        rw [names]
        exact (visit.keys_nodup _).sublist (List.filter_sublist.map _)
      have empty : (exProps bp routingKey).id = [] := by
        cases bp with
        | none => simp only [exProps, Option.getD_none]; split <;> rfl
        | some props =>
          have unset : props.id = [] := by simpa [anonymous] using none'
          simp only [exProps, Option.getD_some]
          split <;> exact unset
      rw [identified_iff appends (ok.of_frame (Frame.delivers.publishEx visit _ _ _ _ _)) distinct
        fun e inLog => (MessagePtr.id_of_properties (bodies e inLog).2).trans empty]
      simp only [takersEx, found, ← names]
      simp [List.eq_nil_iff_forall_not_mem]

variable (codec matchHeaders) in
/-- A dead letter always gets the next number. -/
theorem identifies_basicNack (ok : WellFormed h) (visit : Visit Binding) (queueName msgId : Bytes)
    (requeue : Bool) (reason : Bytes) :
    Identifies codec matchHeaders h (.basicNack visit queueName msgId requeue reason) ↔
      numbersFreely matchHeaders h (.basicNack visit queueName msgId requeue reason) = true := by
  simp only [Identifies, anonymousPublication, numbersFreely]
  cases letterOf h queueName msgId requeue with
  | none => simp
  | some letter =>
    obtain ⟨log, appends, after, copies, names⟩ :=
      publishLetter_spec codec matchHeaders ok visit letter
    have distinct : (log.map Prod.fst).Nodup := names ▸ letterQueues_nodup letter.1 visit
    simp only [Option.map_some, Option.some.injEq, forall_eq', Option.all_some, List.all_eq_true,
      nextIdFree_iff, ← names]
    have numbered : ∀ e ∈ log, e.2.id = h.generateId.1 := fun e inLog => by
      rw [MessagePtr.id_of_properties (copies e inLog).2]
      rfl
    rw [identified_iff appends after distinct numbered]
    simp [generateId_ne_nil]

variable (codec matchHeaders) in
theorem identifies_iff (ok : WellFormed h) (op : HostOp) :
    Identifies codec matchHeaders h op ↔ numbersFreely matchHeaders h op = true := by
  cases op with
  | basicPublish queue bp body => exact identifies_basicPublish codec matchHeaders ok queue bp body
  | publishToExchange visit exchange bp body =>
    exact identifies_publishToExchange codec matchHeaders ok visit exchange bp body
  | publishEx visit exchange key bp body =>
    exact identifies_publishEx codec matchHeaders ok visit exchange key bp body
  | basicNack visit queue msgId requeue reason =>
    exact identifies_basicNack codec matchHeaders ok visit queue msgId requeue reason
  | _ => simp [Identifies, anonymousPublication, numbersFreely]

end Exact

/-- A run of a host goes on in a new process, which finds the files of the old one. The
counter belongs to the process, so that other hosts may have used it already. -/
inductive LifeOp
  | host (op : HostOp)
  | restart (name : Bytes) (exchanges : StrMap Exchange) (seq : Nat)

namespace LifeOp

variable (codec : Codec) (matchHeaders : StrMap Bytes → StrMap Bytes → Bool)

def apply (h : VirtualHost) : LifeOp → VirtualHost
  | .host op => op.apply codec matchHeaders h
  | .restart name exchanges seq => VirtualHost.new name h.baseDir exchanges seq h.fs

def Identifies (h : VirtualHost) : LifeOp → Prop
  | .host op => Delivery.Identifies codec matchHeaders h op
  | .restart _ _ _ => True

def numbersFreely (h : VirtualHost) : LifeOp → Bool
  | .host op => Delivery.numbersFreely matchHeaders h op
  | .restart _ _ _ => true

variable {codec matchHeaders} {h : VirtualHost}

theorem wellFormed (ok : WellFormed h) (op : LifeOp) :
    WellFormed (op.apply codec matchHeaders h) := by
  cases op with
  | host op => exact ok.apply op
  | restart name exchanges seq => exact WellFormed.new name h.baseDir exchanges seq h.fs

theorem run_wellFormed (ok : WellFormed h) (ops : List LifeOp) :
    WellFormed (exec (apply codec matchHeaders) h ops) := by
  induction ops generalizing h with
  | nil => exact ok
  | cons op ops ih => exact ih (wellFormed ok op)

variable (codec matchHeaders) in
theorem identifies_iff (ok : WellFormed h) (op : LifeOp) :
    op.Identifies codec matchHeaders h ↔ op.numbersFreely matchHeaders h = true := by
  cases op with
  | host op => exact Delivery.identifies_iff codec matchHeaders ok op
  | restart name exchanges seq => exact iff_of_true trivial rfl

end LifeOp

/-- In a run with restarts every publication without an id stores messages that their ids
identify, exactly when every such publication numbers freely. -/
theorem ids_identify_iff (codec : Codec) (matchHeaders : StrMap Bytes → StrMap Bytes → Bool)
    {h : VirtualHost} (reached : h.Reachable codec matchHeaders) (ops : List LifeOp) :
    Along (LifeOp.apply codec matchHeaders) (LifeOp.Identifies codec matchHeaders) h ops ↔
      Along (LifeOp.apply codec matchHeaders)
        (fun h op => op.numbersFreely matchHeaders h = true) h ops :=
  along_congr WellFormed (fun _ op ok => LifeOp.identifies_iff codec matchHeaders ok op)
    (fun _ op ok _ => LifeOp.wellFormed ok op) (Reachable.wellFormed reached) ops

def keptQueue : List LifeOp :=
  [.host (.declareQueue (str "q") true false false ∅), .host (.queueRuntimeStats (str "q"))]

def numberedRun : List LifeOp :=
  keptQueue ++ [.host (.basicPublish (str "q") (some {}) (str "x")),
    .host (.basicPublish (str "q") (some { id := str "own" }) (str "y")),
    .restart (str "TestHost") ∅ 1] ++ keptQueue ++
    [.host (.publishToExchange .stored [] (some { routingKey := str "q" }) (str "z"))]

/-- Every one of them finds messages in the queue or leaves one there for the next. -/
theorem ids_identify_example :
    ((exec (LifeOp.apply Wire.codec fun _ _ => false) .blank numberedRun).contents
        (str "q")).map MessagePtr.id = [str "1", str "own", str "2"] ∧
      Along (LifeOp.apply Wire.codec fun _ _ => false)
        (LifeOp.Identifies Wire.codec fun _ _ => false) .blank numberedRun :=
  ⟨by decide +kernel, (ids_identify_iff Wire.codec (fun _ _ => false) (.start blank_initial) _).mpr
    (by decide +kernel)⟩

/-- Null properties get no id, and neither does anything from `publish_ex`; after a restart
the counter gives out the id of the recovered message again. -/
theorem ids_collide :
    ¬Along (LifeOp.apply Wire.codec fun _ _ => false)
      (LifeOp.Identifies Wire.codec fun _ _ => false) .blank
      (keptQueue ++ [.host (.basicPublish (str "q") none (str "x"))]) ∧
    ¬Along (LifeOp.apply Wire.codec fun _ _ => false)
      (LifeOp.Identifies Wire.codec fun _ _ => false) .blank
      (keptQueue ++ [.host (.publishEx .stored [] (str "q") (some {}) (str "x"))]) ∧
    ¬Along (LifeOp.apply Wire.codec fun _ _ => false)
      (LifeOp.Identifies Wire.codec fun _ _ => false) .blank
      (keptQueue ++ [.host (.basicPublish (str "q") (some {}) (str "x")),
        .restart (str "TestHost") ∅ 0] ++ keptQueue ++
        [.host (.basicPublish (str "q") (some {}) (str "y"))]) := by
  have blank : WellFormed VirtualHost.blank :=
    WellFormed.new (str "TestHost") (str "d") ∅ 0 _
  have last {ops : List LifeOp} {op : LifeOp}
      (along : Along (LifeOp.apply Wire.codec fun _ _ => false)
        (LifeOp.Identifies Wire.codec fun _ _ => false) .blank (ops ++ [op])) :
      op.numbersFreely (fun _ _ => false)
        (exec (LifeOp.apply Wire.codec fun _ _ => false) .blank ops) = true :=
    (LifeOp.identifies_iff Wire.codec (fun _ _ => false) (LifeOp.run_wellFormed blank ops) op).mp
      (along_append.mp along).2.1
  refine ⟨fun along => ?_, fun along => ?_, fun along => ?_⟩
  all_goals exact absurd (last along) (by decide +kernel)

end HzMq.Delivery
