import HzMq.Delivery.Interleaving

/-!
# Consume tasks that overlap

Tasks that look at the head at the same time get the same message. When ids tell
messages apart, only the first of their removals finds it, and the others take nothing.
-/

namespace HzMq.Delivery

open FileStream QueueMessage Machine

def givenId (bp : Option BasicProperties) : Bytes := (bp.getD {}).id

/-- A new message brings an id, which none has that is queued or held by a task. -/
def NewId (r : Race) : RaceStep → Prop
  | .insert bp _ _ =>
    givenId bp ≠ [] ∧ ∀ m ∈ r.store.msgs ++ r.holding.map Prod.snd, m.id ≠ givenId bp
  | _ => True

instance (r : Race) : ∀ step, Decidable (NewId r step)
  | .insert bp _ _ =>
    inferInstanceAs (Decidable
      (givenId bp ≠ [] ∧ ∀ m ∈ r.store.msgs ++ r.holding.map Prod.snd, m.id ≠ givenId bp))
  | .front _ => isTrue trivial
  | .remove _ => isTrue trivial

/-- A removal by the id of this message takes the message, or it is gone and nothing is taken. -/
def Settled (r : Race) (m : MessagePtr) : Prop :=
  (∃ rest, r.store.msgs = m :: rest) ∨
    (m ∈ r.removed ∧ m.id ≠ [] ∧ ∀ x ∈ r.store.msgs, x.id ≠ m.id)

structure Overlapping (r : Race) : Prop where
  numbered : r.store.Numbered
  named : ∀ m ∈ r.store.msgs, m.id ≠ []
  distinct : (r.store.msgs.map MessagePtr.id).Nodup
  held : ∀ e ∈ r.holding, e ∈ r.obtained ∧ Settled r e.2
  got : ∀ m ∈ r.removed, ∃ task, (task, m) ∈ r.obtained
  gone : ∀ e ∈ r.obtained, e.2 ∈ r.removed ∨ e ∈ r.holding
  inOrder : r.obtained.Pairwise fun later earlier => earlier.2.addr ≤ later.2.addr
  ahead : ∀ e ∈ r.obtained, e.2.addr < r.store.pushed ∧ ∀ m ∈ r.store.msgs, e.2.addr ≤ m.addr

section Steps

variable (codec : Codec)

def RaceStep.inserts (r : Race) : RaceStep → List MessagePtr
  | .insert bp body durable => [inserted codec r.store r.fs bp body durable]
  | .front _ => []
  | .remove _ => []

/-- The messages that are put into the queue along the steps. -/
def insertsAlong : Race → List RaceStep → List MessagePtr
  | _, [] => []
  | r, step :: steps => step.inserts codec r ++ insertsAlong (step.apply codec r) steps

variable {codec} {r : Race}

theorem inserted_id (q : QueueMessage) (fs : FileSystem) (bp : Option BasicProperties)
    (body : Bytes) (durable : Bool) : (inserted codec q fs bp body durable).id = givenId bp := by
  change (inserted codec q fs bp body durable).payload.properties.id = givenId bp
  rw [MessagePayload.properties, inserted_properties, givenId]

theorem Overlapping.insert (overlapping : Overlapping r) {bp : Option BasicProperties}
    {body : Bytes} {durable : Bool} (new : NewId r (.insert bp body durable)) :
    Overlapping (RaceStep.apply codec r (.insert bp body durable)) := by
  obtain ⟨given, unused⟩ := new
  have queued {m : MessagePtr} :
      m ∈ (RaceStep.apply codec r (.insert bp body durable)).store.msgs ↔
        m ∈ r.store.msgs ∨ m = inserted codec r.store r.fs bp body durable := by
    simp only [RaceStep.apply, insert_msgs, List.mem_append, List.mem_singleton]
  refine ⟨overlapping.numbered.insert codec r.fs bp body durable, ?_, ?_, ?_, overlapping.got,
    overlapping.gone, overlapping.inOrder, ?_⟩
  · intro m member
    rcases queued.mp member with old | rfl
    · exact overlapping.named m old
    · rwa [inserted_id]
  · simp only [RaceStep.apply, insert_msgs, List.map_append, List.map_singleton, inserted_id]
    refine List.nodup_append.mpr ⟨overlapping.distinct, List.nodup_singleton _, ?_⟩
    intro id old last isLast
    obtain ⟨m, member, rfl⟩ := List.mem_map.mp old
    rw [List.mem_singleton.mp isLast]
    exact unused m (List.mem_append_left _ member)
  · intro e holds
    obtain ⟨obtained, settled⟩ := overlapping.held e holds
    refine ⟨obtained, settled.imp ?_ ?_⟩
    · rintro ⟨rest, head⟩
      exact ⟨rest ++ [inserted codec r.store r.fs bp body durable], by
        simp only [RaceStep.apply, insert_msgs, head, List.cons_append]⟩
    · rintro ⟨removed, named, absent⟩
      refine ⟨removed, named, fun m member => ?_⟩
      rcases queued.mp member with old | rfl
      · exact absent m old
      · rw [inserted_id]
        exact (unused e.2 (List.mem_append_right _ (List.mem_map_of_mem holds))).symm
  · intro e obtained
    obtain ⟨issued, ahead⟩ := overlapping.ahead e obtained
    refine ⟨Nat.lt_succ_of_lt issued, fun m member => ?_⟩
    rcases queued.mp member with old | rfl
    · exact ahead m old
    · exact Nat.le_of_lt issued

theorem Overlapping.front (overlapping : Overlapping r) (task : Nat) :
    Overlapping (RaceStep.apply codec r (.front task)) := by
  by_cases started : task ∈ r.started
  · rwa [RaceStep.apply, if_pos started]
  cases front : r.store.front with
  | none =>
    rw [front_of_empty started front]
    exact ⟨overlapping.numbered, overlapping.named, overlapping.distinct, overlapping.held,
      overlapping.got, overlapping.gone, overlapping.inOrder, overlapping.ahead⟩
  | some m =>
    obtain ⟨rest, queued⟩ := msgs_of_front front
    have head : m ∈ r.store.msgs := by simp [queued]
    rw [front_of_head started front]
    refine ⟨overlapping.numbered, overlapping.named, overlapping.distinct, ?_, ?_, ?_, ?_, ?_⟩
    · intro e holds
      rcases List.mem_cons.mp holds with rfl | old
      · exact ⟨List.mem_cons_self, Or.inl ⟨rest, queued⟩⟩
      · exact ⟨List.mem_cons_of_mem _ (overlapping.held e old).1, (overlapping.held e old).2⟩
    · intro x removed
      obtain ⟨other, got⟩ := overlapping.got x removed
      exact ⟨other, List.mem_cons_of_mem _ got⟩
    · intro e obtained
      rcases List.mem_cons.mp obtained with rfl | old
      · exact Or.inr List.mem_cons_self
      · exact (overlapping.gone e old).imp_right (List.mem_cons_of_mem _)
    · exact List.pairwise_cons.mpr ⟨fun e old => (overlapping.ahead e old).2 m head,
        overlapping.inOrder⟩
    · intro e obtained
      rcases List.mem_cons.mp obtained with rfl | old
      · refine ⟨overlapping.numbered.2 m head, fun x member => ?_⟩
        have addrs := overlapping.numbered.1
        rw [queued, List.map_cons, List.pairwise_cons] at addrs
        rw [queued] at member
        rcases List.mem_cons.mp member with rfl | behind
        · exact Nat.le_refl _
        · exact Nat.le_of_lt (addrs.1 _ (List.mem_map_of_mem behind))
      · exact overlapping.ahead e old

theorem mem_eraseP_of_find? {α : Type*} {p : α → Bool} {l : List α} {found x : α}
    (first : l.find? p = some found) (member : x ∈ l) : x = found ∨ x ∈ l.eraseP p := by
  obtain ⟨bears, before, after, rfl, others⟩ := List.find?_eq_some_iff_append.mp first
  rw [List.eraseP_append_right _ (by simpa using others), List.eraseP_cons_of_pos bears]
  simp only [List.mem_append, List.mem_cons] at member ⊢
  tauto

/-- The second step of a task takes the head, or it takes nothing. -/
theorem Overlapping.remove_cases (codec : Codec) (overlapping : Overlapping r) {task : Nat}
    {e : Nat × MessagePtr} (found : r.holding.find? (fun e => e.1 = task) = some e) :
    (∃ rest, r.store.msgs = e.2 :: rest) ∨
      (e.2 ∈ r.removed ∧ RaceStep.apply codec r (.remove task) =
        { r with holding := r.holding.eraseP fun e => e.1 = task }) := by
  obtain ⟨-, settled⟩ := overlapping.held e (List.mem_of_find?_eq_some found)
  refine settled.imp_right ?_
  rintro ⟨removed, named, absent⟩
  have none : target r.store.msgs e.2.id = none :=
    target_eq_none_iff.mpr (Or.inr ⟨named, absent⟩)
  have nothing : onlyIn r.store.msgs r.store.msgs = [] := onlyIn_of_subset fun _ => id
  refine ⟨removed, ?_⟩
  simp [RaceStep.apply, found, remove_of_none codec r.store r.fs none, nothing]

theorem Overlapping.remove (overlapping : Overlapping r) (task : Nat) :
    Overlapping (RaceStep.apply codec r (.remove task)) := by
  cases found : r.holding.find? fun e => e.1 = task with
  | none =>
    simp only [RaceStep.apply, found]
    exact overlapping
  | some e =>
    obtain ⟨obtained, -⟩ := overlapping.held e (List.mem_of_find?_eq_some found)
    rcases overlapping.remove_cases codec found with ⟨rest, queued⟩ | ⟨removed, next⟩
    · have renumbered := overlapping.numbered.remove codec r.fs e.2.id
      rw [remove_of_target codec r.store r.fs (queued ▸ target_head e.2 rest)] at renumbered
      have named := overlapping.named
      have distinct := overlapping.distinct
      rw [queued] at named
      rw [queued, List.map_cons, List.nodup_cons] at distinct
      rw [remove_of_head overlapping.numbered found queued]
      refine ⟨renumbered, fun m behind => named m (List.mem_cons_of_mem _ behind), distinct.2, ?_,
        ?_, ?_, overlapping.inOrder, ?_⟩
      · intro other holds
        obtain ⟨got, settled⟩ := overlapping.held other (List.mem_of_mem_eraseP holds)
        refine ⟨got, Or.inr ?_⟩
        rcases settled with ⟨tail, same⟩ | ⟨before, nonempty, absent⟩
        · rw [(List.cons.inj (queued.symm.trans same)).1.symm]
          exact ⟨List.mem_cons_self, named e.2 List.mem_cons_self, fun x behind same =>
            distinct.1 (same ▸ List.mem_map_of_mem behind)⟩
        · rw [queued] at absent
          exact ⟨List.mem_cons_of_mem _ before, nonempty, fun x behind =>
            absent x (List.mem_cons_of_mem _ behind)⟩
      · intro m removed
        rcases List.mem_cons.mp removed with rfl | before
        · exact ⟨e.1, obtained⟩
        · exact overlapping.got m before
      · intro other old
        rcases overlapping.gone other old with before | holds
        · exact Or.inl (List.mem_cons_of_mem _ before)
        · rcases mem_eraseP_of_find? found holds with rfl | still
          · exact Or.inl List.mem_cons_self
          · exact Or.inr still
      · intro other old
        obtain ⟨issued, ahead⟩ := overlapping.ahead other old
        refine ⟨issued, fun m behind => ahead m ?_⟩
        rw [queued]
        exact List.mem_cons_of_mem _ behind
    · rw [next]
      refine ⟨overlapping.numbered, overlapping.named, overlapping.distinct, ?_, overlapping.got,
        ?_, overlapping.inOrder, overlapping.ahead⟩
      · exact fun other holds => overlapping.held other (List.mem_of_mem_eraseP holds)
      · intro other old
        rcases overlapping.gone other old with gone | holds
        · exact Or.inl gone
        · rcases mem_eraseP_of_find? found holds with rfl | still
          · exact Or.inl removed
          · exact Or.inr still

theorem Overlapping.apply (overlapping : Overlapping r) {step : RaceStep} (new : NewId r step) :
    Overlapping (step.apply codec r) := by
  cases step with
  | insert bp body durable => exact overlapping.insert new
  | front task => exact overlapping.front task
  | remove task => exact overlapping.remove task

/-- What has left the queue and what is in it, in one row: only a publication adds to that. -/
theorem Overlapping.row_apply (overlapping : Overlapping r) (step : RaceStep) :
    (step.apply codec r).removed.reverse ++ (step.apply codec r).store.msgs =
      r.removed.reverse ++ r.store.msgs ++ step.inserts codec r := by
  cases step with
  | insert bp body durable =>
    simp only [RaceStep.apply, insert_msgs, RaceStep.inserts, List.append_assoc]
  | front task =>
    rw [RaceStep.inserts, List.append_nil]
    by_cases started : task ∈ r.started
    · rw [RaceStep.apply, if_pos started]
    cases front : r.store.front with
    | none => rw [front_of_empty started front]
    | some m => rw [front_of_head started front]
  | remove task =>
    rw [RaceStep.inserts, List.append_nil]
    cases found : r.holding.find? fun e => e.1 = task with
    | none => simp only [RaceStep.apply, found]
    | some e =>
      rcases overlapping.remove_cases codec found with ⟨rest, queued⟩ | ⟨-, next⟩
      · rw [remove_of_head overlapping.numbered found queued, queued, List.reverse_cons,
          List.append_assoc, List.singleton_append]
      · rw [next]

theorem Overlapping.row_exec (overlapping : Overlapping r) {steps : List RaceStep}
    (new : Along (RaceStep.apply codec) NewId r steps) :
    (exec (RaceStep.apply codec) r steps).removed.reverse ++
        (exec (RaceStep.apply codec) r steps).store.msgs =
      r.removed.reverse ++ r.store.msgs ++ insertsAlong codec r steps := by
  induction steps generalizing r with
  | nil => rw [exec_nil, insertsAlong, List.append_nil]
  | cons step steps ih =>
    rw [exec_cons, ih (overlapping.apply new.1) new.2, overlapping.row_apply, insertsAlong,
      List.append_assoc _ (step.inserts codec r)]

end Steps

def namedHost : VirtualHost :=
  exec (HostOp.apply Wire.codec fun _ _ => false) .blank
    [.declareQueue (str "q") false false false ∅,
      .basicPublish (str "q") (some { routingKey := str "q" }) (str "x"),
      .basicPublish (str "q") (some { routingKey := str "q" }) (str "y")]

def namedStore : QueueMessage :=
  (namedHost.queueMessages.lookup (str "q")).getD { filePath := [], file := {} }

/-- Two tasks look before one of them removes, and a third one gets what is behind. -/
def overlappingSteps : List RaceStep :=
  [.front 0, .front 1, .insert (some { id := str "z" }) (str "z") false, .remove 0, .front 2,
    .remove 1, .remove 2]

end HzMq.Delivery
