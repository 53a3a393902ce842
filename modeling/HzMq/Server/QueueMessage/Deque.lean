import HzMq.Server.QueueMessage

/-!
# What the operations do to the deque

`target` says once which message `remove(id)` takes out and what stays; every
later statement about removal goes through it. The file plays no part here.
-/

namespace HzMq

open FileStream FramedLog

namespace QueueMessage

/-- The message `remove(id)` takes out, and the deque without it. -/
def target (msgs : List MessagePtr) (id : Bytes) : Option (MessagePtr × List MessagePtr) :=
  match msgs with
  | [] => none
  | head :: rest =>
    if id = [] then some (head, rest)
    else ((head :: rest).find? fun m => m.id == id).map fun m =>
      (m, (head :: rest).eraseP fun m => m.id == id)

@[simp] theorem target_nil (id : Bytes) : target [] id = none := rfl

/-- Removing by the head's own id removes the head, also when that id is empty. -/
@[simp] theorem target_head (head : MessagePtr) (rest : List MessagePtr) :
    target (head :: rest) head.id = some (head, rest) := by
  simp [target]

theorem target_split {msgs rest : List MessagePtr} {id : Bytes} {m : MessagePtr}
    (found : target msgs id = some (m, rest)) :
    ∃ before after, msgs = before ++ m :: after ∧ rest = before ++ after ∧
      (id = [] → before = []) ∧ (id ≠ [] → m.id = id ∧ ∀ x ∈ before, x.id ≠ id) := by
  cases msgs with
  | nil => cases found
  | cons head tail =>
    simp only [target] at found
    by_cases empty : id = []
    · simp only [if_pos empty, Option.some.injEq, Prod.mk.injEq] at found
      obtain ⟨rfl, rfl⟩ := found
      exact ⟨[], tail, rfl, rfl, fun _ => rfl, fun h => absurd empty h⟩
    · simp only [if_neg empty, Option.map_eq_some_iff, Prod.mk.injEq] at found
      obtain ⟨x, first, rfl, rfl⟩ := found
      obtain ⟨bears, before, after, split, others⟩ := List.find?_eq_some_iff_append.mp first
      refine ⟨before, after, split, ?_, fun h => absurd h empty,
        fun _ => ⟨by simpa using bears, ?_⟩⟩
      · rw [split, List.eraseP_append_right _ (by simpa using others)]
        simp [bears]
      · simpa using others

theorem target_eq_none_iff {msgs : List MessagePtr} {id : Bytes} :
    target msgs id = none ↔ msgs = [] ∨ (id ≠ [] ∧ ∀ m ∈ msgs, m.id ≠ id) := by
  cases msgs with
  | nil => simp
  | cons head tail =>
    by_cases empty : id = []
    · simp [target, empty]
    · simp [target, empty]

theorem target_isSome_of_mem {msgs : List MessagePtr} {m : MessagePtr} (member : m ∈ msgs) :
    (target msgs m.id).isSome := by
  rw [Option.isSome_iff_ne_none]
  intro absent
  rcases target_eq_none_iff.mp absent with rfl | ⟨-, others⟩
  · cases member
  · exact others m member rfl

theorem mem_of_target {msgs rest : List MessagePtr} {id : Bytes} {m x : MessagePtr}
    (found : target msgs id = some (m, rest)) : x ∈ msgs ↔ x = m ∨ x ∈ rest := by
  obtain ⟨before, after, rfl, rfl, -, -⟩ := target_split found
  simp only [List.mem_append, List.mem_cons]
  tauto

theorem target_append {msgs rest : List MessagePtr} {id : Bytes} {m : MessagePtr}
    (found : target msgs id = some (m, rest)) (more : List MessagePtr) :
    target (msgs ++ more) id = some (m, rest ++ more) := by
  cases msgs with
  | nil => cases found
  | cons head tail =>
    simp only [target, List.cons_append] at found ⊢
    by_cases empty : id = []
    · simp only [if_pos empty, Option.some.injEq, Prod.mk.injEq] at found ⊢
      exact ⟨found.1, found.2 ▸ rfl⟩
    · simp only [if_neg empty, Option.map_eq_some_iff, Prod.mk.injEq] at found ⊢
      obtain ⟨x, first, rfl, rfl⟩ := found
      refine ⟨x, ?_, rfl, ?_⟩
      · rw [← List.cons_append, List.find?_append, first, Option.some_or]
      · exact List.eraseP_append_left (a := x) (by simpa using List.find?_some first) _
          (List.mem_of_find?_eq_some first)

theorem find?_of_target {msgs rest : List MessagePtr} {id : Bytes} {m : MessagePtr}
    (found : target msgs id = some (m, rest)) (bears : m.id = id) :
    msgs.find? (fun x => x.id == id) = some m := by
  obtain ⟨before, after, split, -, popped, searched⟩ := target_split found
  rw [List.find?_eq_some_iff_append]
  refine ⟨by simpa using bears, before, after, split, ?_⟩
  by_cases empty : id = []
  · simp [popped empty]
  · simpa using (searched empty).2

theorem rest_sublist_of_target {msgs rest : List MessagePtr} {id : Bytes} {m : MessagePtr}
    (found : target msgs id = some (m, rest)) : rest.Sublist msgs := by
  obtain ⟨before, after, rfl, rfl, -, -⟩ := target_split found
  exact List.Sublist.append_left (List.sublist_cons_self m after) before

section Codec

variable (codec : Codec) (q : QueueMessage) (fs : FileSystem)

theorem remove_eq (id : Bytes) :
    q.remove codec fs id =
      match target q.msgs id with
      | none => (q, fs)
      | some (m, rest) =>
        ({ q with msgs := rest, file := (invalidatePersistent codec q.file fs m.msg).1 },
          (invalidatePersistent codec q.file fs m.msg).2) := by
  unfold remove
  cases held : q.msgs with
  | nil => rfl
  | cons head tail =>
    simp only [target]
    by_cases empty : id = []
    · simp [empty]
    · simp only [if_neg empty]
      cases (head :: tail).find? fun m => m.id == id <;> rfl

theorem remove_of_target {id : Bytes} {m : MessagePtr} {rest : List MessagePtr}
    (found : target q.msgs id = some (m, rest)) :
    q.remove codec fs id =
      ({ q with msgs := rest, file := (invalidatePersistent codec q.file fs m.msg).1 },
        (invalidatePersistent codec q.file fs m.msg).2) := by
  rw [remove_eq, found]

theorem remove_of_none {id : Bytes} (absent : target q.msgs id = none) :
    q.remove codec fs id = (q, fs) := by
  rw [remove_eq, absent]

@[simp] theorem remove_pushed (id : Bytes) : (q.remove codec fs id).1.pushed = q.pushed := by
  rw [remove_eq]
  split <;> rfl

@[simp] theorem remove_filePath (id : Bytes) :
    (q.remove codec fs id).1.filePath = q.filePath := by
  rw [remove_eq]
  split <;> rfl

theorem remove_msgs_sublist (id : Bytes) :
    (q.remove codec fs id).1.msgs.Sublist q.msgs := by
  rw [remove_eq]
  split
  · exact List.Sublist.refl _
  · next found => exact rest_sublist_of_target found

variable (bp : Option BasicProperties) (body : Bytes) (durable : Bool)

def inserted : MessagePtr :=
  ⟨q.pushed, (persist codec q.file fs (makeMessage bp body) durable).2.1⟩

@[simp] theorem insert_msgs :
    (q.insert codec fs bp body durable).2.1.msgs =
      q.msgs ++ [inserted codec q fs bp body durable] :=
  rfl

@[simp] theorem insert_pushed :
    (q.insert codec fs bp body durable).2.1.pushed = q.pushed + 1 := rfl

@[simp] theorem inserted_addr : (inserted codec q fs bp body durable).addr = q.pushed := rfl

theorem persist_payload (file : Stream) (msg : Message) :
    (persist codec file fs msg durable).2.1.payload = msg.payload ∨
      (persist codec file fs msg durable).2.1.payload = msg.payload.setValid validMark := by
  unfold persist
  split
  · unfold writePersistent
    split
    · exact Or.inr rfl
    · exact Or.inl rfl
  · exact Or.inl rfl

@[simp] theorem inserted_body : (inserted codec q fs bp body durable).body = body := by
  change (persist codec q.file fs (makeMessage bp body) durable).2.1.payload.body = body
  rcases persist_payload codec fs durable q.file (makeMessage bp body) with same | same <;>
    rw [same] <;> rfl

@[simp] theorem inserted_properties :
    (inserted codec q fs bp body durable).payload.properties? = bp := by
  change (persist codec q.file fs (makeMessage bp body) durable).2.1.payload.properties? = bp
  rcases persist_payload codec fs durable q.file (makeMessage bp body) with same | same <;>
    rw [same] <;> rfl

/-- The objects of one store are numbered in queueing order, below `pushed`. -/
def Numbered : Prop :=
  (q.msgs.map MessagePtr.addr).Pairwise (· < ·) ∧ ∀ m ∈ q.msgs, m.addr < q.pushed

variable {q}

theorem Numbered.nodup (numbered : q.Numbered) : q.msgs.Nodup := by
  apply List.Nodup.of_map MessagePtr.addr
  exact numbered.1.imp fun h => Nat.ne_of_lt h

/-- Among numbered objects a removal is a filter. -/
theorem Numbered.rest_eq_filter (numbered : q.Numbered) {id : Bytes} {m : MessagePtr}
    {rest : List MessagePtr} (found : target q.msgs id = some (m, rest)) :
    rest = q.msgs.filter fun x => x.addr ≠ m.addr := by
  obtain ⟨before, after, msgsEq, rfl, -, -⟩ := target_split found
  have addrs := numbered.1
  rw [msgsEq, List.map_append, List.map_cons, List.pairwise_append] at addrs
  obtain ⟨-, later, apart⟩ := addrs
  have earlier : ∀ x ∈ before, x.addr ≠ m.addr := fun x member =>
    Nat.ne_of_lt (apart _ (List.mem_map_of_mem member) _ (by simp))
  have behind : ∀ x ∈ after, x.addr ≠ m.addr := fun x member =>
    Nat.ne_of_gt ((List.pairwise_cons.mp later).1 _ (List.mem_map_of_mem member))
  rw [msgsEq, List.filter_append, List.filter_cons_of_neg (by simp),
    List.filter_eq_self.mpr (by simpa using earlier),
    List.filter_eq_self.mpr (by simpa using behind)]

theorem Numbered.insert (numbered : q.Numbered) :
    (q.insert codec fs bp body durable).2.1.Numbered := by
  constructor
  · simp only [insert_msgs, List.map_append, List.map_cons, List.map_nil, inserted_addr]
    refine List.pairwise_append.mpr ⟨numbered.1, by simp, ?_⟩
    intro a ha b hb
    obtain ⟨m, hm, rfl⟩ := List.mem_map.mp ha
    rw [List.mem_singleton.mp hb]
    exact numbered.2 m hm
  · intro m member
    simp only [insert_msgs, List.mem_append, List.mem_singleton] at member
    rw [insert_pushed]
    rcases member with old | rfl
    · exact Nat.lt_succ_of_lt (numbered.2 m old)
    · exact Nat.lt_succ_self _

theorem compactLoop_objects (tmp : Stream) (fs : FileSystem) (pos : Option Nat)
    (msgs : List MessagePtr) :
    (compactLoop codec tmp fs pos msgs).1.map (fun m => (m.addr, m.payload)) =
      msgs.map fun m => (m.addr, m.payload) := by
  induction msgs generalizing tmp fs pos with
  | nil => rfl
  | cons m ms ih =>
    simp only [compactLoop, List.map_cons]
    rw [ih]
    rfl

@[simp] theorem compact_filePath (q : QueueMessage) :
    (q.compact codec fs).1.filePath = q.filePath := by
  simp only [compact]
  split
  · split <;> rfl
  · rfl

theorem compact_objects (q : QueueMessage) :
    (q.compact codec fs).1.msgs.map (fun m => (m.addr, m.payload)) =
        q.msgs.map (fun m => (m.addr, m.payload)) ∧
      (q.compact codec fs).1.pushed = q.pushed := by
  simp only [compact]
  split
  · split
    · exact ⟨compactLoop_objects codec _ _ _ _, rfl⟩
    · exact ⟨rfl, rfl⟩
  · exact ⟨rfl, rfl⟩

theorem Numbered.of_objects {q' : QueueMessage} (numbered : q.Numbered)
    (objects : q'.msgs.map (fun m => (m.addr, m.payload)) =
      q.msgs.map fun m => (m.addr, m.payload)) (pushed : q'.pushed = q.pushed) : q'.Numbered := by
  have addrs : q'.msgs.map MessagePtr.addr = q.msgs.map MessagePtr.addr := by
    have firsts := congrArg (List.map Prod.fst) objects
    rwa [List.map_map, List.map_map] at firsts
  constructor
  · rw [addrs]
    exact numbered.1
  · intro m member
    have inAddrs := List.mem_map_of_mem (f := MessagePtr.addr) member
    rw [addrs] at inAddrs
    obtain ⟨original, queued, same⟩ := List.mem_map.mp inAddrs
    rw [← same, pushed]
    exact numbered.2 original queued

theorem Numbered.remove (numbered : q.Numbered) (id : Bytes) :
    (q.remove codec fs id).1.Numbered := by
  have sub := remove_msgs_sublist codec q fs id
  constructor
  · exact numbered.1.sublist (sub.map MessagePtr.addr)
  · intro m member
    rw [remove_pushed]
    exact numbered.2 m (sub.subset member)

/-- What any operation makes of a store: the objects in it are the old ones or got
numbers that had not been given out. -/
structure Extends (q q' : QueueMessage) : Prop where
  filePath : q'.filePath = q.filePath
  numbered : q.Numbered → q'.Numbered
  pushed : q.pushed ≤ q'.pushed
  issued : ∀ x ∈ q'.msgs, x.addr ∈ q.msgs.map MessagePtr.addr ∨ q.pushed ≤ x.addr

namespace Extends

theorem refl (q : QueueMessage) : Extends q q :=
  ⟨rfl, id, Nat.le_refl _, fun _ member => Or.inl (List.mem_map_of_mem member)⟩

theorem trans {q' q'' : QueueMessage} (first : Extends q q') (second : Extends q' q'') :
    Extends q q'' where
  filePath := second.filePath.trans first.filePath
  numbered ok := second.numbered (first.numbered ok)
  pushed := Nat.le_trans first.pushed second.pushed
  issued x member := by
    rcases second.issued x member with old | new
    · obtain ⟨y, queued, same⟩ := List.mem_map.mp old
      exact same ▸ first.issued y queued
    · exact Or.inr (Nat.le_trans first.pushed new)

theorem insert (q : QueueMessage) : Extends q (q.insert codec fs bp body durable).2.1 where
  filePath := rfl
  numbered ok := ok.insert codec fs bp body durable
  pushed := Nat.le_succ _
  issued x member := by
    rw [insert_msgs, List.mem_append, List.mem_singleton] at member
    rcases member with old | rfl
    · exact Or.inl (List.mem_map_of_mem old)
    · exact Or.inr (Nat.le_refl _)

theorem remove (q : QueueMessage) (id : Bytes) : Extends q (q.remove codec fs id).1 where
  filePath := remove_filePath codec q fs id
  numbered ok := ok.remove codec fs id
  pushed := Nat.le_of_eq (remove_pushed codec q fs id).symm
  issued _ member :=
    Or.inl (List.mem_map_of_mem ((remove_msgs_sublist codec q fs id).subset member))

theorem of_objects {q' : QueueMessage} (filePath : q'.filePath = q.filePath)
    (objects : q'.msgs.map (fun m => (m.addr, m.payload)) =
      q.msgs.map fun m => (m.addr, m.payload)) (pushed : q'.pushed = q.pushed) : Extends q q' where
  filePath := filePath
  numbered ok := ok.of_objects objects pushed
  pushed := Nat.le_of_eq pushed.symm
  issued x member := by
    have inAddrs := List.mem_map_of_mem (f := fun m => (m.addr, m.payload)) member
    rw [objects] at inAddrs
    obtain ⟨y, queued, same⟩ := List.mem_map.mp inAddrs
    exact Or.inl (List.mem_map.mpr ⟨y, queued, congrArg Prod.fst same⟩)

end Extends

end Codec

end QueueMessage

end HzMq
