import HzMq.Delivery.Routing
import HzMq.Server.QueueMessage.Deque

/-!
# What an acknowledgement removes

`remove` has two regimes: an id that is set removes the first message that bears
it, the empty id removes the head of the queue, whatever its id. Both ways of
acknowledging reach it with the id that the client sent.
-/

namespace HzMq.Delivery

open VirtualHost QueueMessage

/-- The first message that bears the id is gone and the others are in order; or there is no
such message, and queue and files are as before. -/
def RemovesNamed (h h' : VirtualHost) (queueName id : Bytes) : Prop :=
  (∃ before m after, h.contents queueName = before ++ m :: after ∧ m.id = id ∧
      (∀ x ∈ before, x.id ≠ id) ∧ h'.contents queueName = before ++ after) ∨
    ((∀ m ∈ h.contents queueName, m.id ≠ id) ∧
      h'.contents queueName = h.contents queueName ∧ h'.fs = h.fs)

structure Acknowledges (op : VirtualHost → VirtualHost) (h : VirtualHost) (queueName id : Bytes) :
    Prop where
  others : ∀ other, other ≠ queueName → (op h).contents other = h.contents other
  named : id ≠ [] → RemovesNamed h (op h) queueName id
  head : id = [] → (op h).contents queueName = (h.contents queueName).tail
  once : id ≠ [] → (h.contents queueName).countP (fun m => m.id == id) ≤ 1 →
    (op (op h)).contents = (op h).contents ∧ (op (op h)).fs = (op h).fs

section Ack

variable (codec : Codec) {h : VirtualHost} {queueName id : Bytes}

theorem basicAck_fs_of_none (absent : target (h.contents queueName) id = none) :
    (h.basicAck codec queueName id).fs = h.fs := by
  unfold basicAck
  cases stored : h.queueMessages.lookup queueName with
  | none => rfl
  | some store =>
    rw [contents_of_lookup stored] at absent
    simp only [remove_of_none codec store h.fs absent]
    rfl

theorem basicAck_others (h : VirtualHost) (id : Bytes) {other : Bytes} (ne : other ≠ queueName) :
    (h.basicAck codec queueName id).contents other = h.contents other := by
  cases found : target (h.contents queueName) id with
  | none => rw [basicAck_of_none codec found]
  | some taken => rw [basicAck_of_target codec found, Function.update_of_ne ne]

theorem basicAck_named (h : VirtualHost) (queueName : Bytes) (set : id ≠ []) :
    RemovesNamed h (h.basicAck codec queueName id) queueName id := by
  cases found : target (h.contents queueName) id with
  | none =>
    refine Or.inr ⟨?_, by rw [basicAck_of_none codec found], basicAck_fs_of_none codec found⟩
    rcases target_eq_none_iff.mp found with empty | ⟨-, others⟩
    · simp [empty]
    · exact others
  | some taken =>
    obtain ⟨m, rest⟩ := taken
    obtain ⟨before, after, split, rfl, -, searched⟩ := target_split found
    obtain ⟨bears, first⟩ := searched set
    refine Or.inl ⟨before, m, after, split, bears, first, ?_⟩
    rw [basicAck_of_target codec found, Function.update_self]

theorem basicAck_head (h : VirtualHost) (queueName : Bytes) :
    (h.basicAck codec queueName []).contents queueName = (h.contents queueName).tail := by
  cases held : h.contents queueName with
  | nil => rw [basicAck_of_none codec (by rw [held]; rfl), held, List.tail_nil]
  | cons m rest =>
    have found : target (h.contents queueName) [] = some (m, rest) := by simp [held, target]
    rw [basicAck_of_target codec found, Function.update_self, List.tail_cons]

theorem basicAck_gone (h : VirtualHost) (queueName : Bytes) (set : id ≠ [])
    (unique : (h.contents queueName).countP (fun m => m.id == id) ≤ 1) :
    ∀ m ∈ (h.basicAck codec queueName id).contents queueName, m.id ≠ id := by
  rcases basicAck_named codec h queueName set with
    ⟨before, m, after, split, bears, first, removed⟩ | ⟨absent, same, -⟩
  · rw [split, List.countP_append, List.countP_cons_of_pos (by simpa using bears)] at unique
    have none' : after.countP (fun m => m.id == id) = 0 := by omega
    rw [removed]
    intro x member
    rcases List.mem_append.mp member with early | late
    · exact first x early
    · simpa using List.countP_eq_zero.mp none' x late
  · rw [same]
    exact absent

theorem basicAck_twice (h : VirtualHost) (queueName : Bytes) (set : id ≠ [])
    (unique : (h.contents queueName).countP (fun m => m.id == id) ≤ 1) :
    ((h.basicAck codec queueName id).basicAck codec queueName id).contents =
        (h.basicAck codec queueName id).contents ∧
      ((h.basicAck codec queueName id).basicAck codec queueName id).fs =
        (h.basicAck codec queueName id).fs := by
  have gone : target ((h.basicAck codec queueName id).contents queueName) id = none :=
    target_eq_none_iff.mpr (Or.inr ⟨set, basicAck_gone codec h queueName set unique⟩)
  exact ⟨basicAck_of_none codec gone, basicAck_fs_of_none codec gone⟩

theorem basicAck_acknowledges (h : VirtualHost) (queueName id : Bytes) :
    Acknowledges (fun h => h.basicAck codec queueName id) h queueName id where
  others _ ne := basicAck_others codec h id ne
  named set := basicAck_named codec h queueName set
  head empty := empty ▸ basicAck_head codec h queueName
  once set unique := basicAck_twice codec h queueName set unique

variable (matchHeaders : StrMap Bytes → StrMap Bytes → Bool)

theorem basicNack_eq_basicAck {info : MsgQueue}
    (known : h.queueMgr.selectQueue queueName = some info)
    (plain : info.hasDeadLetterConfig = false) (visit : Visit Binding) (id reason : Bytes) :
    h.basicNack codec matchHeaders visit queueName id false reason =
      h.basicAck codec queueName id := by
  unfold basicNack
  cases stored : h.queueMessages.lookup queueName with
  | none => simp [basicAck, stored]
  | some store => simp [known, plain]

end Ack

/-- Both ways of acknowledging a message remove the first bearer of the id and nothing else; an
empty id removes the head. -/
theorem acknowledgement_removes_named (codec : Codec)
    (matchHeaders : StrMap Bytes → StrMap Bytes → Bool) (h : VirtualHost) (queueName id : Bytes) :
    Acknowledges (fun h => h.basicAck codec queueName id) h queueName id ∧
      ∀ visit reason info, h.queueMgr.selectQueue queueName = some info →
        info.hasDeadLetterConfig = false →
        Acknowledges (fun h => h.basicNack codec matchHeaders visit queueName id false reason) h
          queueName id := by
  refine ⟨basicAck_acknowledges codec h queueName id, ?_⟩
  intro visit reason info known plain
  have acked := basicAck_acknowledges codec h queueName id
  have frame : Frame h (h.basicAck codec queueName id) := Frame.basicAck h queueName id
  have first := basicNack_eq_basicAck codec matchHeaders known plain visit id reason
  have second := basicNack_eq_basicAck codec matchHeaders (h := h.basicAck codec queueName id)
    (by rw [frame.queueMgr]; exact known) plain visit id reason
  refine ⟨?_, ?_, ?_, ?_⟩
  · simpa only [first] using acked.others
  · simpa only [first] using acked.named
  · simpa only [first] using acked.head
  · simpa only [first, second] using acked.once

def oneMessageHost : VirtualHost :=
  Machine.exec (HostOp.apply Wire.codec fun _ _ => false) directHost
    [.basicPublish (str "queue1") (some { id := str "msg3" }) (str "test")]

/-- The empty id is none of a stored message, and takes one out all the same. -/
theorem empty_id_removes_head :
    (oneMessageHost.Reachable Wire.codec fun _ _ => false) ∧
      (∀ m ∈ oneMessageHost.contents (str "queue1"), m.id ≠ []) ∧
      ¬RemovesNamed oneMessageHost (oneMessageHost.basicAck Wire.codec (str "queue1") [])
        (str "queue1") [] := by
  have ids : ∀ m ∈ oneMessageHost.contents (str "queue1"), m.id ≠ [] := by decide
  have held : oneMessageHost.contents (str "queue1") ≠ [] := by decide
  refine ⟨Machine.Reachable.exec directHost_reachable _, ids, ?_⟩
  rintro (⟨before, m, after, split, bears, -⟩ | ⟨-, same, -⟩)
  · exact ids m (by simp [split]) bears
  · rw [basicAck_head] at same
    obtain ⟨m, rest, split⟩ := List.exists_cons_of_ne_nil held
    rw [split, List.tail_cons] at same
    simpa using congrArg List.length same

end HzMq.Delivery
