import HzMq.Delivery.ManualAck
import HzMq.Server.VirtualHost.Bindings

/-!
# Deleting a queue and declaring it again

A deletion forgets the store, the metadata and the bindings of a queue, and
leaves its file where it is. A later durable declaration of the same name, in
this process or in one started on the same directory, reads that file.
-/

namespace HzMq.Topology

open FileStream VirtualHost QueueMessage Persistence Delivery

section Afresh

variable (codec : Codec)

theorem contents_declareQueue {h : VirtualHost} {queueName : Bytes}
    (absent : h.queueMessages.lookup queueName = none) (exclusive autoDelete : Bool)
    (args : StrMap Bytes) :
    (h.declareQueue codec queueName true exclusive autoDelete args).2.contents queueName =
      (start codec h.fs h.baseDir queueName).1.msgs := by
  rw [contents_eq, (declareQueue_stores h codec absent true exclusive autoDelete args).1,
    AList.lookup_insert]
  rfl

theorem start_eq_nil_iff (h : VirtualHost) (queueName : Bytes) :
    (start codec h.fs h.baseDir queueName).1.msgs = [] ↔
      (h.fs.openable (fileKey h queueName) = true →
        loaded codec (h.fs.content (fileKey h queueName)) = []) := by
  rw [fileKey, start_msgs]
  split
  · next openable =>
    rw [← List.map_eq_nil_iff (f := MessagePtr.msg)]
    simp [openable]
  · next closed => simp [closed]

end Afresh

/-- Deleting a queue and declaring it durable gives an empty queue, in the same process as
well as after a restart, exactly when the file it leaves has no valid record to be read. -/
theorem deletion_empties_iff (codec : Codec) (h : VirtualHost)
    (queueName : Bytes) (exclusive autoDelete : Bool) (args : StrMap Bytes) :
    (((h.deleteQueue queueName).declareQueue codec queueName true exclusive autoDelete
        args).2.contents queueName = [] ↔
      (h.fs.openable (fileKey h queueName) = true →
        loaded codec (h.fs.content (fileKey h queueName)) = [])) ∧
    ∀ name exchanges seq,
      (((VirtualHost.new name h.baseDir exchanges seq (h.deleteQueue queueName).fs).declareQueue
          codec queueName true exclusive autoDelete args).2.contents queueName = [] ↔
        (h.fs.openable (fileKey h queueName) = true →
          loaded codec (h.fs.content (fileKey h queueName)) = [])) := by
  constructor
  · rw [contents_declareQueue codec (by simp [VirtualHost.deleteQueue])]
    exact start_eq_nil_iff codec h queueName
  · intro name exchanges seq
    rw [contents_declareQueue codec rfl]
    exact start_eq_nil_iff codec h queueName

/-- A durable queue to which one message was published; the request for its statistics has
cleared the stream, so that the message was written. -/
def filledHost : VirtualHost :=
  Machine.exec (HostOp.apply Wire.codec fun _ _ => false) .blank
    [.declareQueue (str "q") true false false ∅, .queueRuntimeStats (str "q"),
      .basicPublish (str "q") none (str "x")]

/-- Its message is back after a deletion and a declaration. -/
theorem deletion_keeps_message :
    filledHost.Reachable Wire.codec (fun _ _ => false) ∧
      filledHost.isDurable (str "q") = true ∧
      ((filledHost.deleteQueue (str "q")).declareQueue Wire.codec (str "q") true false false
        ∅).2.contents (str "q") ≠ [] ∧
      ((VirtualHost.new (str "TestHost") (str "d") ∅ 0
        (filledHost.deleteQueue (str "q")).fs).declareQueue Wire.codec (str "q") true false false
          ∅).2.contents (str "q") ≠ [] := by
  refine ⟨Machine.Reachable.exec (.start blank_initial) _, ?_, ?_, ?_⟩ <;> decide +kernel

end HzMq.Topology
