import HzMq.Protocol.Session

/-!
# Channels of a connection

What each function of the broker does to the channels that are open on a
connection, and the ids under which it answers.
-/

namespace HzMq.Protocol

section Channels

variable (s : BrokerServer)

theorem openOn_isSome (conn : Nat) : (openOn s conn).isSome = s.connected conn := Option.isSome_map

theorem openOn_of_connections {s s' : BrokerServer} (same : s'.connections = s.connections) :
    openOn s' = openOn s := by
  funext conn
  rw [openOn, openOn, same]

theorem openOn_putChannel (conn : Nat) (cid : Bytes) (ch : Channel) (other : Nat) :
    openOn (s.putChannel conn cid ch) other =
      if other = conn then
        some (Function.update ((openOn s conn).getD fun _ => false) cid true)
      else openOn s other := by
  by_cases same : other = conn
  · subst same
    rw [if_pos rfl, openOn, BrokerServer.putChannel, AList.lookup_insert, Option.map_some]
    refine congrArg some ?_
    funext c
    by_cases here : c = cid
    · subst here
      simp
    · rw [AList.lookup_insert_ne here, Function.update_of_ne here, openOn]
      cases s.connections.lookup other <;> rfl
  · rw [if_neg same, openOn, BrokerServer.putChannel, AList.lookup_insert_ne same, openOn]

theorem openOn_selected {conn : Nat} {cid : Bytes} {ch : Channel}
    (selected : s.selectChannel conn cid = some ch) :
    ∃ isOpen, openOn s conn = some isOpen ∧ isOpen cid = true := by
  obtain ⟨channels, known, found⟩ := Option.bind_eq_some_iff.mp selected
  exact ⟨_, congrArg (Option.map _) known, Option.isSome_of_eq_some found⟩

theorem openOn_unselected {conn : Nat} {cid : Bytes} {isOpen : Bytes → Bool}
    (known : openOn s conn = some isOpen) (closed : s.selectChannel conn cid = none) :
    isOpen cid = false := by
  obtain ⟨channels, found, rfl⟩ := Option.map_eq_some_iff.mp known
  rw [BrokerServer.selectChannel, found, Option.bind_some] at closed
  exact congrArg Option.isSome closed

theorem openOn_reput {conn : Nat} {cid : Bytes} {isOpen : Bytes → Bool}
    (known : openOn s conn = some isOpen) (open' : isOpen cid = true) (ch : Channel) :
    openOn (s.putChannel conn cid ch) = openOn s := by
  funext other
  rw [openOn_putChannel, known, Option.getD_some, ← open', Function.update_eq_self]
  split
  · next same => rw [same, known]
  · rfl

theorem openOn_request (codec : Codec) (matchHeaders : StrMap Bytes → StrMap Bytes → Bool)
    (conn : Nat) (rid cid : Bytes) (call : Call) :
    openOn (s.request codec matchHeaders conn rid cid call).2 = openOn s := by
  unfold BrokerServer.request
  cases selected : s.selectChannel conn cid with
  | none => rfl
  | some ch =>
    have kept : openOn (s.handle codec matchHeaders ch rid cid call).2.2 = openOn s :=
      openOn_of_connections (s.connections_handle codec matchHeaders ch rid cid call)
    obtain ⟨isOpen, known, open'⟩ := openOn_selected s selected
    rw [← kept] at known
    exact (openOn_reput _ known open' _).trans kept

theorem openOn_openChannel (conn : Nat) (rid cid : Bytes) (other : Nat) :
    openOn (s.openChannel conn rid cid).2 other =
      if other = conn then (openOn s conn).map fun isOpen => Function.update isOpen cid true
      else openOn s other := by
  unfold BrokerServer.openChannel
  cases known : s.connections.lookup conn with
  | none =>
    have nobody : openOn s conn = none := by rw [openOn, known]; rfl
    by_cases same : other = conn
    · rw [if_pos same, same, nobody]
      rfl
    · rw [if_neg same]
  | some channels =>
    have isOpen : openOn s conn = some fun c => (channels.lookup c).isSome := by
      rw [openOn, known]
      rfl
    simp only
    split
    · next found =>
      have already : (openOn s conn).map (fun isOpen => Function.update isOpen cid true) =
          openOn s conn := by
        rw [isOpen, Option.map_some, ← found]
        exact congrArg some (Function.update_eq_self cid _)
      rw [already]
      split
      · next same => rw [same]
      · rfl
    · have opened := openOn_putChannel s conn cid { ref := ⟨s.opened, cid⟩ } other
      rw [isOpen] at opened ⊢
      exact opened

/-- What closing a channel leaves: the channel may have been destroyed. -/
theorem closeChannel_connections (conn : Nat) (rid cid : Bytes)
    {channels : StrMap Channel} (known : s.connections.lookup conn = some channels) :
    (s.closeChannel conn rid cid).2.connections =
      s.connections.insert conn (channels.erase cid) := by
  unfold BrokerServer.closeChannel
  simp only [known]
  cases channels.lookup cid with
  | none => rfl
  | some ch =>
    exact congrArg (fun cs => cs.insert conn (channels.erase cid)) (s.connections_destroyChannel ch)

theorem openOn_closeChannel (conn : Nat) (rid cid : Bytes) (other : Nat) :
    openOn (s.closeChannel conn rid cid).2 other =
      if other = conn then (openOn s conn).map fun isOpen => Function.update isOpen cid false
      else openOn s other := by
  cases known : s.connections.lookup conn with
  | none =>
    have nobody : openOn s conn = none := by rw [openOn, known]; rfl
    rw [BrokerServer.closeChannel, known]
    by_cases same : other = conn
    · rw [if_pos same, same, nobody]
      rfl
    · rw [if_neg same]
  | some channels =>
    rw [openOn, closeChannel_connections s conn rid cid known]
    by_cases same : other = conn
    · subst same
      rw [if_pos rfl, openOn, known, AList.lookup_insert]
      refine congrArg some ?_
      funext c
      by_cases here : c = cid
      · subst here
        simp
      · simp [AList.lookup_erase_ne here, Function.update_of_ne here]
    · rw [if_neg same, openOn, AList.lookup_insert_ne same]

theorem openOn_newConnection (conn other : Nat) :
    openOn (s.newConnection conn) other =
      if other = conn then some ((openOn s conn).getD fun _ => false) else openOn s other := by
  unfold BrokerServer.newConnection
  cases known : s.connections.lookup conn with
  | some channels =>
    have isOpen : openOn s conn = some fun c => (channels.lookup c).isSome := by
      rw [openOn, known]
      rfl
    rw [Option.isSome_some, if_pos rfl]
    split
    · next same => rw [same, isOpen]; rfl
    · rfl
  | none =>
    rw [Option.isSome_none, if_neg Bool.false_ne_true]
    by_cases same : other = conn
    · subst same
      rw [if_pos rfl, openOn, openOn, AList.lookup_insert, known]
      rfl
    · rw [if_neg same, openOn, openOn, AList.lookup_insert_ne same]

theorem openOn_deleteConnection (conn other : Nat) :
    openOn (s.deleteConnection conn) other = if other = conn then none else openOn s other := by
  unfold BrokerServer.deleteConnection
  by_cases same : other = conn
  · subst same
    rw [if_pos rfl, openOn, AList.lookup_erase]
    rfl
  · rw [if_neg same, openOn, openOn, AList.lookup_erase_ne same]

end Channels

section Replies

variable (s : BrokerServer)

theorem openChannel_reply (conn : Nat) (rid cid : Bytes) :
    (s.openChannel conn rid cid).1 =
      (openOn s conn).map fun isOpen => .common rid cid (!isOpen cid) := by
  unfold BrokerServer.openChannel openOn
  cases s.connections.lookup conn with
  | none => rfl
  | some channels =>
    simp only [Option.map_some]
    split
    · next found => rw [found]; rfl
    · next absent => rw [Bool.not_eq_true _ |>.mp absent]; rfl

theorem closeChannel_reply (conn : Nat) (rid cid : Bytes) :
    (s.closeChannel conn rid cid).1 = (openOn s conn).map fun _ => .common rid cid true := by
  unfold BrokerServer.closeChannel openOn
  cases s.connections.lookup conn <;> rfl

variable (codec : Codec) (matchHeaders : StrMap Bytes → StrMap Bytes → Bool)

theorem handle_outline {ch : Channel} {cid : Bytes} (own : ch.ref.cid = cid) (rid : Bytes)
    (call : Call) (conn : Nat) :
    outline (.message conn (.call rid cid call))
        (.response (s.handle codec matchHeaders ch rid cid call).1) = .answer rid cid := by
  cases call with
  | declareQueue queueName durable exclusive autoDelete args =>
    simp only [BrokerServer.handle]
    split <;> rfl
  | declareQueueWithDlq queueName durable exclusive autoDelete args config =>
    simp only [BrokerServer.handle]
    split <;> rfl
  | basicQuery visit => exact congrArg (Outline.answer rid) own
  | _ => rfl

theorem handle_ref (ch : Channel) (rid cid : Bytes) (call : Call) :
    (s.handle codec matchHeaders ch rid cid call).2.1.ref = ch.ref := by
  cases call with
  | declareQueue queueName durable exclusive autoDelete args =>
    simp only [BrokerServer.handle]
    split <;> rfl
  | declareQueueWithDlq queueName durable exclusive autoDelete args config =>
    simp only [BrokerServer.handle]
    split <;> rfl
  | basicConsume tag queueName autoAck =>
    simp only [BrokerServer.handle, BrokerServer.basicConsume]
    split <;> rfl
  | _ => rfl

theorem request_reply (own : OwnIds s) {conn : Nat} {isOpen : Bytes → Bool}
    (known : openOn s conn = some isOpen) (rid cid : Bytes) (call : Call) :
    ((s.request codec matchHeaders conn rid cid call).1.map fun r =>
        outline (.message conn (.call rid cid call)) (.response r)).toList =
      if isOpen cid then [.answer rid cid] else [] := by
  unfold BrokerServer.request
  cases selected : s.selectChannel conn cid with
  | none =>
    rw [openOn_unselected s known selected, if_neg Bool.false_ne_true]
    rfl
  | some ch =>
    obtain ⟨isOpen', known', open'⟩ := openOn_selected s selected
    obtain rfl := Option.some.inj (known.symm.trans known')
    rw [if_pos open']
    exact congrArg (fun o => [o])
      (handle_outline s codec matchHeaders (own conn cid ch selected) rid call conn)

end Replies

section Refs

def refAt (s : BrokerServer) (conn : Nat) (cid : Bytes) : Option ChannelRef :=
  (s.selectChannel conn cid).map Channel.ref

variable {s : BrokerServer}

theorem ownIds_iff :
    OwnIds s ↔ ∀ conn cid ref, refAt s conn cid = some ref → ref.cid = cid := by
  constructor
  · intro own conn cid ref known
    obtain ⟨ch, selected, rfl⟩ := Option.map_eq_some_iff.mp known
    exact own conn cid ch selected
  · intro own conn cid ch selected
    exact own conn cid ch.ref (by rw [refAt, selected, Option.map_some])

theorem refAt_of_connections {s' : BrokerServer} (same : s'.connections = s.connections) :
    refAt s' = refAt s := by
  funext conn cid
  rw [refAt, refAt, BrokerServer.selectChannel, BrokerServer.selectChannel, same]

theorem refAt_insert (s : BrokerServer) (conn : Nat) (channels : StrMap Channel) (other : Nat)
    (c : Bytes) :
    refAt { s with connections := s.connections.insert conn channels } other c =
      if other = conn then (channels.lookup c).map Channel.ref else refAt s other c := by
  by_cases same : other = conn
  · subst same
    simp [refAt, BrokerServer.selectChannel]
  · simp [refAt, BrokerServer.selectChannel, same, AList.lookup_insert_ne]

theorem refAt_eq (s : BrokerServer) (conn : Nat) (cid : Bytes) :
    refAt s conn cid = (((s.connections.lookup conn).getD ∅).lookup cid).map Channel.ref := by
  rw [refAt, BrokerServer.selectChannel]
  cases s.connections.lookup conn <;> rfl

theorem refAt_putChannel (s : BrokerServer) (conn : Nat) (cid : Bytes) (ch : Channel)
    (other : Nat) (c : Bytes) :
    refAt (s.putChannel conn cid ch) other c =
      if other = conn ∧ c = cid then some ch.ref else refAt s other c := by
  rw [BrokerServer.putChannel, refAt_insert, refAt_eq s other c]
  by_cases same : other = conn
  · subst same
    by_cases here : c = cid
    · subst here
      simp
    · simp [here, AList.lookup_insert_ne]
  · simp [same]

theorem destroyChannels_kept (channels : List (Bytes × Channel)) (s : BrokerServer) :
    (channels.foldl (fun s e => s.destroyChannel e.2) s).connections = s.connections ∧
      (channels.foldl (fun s e => s.destroyChannel e.2) s).opened = s.opened := by
  induction channels generalizing s with
  | nil => exact ⟨rfl, rfl⟩
  | cons e channels ih =>
    have one : (s.destroyChannel e.2).opened = s.opened := by
      unfold BrokerServer.destroyChannel
      split <;> rfl
    obtain ⟨connections, opened⟩ := ih (s.destroyChannel e.2)
    exact ⟨connections.trans (s.connections_destroyChannel e.2), opened.trans one⟩

variable (codec : Codec) (matchHeaders : StrMap Bytes → StrMap Bytes → Bool)

theorem refAt_request (conn : Nat) (rid cid : Bytes) (call : Call) :
    refAt (s.request codec matchHeaders conn rid cid call).2 = refAt s := by
  unfold BrokerServer.request
  cases selected : s.selectChannel conn cid with
  | none => rfl
  | some ch =>
    funext other c
    have kept : refAt (s.handle codec matchHeaders ch rid cid call).2.2 = refAt s :=
      refAt_of_connections (s.connections_handle codec matchHeaders ch rid cid call)
    simp only [refAt_putChannel, handle_ref, kept]
    split
    · next same =>
      obtain ⟨rfl, rfl⟩ := same
      rw [refAt, selected, Option.map_some]
    · rfl

theorem handle_opened (ch : Channel) (rid cid : Bytes) (call : Call) :
    (s.handle codec matchHeaders ch rid cid call).2.2.opened = s.opened := by
  cases call with
  | declareQueue queueName durable exclusive autoDelete args =>
    simp only [BrokerServer.handle]
    split <;> rfl
  | declareQueueWithDlq queueName durable exclusive autoDelete args config =>
    simp only [BrokerServer.handle]
    split <;> rfl
  | basicPublish visit tasks exchangeName properties body =>
    simp only [BrokerServer.handle, BrokerServer.basicPublish]
    cases s.host.selectExchange exchangeName <;> rfl
  | basicConsume tag queueName autoAck =>
    simp only [BrokerServer.handle, BrokerServer.basicConsume]
    split <;> rfl
  | _ => rfl

theorem execute_opened (s : BrokerServer) (index : Nat) :
    (s.execute codec index).2.opened = s.opened := by
  unfold BrokerServer.execute
  split
  · rfl
  · unfold BrokerServer.consume
    split
    · rfl
    · split <;> rfl

theorem refAt_apply (s : BrokerServer) (op : ServerOp) :
    (op.apply codec matchHeaders s).opened = s.opened ∧
        (∀ conn cid ref, refAt (op.apply codec matchHeaders s) conn cid = some ref →
          refAt s conn cid = some ref) ∨
      ∃ conn rid cid, op = .openChannel conn rid cid ∧
        (op.apply codec matchHeaders s).opened = s.opened + 1 ∧
        ∀ other c, refAt (op.apply codec matchHeaders s) other c =
          if other = conn ∧ c = cid then some ⟨s.opened, cid⟩ else refAt s other c := by
  cases op with
  | newConnection conn =>
    left
    simp only [ServerOp.apply, BrokerServer.newConnection]
    split
    · exact ⟨rfl, fun _ _ _ known => known⟩
    · refine ⟨rfl, ?_⟩
      intro other c ref known
      rw [refAt_insert] at known
      split at known
      · cases known
      · exact known
  | deleteConnection conn =>
    left
    obtain ⟨connections, opened⟩ :=
      destroyChannels_kept ((s.connections.lookup conn).getD ∅).pairs s
    refine ⟨opened, ?_⟩
    intro other c ref known
    rw [refAt_eq] at known ⊢
    by_cases same : other = conn
    · subst same
      simp [ServerOp.apply, BrokerServer.deleteConnection] at known
    · simpa [ServerOp.apply, BrokerServer.deleteConnection, AList.lookup_erase_ne same] using known
  | openChannel conn rid cid =>
    simp only [ServerOp.apply, BrokerServer.openChannel]
    split
    · exact Or.inl ⟨rfl, fun _ _ _ known => known⟩
    · split
      · exact Or.inl ⟨rfl, fun _ _ _ known => known⟩
      · exact Or.inr ⟨conn, rid, cid, rfl, rfl,
          refAt_putChannel s conn cid { ref := ⟨s.opened, cid⟩ }⟩
  | closeChannel conn rid cid =>
    left
    simp only [ServerOp.apply, BrokerServer.closeChannel]
    split
    · exact ⟨rfl, fun _ _ _ known => known⟩
    next channels found =>
      have kept (s' : BrokerServer) (same : refAt s' = refAt s) (other : Nat) (c : Bytes)
          (ref : ChannelRef) (known : refAt { s' with
            connections := s'.connections.insert conn (channels.erase cid) } other c = some ref) :
          refAt s other c = some ref := by
        rw [refAt_insert, same] at known
        split at known
        · next here =>
          subst here
          rw [refAt_eq, found, Option.getD_some]
          by_cases closed : c = cid
          · subst closed
            simp at known
          · rwa [AList.lookup_erase_ne closed] at known
        · exact known
      split
      · exact ⟨rfl, kept s rfl⟩
      · next ch _ =>
        refine ⟨?_, kept _ (refAt_of_connections (s.connections_destroyChannel ch))⟩
        exact (destroyChannels_kept [(cid, ch)] s).2
  | request conn rid cid call =>
    left
    refine ⟨?_, fun _ _ _ known => by rwa [← refAt_request codec matchHeaders conn rid cid call]⟩
    simp only [ServerOp.apply, BrokerServer.request]
    split
    · rfl
    · exact handle_opened codec matchHeaders _ rid cid call
  | execute index =>
    refine Or.inl ⟨execute_opened codec s index, fun _ _ _ known => ?_⟩
    rwa [← refAt_of_connections (connections_execute codec s index)]
  | queueRuntimeStats queueName => exact Or.inl ⟨rfl, fun _ _ _ known => known⟩
  | compactQueue queueName => exact Or.inl ⟨rfl, fun _ _ _ known => known⟩

theorem OwnIds.apply (own : OwnIds s) (op : ServerOp) :
    OwnIds (op.apply codec matchHeaders s) := by
  rw [ownIds_iff] at own ⊢
  intro conn cid ref known
  rcases refAt_apply codec matchHeaders s op with ⟨-, kept⟩ | ⟨conn', rid', cid', -, -, added⟩
  · exact own conn cid ref (kept conn cid ref known)
  · rw [added] at known
    split at known
    · next here =>
      obtain ⟨-, rfl⟩ := here
      rw [← Option.some.inj known]
    · exact own conn cid ref known

end Refs

end HzMq.Protocol
