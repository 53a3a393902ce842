import HzMq.Server.VirtualHost.Frame

/-!
# The binding tables

A binding is stored under an existing exchange and carries the two names it is
stored under.
-/

namespace HzMq

open FileStream

namespace VirtualHost

section Named

structure Named (h : VirtualHost) : Prop where
  exchange : ∀ exchangeName, (h.exchangeBindings.lookup exchangeName).isSome →
    (h.selectExchange exchangeName).isSome
  names : ∀ exchangeName queueName binding, h.bindingAt exchangeName queueName = some binding →
    binding.exchangeName = exchangeName ∧ binding.queueName = queueName

namespace Named

variable {h h' : VirtualHost} {codec : Codec} {matchHeaders : StrMap Bytes → StrMap Bytes → Bool}

theorem of_tables (named : Named h) (bindings : h'.exchangeBindings = h.exchangeBindings)
    (exchanges : ∀ name, (h.selectExchange name).isSome → (h'.selectExchange name).isSome) :
    Named h' where
  exchange exchangeName stored := exchanges _ (named.exchange exchangeName (bindings ▸ stored))
  names exchangeName queueName binding stored := by
    simp only [bindingAt, bindingsOf, bindings] at stored
    exact named.names exchangeName queueName binding stored

theorem of_frame (named : Named h) (frame : Frame h h') : Named h' :=
  named.of_tables frame.exchangeBindings fun _ known => by rwa [frame.selectExchange]

theorem bind (named : Named h) (exchangeName queueName bindingKey : Bytes)
    (bindingArgs : StrMap Bytes) :
    Named (h.bind exchangeName queueName bindingKey bindingArgs).2 where
  exchange other stored := by
    unfold VirtualHost.bind at stored ⊢
    split at stored
    · next refused =>
      rw [if_pos refused]
      exact named.exchange other stored
    · next allowed =>
      rw [if_neg allowed]
      by_cases same : other = exchangeName
      · subst same
        simp only [Bool.or_eq_true, not_or, Bool.not_eq_true, Option.isNone_eq_false_iff] at allowed
        exact allowed.1
      · rw [AList.lookup_insert_ne same] at stored
        exact named.exchange other stored
  names other queue binding stored := by
    rw [bindingAt_bind] at stored
    split at stored
    · next here =>
      cases stored
      exact ⟨here.2.2.1.symm, here.2.2.2.symm⟩
    · exact named.names other queue binding stored

theorem unbind (named : Named h) (exchangeName queueName : Bytes) :
    Named (h.unbind exchangeName queueName) where
  exchange other stored := by
    unfold VirtualHost.unbind at stored ⊢
    cases found : h.exchangeBindings.lookup exchangeName with
    | none =>
      simp only [found] at stored ⊢
      exact named.exchange other stored
    | some bindingMap =>
      simp only [found] at stored ⊢
      by_cases same : other = exchangeName
      · subst same
        exact named.exchange other (Option.isSome_of_eq_some found)
      · rw [AList.lookup_insert_ne same] at stored
        exact named.exchange other stored
  names other queue binding stored := by
    rw [bindingAt_unbind] at stored
    split at stored
    · cases stored
    · exact named.names other queue binding stored

theorem deleteQueue (named : Named h) (queueName : Bytes) : Named (h.deleteQueue queueName) where
  exchange other stored := by
    simp only [VirtualHost.deleteQueue, StrMap.lookup_mapValues, Option.isSome_map] at stored
    exact named.exchange other stored
  names other queue binding stored := by
    rw [bindingAt_deleteQueue] at stored
    split at stored
    · cases stored
    · exact named.names other queue binding stored

theorem deleteExchange (named : Named h) (exchangeName : Bytes) :
    Named (h.deleteExchange exchangeName) where
  exchange other stored := by
    by_cases same : other = exchangeName
    · subst same
      simp [VirtualHost.deleteExchange] at stored
    · simp only [VirtualHost.deleteExchange, selectExchange, AList.lookup_erase_ne same]
        at stored ⊢
      exact named.exchange other stored
  names other queue binding stored := by
    rw [bindingAt_deleteExchange] at stored
    split at stored
    · cases stored
    · exact named.names other queue binding stored

theorem apply (named : Named h) (op : HostOp) : Named (op.apply codec matchHeaders h) := by
  cases op with
  | declareExchange name type durable autoDelete args =>
    obtain ⟨bindings, -, exchanges⟩ := h.declareExchange_tables name type durable autoDelete args
    refine named.of_tables bindings ?_
    intro other known
    rw [HostOp.apply, exchanges, known, Bool.or_true]
  | deleteExchange name => exact named.deleteExchange name
  | declareQueue name durable exclusive autoDelete args =>
    rw [HostOp.apply, declareQueue_eq]
    obtain ⟨bindings, exchanges, -⟩ := addStore_tables h codec
      (h.queueMgr.declareQueue name durable exclusive autoDelete args).2 name durable
    refine bind (of_tables named bindings fun other known => ?_) [] name name ∅
    rwa [selectExchange, exchanges]
  | declareQueueWithDlq name durable exclusive autoDelete args config =>
    rw [HostOp.apply, declareQueueWithDlq_eq]
    obtain ⟨bindings, exchanges, -⟩ := addStore_tables h codec
      (h.queueMgr.declareQueueWithDlq name durable exclusive autoDelete args config).2 name durable
    refine of_tables named bindings ?_
    intro other known
    rwa [selectExchange, exchanges]
  | deleteQueue name => exact named.deleteQueue name
  | bind exchange queue key args => exact named.bind exchange queue key args
  | unbind exchange queue => exact named.unbind exchange queue
  | _ => exact named.of_frame (Frame.apply h rfl)

theorem new (name baseDir : Bytes) (exchanges : StrMap Exchange) (seq : Nat) (fs : FileSystem) :
    Named (VirtualHost.new name baseDir exchanges seq fs) where
  exchange other stored := by
    simp [VirtualHost.new] at stored
  names other queue binding stored := by
    simp [VirtualHost.new, bindingAt, bindingsOf] at stored

end Named

theorem Reachable.named {codec : Codec} {matchHeaders : StrMap Bytes → StrMap Bytes → Bool}
    {h : VirtualHost} (reached : h.Reachable codec matchHeaders) : Named h := by
  refine Machine.Reachable.invariant ?_ (fun h op named => named.apply op) reached
  rintro h ⟨name, baseDir, exchanges, seq, fs, rfl⟩
  exact Named.new name baseDir exchanges seq fs

end Named

end VirtualHost

end HzMq
