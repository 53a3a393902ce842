import HzMq.Common.Wire
import HzMq.Server.Connection

/-!
# Which connections time out

A time-out is meant to strike a client that has been silent for half a minute. What
the server measures is the time since the last heartbeat: no other request refreshes
the connection it came from.
-/

namespace HzMq.Liveness

/-- The time a connection was last heard from, when only some of its messages count. -/
def touched (counts : Request → Bool) (conn : Nat) (last : Option Int) (e : Timed) : Option Int :=
  match e.event with
  | .connect c => if c = conn ∧ last = none then some e.now else last
  | .message c request => if c = conn ∧ last.isSome ∧ counts request then some e.now else last
  | .disconnect c => if c = conn then none else last
  | .checkTimeout => last

def lastTouched (counts : Request → Bool) (conn : Nat) (events : List Timed) : Option Int :=
  Machine.exec (touched counts conn) none events

def anyRequest : Request → Bool := fun _ => true

def isHeartbeat : Request → Bool
  | .heartbeat _ => true
  | _ => false

/-- The connection is there, and the last message that counts came more than half a minute
ago; when there was none, its connect did. -/
def Silent (counts : Request → Bool) (conn : Nat) (now : Int) (events : List Timed) : Prop :=
  ∃ last, lastTouched counts conn events = some last ∧ connectionTimeout < now - last

section Step

variable (codec : Codec) (matchHeaders : StrMap Bytes → StrMap Bytes → Bool)

def step (s : TimedBroker) (e : Timed) : TimedBroker := (e.handle codec matchHeaders s).2

theorem lookup_getConnCtx (s : TimedBroker) (conn : Nat)
    (handler : BrokerServer → Option Reply × BrokerServer)
    (keeps : (handler s.broker).2.connected = s.broker.connected) :
    (s.getConnCtx conn handler keeps).2.lastActive = s.lastActive := by
  unfold TimedBroker.getConnCtx
  split <;> rfl

theorem lookup_newConnection (s : TimedBroker) (c conn : Nat) (now : Int) :
    (s.newConnection c now).lastActive.lookup conn =
      if c = conn ∧ s.lastActive.lookup conn = none then some now
      else s.lastActive.lookup conn := by
  have known := s.agree c
  unfold TimedBroker.newConnection
  split
  · next unknown =>
    rw [unknown, Option.isSome_eq_false_iff, Option.isNone_iff_eq_none] at known
    by_cases same : c = conn
    · subst same
      simp [known]
    · simp [same, AList.lookup_insert_ne (Ne.symm same)]
  · next unknown =>
    rw [Bool.not_eq_false] at unknown
    rw [unknown] at known
    rw [if_neg]
    rintro ⟨rfl, absent⟩
    simp [absent] at known

theorem lookup_refreshConnection (s : TimedBroker) (c conn : Nat) (now : Int) :
    (s.refreshConnection c now).lastActive.lookup conn =
      if c = conn ∧ (s.lastActive.lookup conn).isSome then some now
      else s.lastActive.lookup conn := by
  have known := s.agree c
  unfold TimedBroker.refreshConnection
  split
  · next present =>
    rw [present] at known
    by_cases same : c = conn
    · subst same
      simp [known]
    · simp [same, AList.lookup_insert_ne (Ne.symm same)]
  · next absent =>
    rw [if_neg]
    rintro ⟨rfl, present⟩
    exact absent (known ▸ present)

theorem lookup_step (conn : Nat) (s : TimedBroker) (e : Timed) :
    (step codec matchHeaders s e).lastActive.lookup conn =
      touched isHeartbeat conn (s.lastActive.lookup conn) e := by
  obtain ⟨now, event⟩ := e
  cases event with
  | connect c => exact lookup_newConnection s c conn now
  | disconnect c =>
    by_cases same : c = conn
    · subst same
      simp [step, Timed.handle, touched, TimedBroker.deleteConnection]
    · simp [step, Timed.handle, touched, TimedBroker.deleteConnection, same,
        AList.lookup_erase_ne (Ne.symm same)]
  | checkTimeout => rfl
  | message c request =>
    cases request with
    | heartbeat rid =>
      simp only [touched, isHeartbeat, and_true]
      exact lookup_refreshConnection s c conn now
    | queueStatus rid cid queueName =>
      simp only [touched, isHeartbeat, Bool.false_eq_true, and_false, if_false]
      exact congrArg (AList.lookup conn) (lookup_getConnCtx s c _ rfl)
    | _ =>
      simp only [touched, isHeartbeat, Bool.false_eq_true, and_false, if_false]
      exact congrArg (AList.lookup conn) (lookup_getConnCtx s c _ _)

theorem mem_checkTimeout (s : TimedBroker) (conn : Nat) (now timeout : Int) :
    conn ∈ s.checkTimeout now timeout ↔
      ∃ last, s.lastActive.lookup conn = some last ∧ timeout < now - last := by
  simp only [TimedBroker.checkTimeout, List.mem_map, List.mem_filter, TimedBroker.expired,
    decide_eq_true_eq]
  constructor
  · rintro ⟨⟨c, last⟩, ⟨member, late⟩, rfl⟩
    exact ⟨last, AList.mem_lookup_iff.mpr member, late⟩
  · rintro ⟨last, found, late⟩
    exact ⟨⟨conn, last⟩, ⟨AList.mem_lookup_iff.mp found, late⟩, rfl⟩

def ShutDown (start : TimedBroker) (before : List Timed) (now : Int) (conn : Nat) : Prop :=
  .shutdown conn ∈ (Timed.handle codec matchHeaders
    (Machine.exec (step codec matchHeaders) start before) ⟨now, .checkTimeout⟩).1

/-- A tick shuts down the connections that have sent no heartbeat for half a minute. -/
theorem shutdown_iff {broker : BrokerServer} (nobody : ∀ conn, broker.connected conn = false)
    (before : List Timed) (now : Int) (conn : Nat) :
    ShutDown codec matchHeaders (.new broker nobody) before now conn ↔
      Silent isHeartbeat conn now before := by
  have effect : ShutDown codec matchHeaders (.new broker nobody) before now conn ↔
      conn ∈ (Machine.exec (step codec matchHeaders) (.new broker nobody) before).checkTimeout now
        connectionTimeout := by
    simp [ShutDown, Timed.handle]
  have measured := Machine.exec_project (fun s : TimedBroker => s.lastActive.lookup conn)
    (lookup_step codec matchHeaders conn) (.new broker nobody) before
  rw [effect, mem_checkTimeout, measured]
  rfl

end Step

/-! ### The clock -/

inductive Behind : Option Int → Option Int → Prop
  | absent : Behind none none
  | present {x y : Int} : x ≤ y → Behind (some x) (some y)

theorem behind_touched {last last' : Option Int} (behind : Behind last last') (conn : Nat)
    (e : Timed) (late : ∀ y, last' = some y → y ≤ e.now) :
    Behind (touched isHeartbeat conn last e) (touched anyRequest conn last' e) := by
  obtain ⟨now, event⟩ := e
  cases behind with
  | absent =>
    cases event with
    | connect c =>
      by_cases same : c = conn
      · simpa [touched, same] using Behind.present (le_refl now)
      · simpa [touched, same] using Behind.absent
    | _ => simpa [touched] using Behind.absent
  | @present x y le =>
    have soon : y ≤ now := late y rfl
    cases event with
    | message c request =>
      by_cases same : c = conn
      · cases beat : isHeartbeat request with
        | true => simpa [touched, anyRequest, same, beat] using Behind.present (le_refl now)
        | false =>
          simpa [touched, anyRequest, same, beat] using Behind.present (le.trans soon)
      · simpa [touched, same] using Behind.present le
    | disconnect c =>
      by_cases same : c = conn
      · simpa [touched, same] using Behind.absent
      · simpa [touched, same] using Behind.present le
    | _ => simpa [touched] using Behind.present le

theorem touched_eq_some {counts : Request → Bool} {conn : Nat} {last : Option Int} {e : Timed}
    {y : Int} (some' : touched counts conn last e = some y) : last = some y ∨ y = e.now := by
  obtain ⟨now, event⟩ := e
  cases event with
  | checkTimeout => exact Or.inl some'
  | disconnect c =>
    simp only [touched] at some'
    split at some'
    · cases some'
    · exact Or.inl some'
  | _ =>
    simp only [touched] at some'
    split at some'
    · exact Or.inr (Option.some.inj some').symm
    · exact Or.inl some'

def Chronological (events : List Timed) : Prop := events.Pairwise fun e e' => e.now ≤ e'.now

theorem behind_exec {events : List Timed} (chronological : Chronological events) (conn : Nat)
    {last last' : Option Int} (behind : Behind last last')
    (late : ∀ y, last' = some y → ∀ e ∈ events, y ≤ e.now) :
    Behind (Machine.exec (touched isHeartbeat conn) last events)
      (Machine.exec (touched anyRequest conn) last' events) := by
  induction events generalizing last last' with
  | nil => exact behind
  | cons e events ih =>
    obtain ⟨first, rest⟩ := List.pairwise_cons.mp chronological
    refine ih rest (behind_touched behind conn e fun y old => late y old e List.mem_cons_self) ?_
    intro y now' e' member
    rcases touched_eq_some now' with old | rfl
    · exact late y old e' (List.mem_cons_of_mem _ member)
    · exact first e' member

theorem Silent.heartbeat {events : List Timed} (chronological : Chronological events) {conn : Nat}
    {now : Int} (silent : Silent anyRequest conn now events) :
    Silent isHeartbeat conn now events := by
  obtain ⟨last, heard, long⟩ := silent
  have behind := behind_exec chronological conn Behind.absent (by simp)
  rw [show Machine.exec (touched anyRequest conn) none events = some last from heard] at behind
  cases beaten : Machine.exec (touched isHeartbeat conn) none events with
  | none =>
    rw [beaten] at behind
    cases behind
  | some beat =>
    rw [beaten] at behind
    cases behind with
    | present le => exact ⟨beat, beaten, by omega⟩

/-! ### Runs -/

section Runs

variable (codec : Codec) (matchHeaders : StrMap Bytes → StrMap Bytes → Bool)

def TimesOutSilent (start : TimedBroker) (run : List Timed) : Prop :=
  ∀ before now after, run = before ++ ⟨now, .checkTimeout⟩ :: after →
    ∀ conn, ShutDown codec matchHeaders start before now conn ↔ Silent anyRequest conn now before

/-- Whoever has sent no heartbeat for half a minute when a tick comes has sent nothing. -/
def HeartbeatsKept (run : List Timed) : Prop :=
  ∀ before now after, run = before ++ ⟨now, .checkTimeout⟩ :: after →
    ∀ conn, Silent isHeartbeat conn now before → Silent anyRequest conn now before

end Runs

/-- The ticks of a run strike exactly the silent connections as long as no tick finds one that
has sent other requests in the last half minute and no heartbeat. -/
theorem timesOutSilent_iff (codec : Codec) (matchHeaders : StrMap Bytes → StrMap Bytes → Bool)
    {broker : BrokerServer} (nobody : ∀ conn, broker.connected conn = false)
    (run : List Timed) (chronological : Chronological run) :
    TimesOutSilent codec matchHeaders (.new broker nobody) run ↔ HeartbeatsKept run := by
  refine forall_congr' fun before => forall_congr' fun now => forall_congr' fun after =>
    forall_congr' fun split => forall_congr' fun conn => ?_
  rw [shutdown_iff]
  have earlier : Chronological before :=
    List.Pairwise.sublist (split ▸ List.sublist_append_left before _) chronological
  exact ⟨fun both => both.mp, fun kept => ⟨kept, Silent.heartbeat earlier⟩⟩

theorem heartbeatsKept_of_only {run : List Timed}
    (only : ∀ e ∈ run, ∀ conn request, e.event = .message conn request →
      isHeartbeat request = true) :
    HeartbeatsKept run := by
  rintro before now after rfl conn ⟨last, beaten, long⟩
  refine ⟨last, ?_, long⟩
  rw [← beaten]
  refine List.foldl_ext _ _ none ?_
  intro last e member
  have beats := only e (List.mem_append_left _ member)
  obtain ⟨now, event⟩ := e
  cases event with
  | message c request =>
    have beat := beats c request rfl
    simp [touched, anyRequest, beat]
  | _ => rfl

def busyRun : List Timed :=
  [⟨0, .connect 1⟩, ⟨20 * 10 ^ 9, .message 1 (.openChannel (str "r1") (str "c1"))⟩,
    ⟨35 * 10 ^ 9, .checkTimeout⟩]

def beatingRun : List Timed :=
  [⟨0, .connect 1⟩, ⟨20 * 10 ^ 9, .message 1 (.heartbeat (str "r1"))⟩,
    ⟨35 * 10 ^ 9, .checkTimeout⟩]

theorem timesOutSilent_example :
    TimesOutSilent Wire.codec (fun _ _ => false) (.new (.new .blank) fun _ => rfl) beatingRun :=
  (timesOutSilent_iff Wire.codec (fun _ _ => false) (fun _ => rfl) beatingRun
    (by unfold Chronological beatingRun; decide)).mpr
    (heartbeatsKept_of_only (by simp [beatingRun, isHeartbeat]))

/-- The request counts for nothing: the tick strikes 15 seconds after it. -/
theorem busy_client_struck :
    Chronological busyRun ∧
      ShutDown Wire.codec (fun _ _ => false) (.new (.new .blank) fun _ => rfl) (busyRun.take 2)
        (35 * 10 ^ 9) 1 ∧
      ¬Silent anyRequest 1 (35 * 10 ^ 9) (busyRun.take 2) ∧
      ¬TimesOutSilent Wire.codec (fun _ _ => false) (.new (.new .blank) fun _ => rfl) busyRun := by
  have struck : ShutDown Wire.codec (fun _ _ => false) (.new (.new .blank) fun _ => rfl)
      (busyRun.take 2) (35 * 10 ^ 9) 1 :=
    (shutdown_iff Wire.codec _ (fun _ => rfl) _ _ _).mpr ⟨0, rfl, by decide⟩
  have heard : ¬Silent anyRequest 1 (35 * 10 ^ 9) (busyRun.take 2) := by
    rintro ⟨last, heard, long⟩
    obtain rfl : 20 * 10 ^ 9 = last := Option.some.inj heard
    exact absurd long (by decide)
  refine ⟨by unfold Chronological busyRun; decide, struck, heard, ?_⟩
  intro exact'
  exact heard ((exact' (busyRun.take 2) (35 * 10 ^ 9) [] rfl 1).mp struck)

end HzMq.Liveness
