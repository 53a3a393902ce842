import HzMq.Common.Wire
import HzMq.Server.ManagementHttp

/-!
# Requests to the management interface

A branch is taken when its suffix occurs anywhere behind `/queues/`, but the name is
what is left when as many bytes as the suffix has are cut off at the end. The two
agree when the path ends with the suffix.
-/

namespace HzMq.ManagementHttp

def queuePath (qname suffix : Bytes) : Bytes := str "/queues/" ++ qname ++ suffix

section Difference

theorem sizeSub_of_le {a b : Nat} (small : a < 2 ^ 64) (le : b ≤ a) : sizeSub a b = a - b := by
  have wraps : a + (2 ^ 64 - b) = a - b + 2 ^ 64 := by omega
  rw [sizeSub, wraps, Nat.add_mod_right, Nat.mod_eq_of_lt (by omega)]

end Difference

section Line

variable {req method path rest : Bytes}

theorem received_length_lt (sent : Bytes) : (received sent).length < 2 ^ 64 := by
  rw [received, List.length_take]
  omega

theorem spaces_ordered {pos1 pos2 : Nat} (second : findChar req space (pos1 + 1) = some pos2) :
    pos1 ≤ pos2 ∧ 1 ≤ pos2 - pos1 := by
  obtain ⟨before, -, -, -, rfl⟩ := findChar_eq_some_iff.mp second
  omega

theorem requestLine_eq (small : req.length < 2 ^ 64)
    (line : req = method ++ space :: (path ++ space :: rest)) (noSpace : space ∉ method)
    (noSpace' : space ∉ path) : requestLine req = some (method, path) := by
  have first : findChar req space 0 = some method.length := by
    rw [line]
    exact findChar_append_cons noSpace _
  have behind : req.drop (method.length + 1) = path ++ space :: rest := by
    rw [line, ← List.drop_drop, List.drop_left]
    rfl
  have second : findChar req space (method.length + 1) =
      some (method.length + 1 + path.length) :=
    findChar_eq_some_iff.mpr ⟨path, rest, behind, noSpace', rfl⟩
  have lengths := congrArg List.length line
  simp only [List.length_append, List.length_cons] at lengths
  have inner : sizeSub (method.length + 1 + path.length) method.length = path.length + 1 := by
    rw [sizeSub_of_le (by omega) (by omega)]
    omega
  have count : sizeSub (sizeSub (method.length + 1 + path.length) method.length) 1 =
      path.length := by
    rw [inner, sizeSub_of_le (by omega) (by omega), Nat.add_sub_cancel]
  simp only [requestLine, first, second, count, substr, behind, List.take_left, List.drop_zero]
  rw [line, List.take_left]

theorem requestLine_eq_some_iff (small : req.length < 2 ^ 64) :
    requestLine req = some (method, path) ↔
      ∃ rest, req = method ++ space :: (path ++ space :: rest) ∧ space ∉ method ∧ space ∉ path := by
  constructor
  · intro found
    obtain ⟨pos1, first⟩ : ∃ pos1, findChar req space 0 = some pos1 := by
      by_contra none'
      rw [requestLine, Option.eq_none_iff_forall_ne_some.mpr fun i is => none' ⟨i, is⟩] at found
      cases found
    obtain ⟨pos2, second⟩ : ∃ pos2, findChar req space (pos1 + 1) = some pos2 := by
      by_contra none'
      simp only [requestLine, first,
        Option.eq_none_iff_forall_ne_some.mpr fun i is => none' ⟨i, is⟩] at found
      cases found
    obtain ⟨before, after, split, fresh, rfl⟩ := findChar_eq_some_iff.mp first
    obtain ⟨before', rest, split', fresh', -⟩ := findChar_eq_some_iff.mp second
    rw [List.drop_zero] at split
    have behind : after = before' ++ space :: rest := by
      rw [← split', split, Nat.zero_add, ← List.drop_drop, List.drop_left]
      rfl
    rw [behind] at split
    rw [requestLine_eq small split fresh fresh'] at found
    obtain ⟨rfl, rfl⟩ := found
    exact ⟨rest, split, fresh, fresh'⟩
  · rintro ⟨rest, line, noSpace, noSpace'⟩
    exact requestLine_eq small line noSpace noSpace'

/-- The path is read when the space behind it is among the bytes that were read. -/
def PathEnded (method path : Bytes) (more : List Bytes) : Prop :=
  more ≠ [] ∧ method.length + path.length + 2 ≤ 4095

instance (method path : Bytes) (more : List Bytes) : Decidable (PathEnded method path more) :=
  inferInstanceAs (Decidable (_ ∧ _))

theorem splitOn_line {rest : Bytes} (noSpace : space ∉ method) (noSpace' : space ∉ path) :
    (method ++ space :: (path ++ space :: rest)).splitOn space =
      method :: path :: rest.splitOn space := by
  rw [List.splitOn_append_cons_self_of_not_mem noSpace,
    List.splitOn_append_cons_self_of_not_mem noSpace']

section Fields

variable {sent : Bytes} {more : List Bytes}

theorem received_of_ended (fields : sent.splitOn space = method :: path :: more)
    (ended : PathEnded method path more) :
    ∃ rest, received sent = method ++ space :: (path ++ space :: rest) := by
  obtain ⟨some', fits⟩ := ended
  have joined : [space].intercalate (sent.splitOn space) = sent := List.intercalate_splitOn space
  rw [fields, List.intercalate_cons_of_ne_nil (by simp),
    List.intercalate_cons_of_ne_nil some'] at joined
  have whole : sent = (method ++ space :: (path ++ [space])) ++ [space].intercalate more := by
    simp [← joined]
  have front : (method ++ space :: (path ++ [space])).length ≤ 4095 := by
    simp only [List.length_append, List.length_cons, List.length_nil]
    omega
  obtain ⟨rest, line⟩ : ∃ rest, received sent = method ++ space :: (path ++ [space]) ++ rest := by
    rw [received, whole, List.take_append, List.take_of_length_le front]
    exact ⟨_, rfl⟩
  exact ⟨rest, by simp [line]⟩

theorem ended_of_received {method' path' : Bytes}
    (fields : sent.splitOn space = method :: path :: more)
    (line : received sent = method' ++ space :: (path' ++ space :: rest))
    (noSpace : space ∉ method') (noSpace' : space ∉ path') : PathEnded method path more := by
  have whole : sent = method' ++ space :: (path' ++ space :: (rest ++ sent.drop 4095)) := by
    have parts : received sent ++ sent.drop 4095 = sent := List.take_append_drop 4095 sent
    rw [line] at parts
    simpa using parts.symm
  rw [whole, splitOn_line noSpace noSpace'] at fields
  obtain ⟨rfl, tail⟩ := List.cons.inj fields
  obtain ⟨rfl, rfl⟩ := List.cons.inj tail
  refine ⟨List.splitOn_ne_nil _ _, ?_⟩
  have lengths := congrArg List.length line
  have atMost : (received sent).length ≤ 4095 := by
    rw [received, List.length_take]
    omega
  simp only [List.length_append, List.length_cons] at lengths
  omega

theorem requestLine_received (fields : sent.splitOn space = method :: path :: more) :
    requestLine (received sent) =
      if PathEnded method path more then some (method, path) else none := by
  have small := received_length_lt sent
  have noSpace : space ∉ method :=
    Separated.not_mem_of_mem_splitOn (fields ▸ List.mem_cons_self)
  have noSpace' : space ∉ path :=
    Separated.not_mem_of_mem_splitOn (fields ▸ List.mem_cons_of_mem _ List.mem_cons_self)
  split
  · next ended =>
    obtain ⟨rest, line⟩ := received_of_ended fields ended
    exact (requestLine_eq_some_iff small).mpr ⟨rest, line, noSpace, noSpace'⟩
  · next cut =>
    refine Option.eq_none_iff_forall_ne_some.mpr fun ⟨method', path'⟩ found => cut ?_
    obtain ⟨rest, line, fresh, fresh'⟩ := (requestLine_eq_some_iff small).mp found
    exact ended_of_received fields line fresh fresh'

end Fields

end Line

section Path

variable {path suffix : Bytes}

theorem queues_length : (str "/queues/").length = 8 := rfl

/-- A path of the form is recognised by what is behind its first eight bytes. -/
theorem onQueue_iff (nonempty : suffix ≠ []) : onQueue path suffix = true ↔
    ∃ tail, path = str "/queues/" ++ tail ∧ suffix <:+: tail := by
  rw [onQueue, Bool.and_eq_true, Bool.and_eq_true, decide_eq_true_iff, List.isPrefixOf_iff_prefix]
  constructor
  · rintro ⟨⟨⟨tail, rfl⟩, long⟩, occurs⟩
    refine ⟨tail, rfl, ?_⟩
    have part := (isSome_find_iff (Nat.le_of_lt long)).mp occurs
    rwa [← queues_length, List.drop_left] at part
  · rintro ⟨tail, rfl, occurs⟩
    have fits : 0 < tail.length :=
      Nat.lt_of_lt_of_le (List.length_pos_iff.mpr nonempty) occurs.length_le
    have long : 8 < (str "/queues/" ++ tail).length := by
      rw [List.length_append, queues_length]
      omega
    refine ⟨⟨List.prefix_append _ _, long⟩, (isSome_find_iff (Nat.le_of_lt long)).mpr ?_⟩
    rwa [← queues_length, List.drop_left]

/-- Where the suffix occurs there is room for it, so nothing wraps. -/
theorem room_of_onQueue (found : onQueue path suffix = true) :
    8 ≤ path.length ∧ suffix.length ≤ path.length - 8 := by
  obtain ⟨⟨-, long⟩, occurs⟩ := by simpa only [onQueue, Bool.and_eq_true] using found
  obtain ⟨i, at'⟩ := Option.isSome_iff_exists.mp occurs
  obtain ⟨from', within, -⟩ := find_eq_some at'
  omega

theorem name_eq {tail : Bytes} (small : path.length < 2 ^ 64)
    (split : path = str "/queues/" ++ tail) (fits : suffix.length ≤ tail.length) :
    substr path 8 (sizeSub (sizeSub path.length 8) suffix.length) =
      tail.take (tail.length - suffix.length) := by
  have lengths : path.length = 8 + tail.length := by
    rw [split, List.length_append, queues_length]
  rw [sizeSub_of_le small (by omega), sizeSub_of_le (by omega) (by omega), substr, lengths,
    Nat.add_sub_cancel_left]
  congr 1
  rw [split, ← queues_length, List.drop_left]

end Path

section Target

variable {method path suffix : Bytes}

def Named (path suffix qname : Bytes) : Prop :=
  ∃ tail, path = str "/queues/" ++ tail ∧ suffix <:+: tail ∧
    qname = tail.take (tail.length - suffix.length)

/-- Wherever the suffix occurs, the path ends with it. -/
def SuffixEnds (path suffix : Bytes) : Prop :=
  str "/queues/" <+: path → suffix <:+: path.drop 8 → suffix <:+ path.drop 8

instance (path suffix : Bytes) : Decidable (SuffixEnds path suffix) :=
  inferInstanceAs (Decidable (_ → _ → _))

theorem onQueue_and_name_iff (small : path.length < 2 ^ 64) (nonempty : suffix ≠ [])
    (qname : Bytes) : Named path suffix qname ↔ onQueue path suffix = true ∧
      substr path 8 (sizeSub (sizeSub path.length 8) suffix.length) = qname := by
  rw [onQueue_iff nonempty]
  constructor
  · rintro ⟨tail, split, occurs, rfl⟩
    exact ⟨⟨tail, split, occurs⟩, name_eq small split occurs.length_le⟩
  · rintro ⟨⟨tail, split, occurs⟩, rfl⟩
    exact ⟨tail, split, occurs, name_eq small split occurs.length_le⟩

theorem target_eq_stats_iff (small : path.length < 2 ^ 64) (qname : Bytes) :
    target method path = .stats qname ↔ method = str "GET" ∧ Named path (str "/stats") qname := by
  have named := onQueue_and_name_iff small (show str "/stats" ≠ [] by decide) qname
  rw [named, target]
  split
  · next taken =>
    obtain ⟨isGet, found⟩ := Bool.and_eq_true_iff.mp taken
    rw [Target.stats.injEq, beq_iff_eq.mp isGet, found]
    simp [show (str "/stats").length = 6 from rfl]
  · next passed =>
    have neither : ¬(method = str "GET" ∧ onQueue path (str "/stats") = true) := by
      simpa using passed
    constructor
    · intro taken
      split at taken <;> cases taken
    · rintro ⟨isGet, found, -⟩
      exact absurd ⟨isGet, found⟩ neither

theorem target_eq_compact_iff (small : path.length < 2 ^ 64) (qname : Bytes) :
    target method path = .compact qname ↔
      method = str "POST" ∧ Named path (str "/compact") qname := by
  have named := onQueue_and_name_iff small (show str "/compact" ≠ [] by decide) qname
  rw [named, target]
  split
  · next taken =>
    have isGet := beq_iff_eq.mp (Bool.and_eq_true_iff.mp taken).1
    have notPost : method ≠ str "POST" := isGet ▸ by decide
    simp [notPost]
  · split
    · next taken =>
      obtain ⟨isPost, found⟩ := Bool.and_eq_true_iff.mp taken
      rw [Target.compact.injEq, beq_iff_eq.mp isPost, found]
      simp [show (str "/compact").length = 8 from rfl]
    · next passed =>
      have neither : ¬(method = str "POST" ∧ onQueue path (str "/compact") = true) := by
        simpa using passed
      simp only [reduceCtorEq, false_iff]
      rintro ⟨isPost, found, -⟩
      exact neither ⟨isPost, found⟩

theorem named_exact_iff {verb : Prop} :
    (∀ qname, verb ∧ Named path suffix qname ↔ verb ∧ path = queuePath qname suffix) ↔
      (verb → SuffixEnds path suffix) := by
  constructor
  · rintro exact' isVerb ⟨tail, rfl⟩ occurs
    rw [← queues_length, List.drop_left] at occurs ⊢
    obtain ⟨-, whole⟩ := (exact' _).mp ⟨isVerb, tail, rfl, occurs, rfl⟩
    rw [queuePath, List.append_assoc, List.append_cancel_left_eq] at whole
    exact ⟨_, whole.symm⟩
  · intro ends qname
    refine and_congr_right fun isVerb => ⟨?_, ?_⟩
    · rintro ⟨tail, rfl, occurs, rfl⟩
      have last := ends isVerb (List.prefix_append _ _)
      rw [← queues_length, List.drop_left] at last
      obtain ⟨front, rfl⟩ := last occurs
      rw [List.length_append, Nat.add_sub_cancel, List.take_left, queuePath, List.append_assoc]
    · rintro rfl
      refine ⟨qname ++ suffix, List.append_assoc _ _ _, (List.suffix_append _ _).isInfix, ?_⟩
      rw [List.length_append, Nat.add_sub_cancel, List.take_left]

end Target

section Handling

variable {codec : Codec} {invalidRatio : QueueMessage.Stats → Bytes} {host : VirtualHost}
  {sent method path rest : Bytes}

variable (codec invalidRatio host) in
theorem answer_calls (wanted : Target) :
    let handled := answer codec invalidRatio host wanted
    (∀ qname, .queueRuntimeStats qname ∈ handled.calls ↔ wanted = .stats qname) ∧
      (∀ qname, .compactQueue qname ∈ handled.calls ↔ wanted = .compact qname) ∧
      (wanted = .notFound →
        handled.written = notFound ∧ handled.calls = [] ∧ handled.host = host) := by
  cases wanted with
  | stats qname =>
    refine ⟨?_, by simp [answer], fun wrong => nomatch wrong⟩
    intro other
    simpa [answer] using (eq_comm : other = qname ↔ qname = other)
  | compact qname =>
    refine ⟨by simp [answer], ?_, fun wrong => nomatch wrong⟩
    intro other
    simpa [answer] using (eq_comm : other = qname ↔ qname = other)
  | notFound => exact ⟨by simp [answer], by simp [answer], fun _ => ⟨rfl, rfl, rfl⟩⟩

theorem handleClient_of_line (line : requestLine (received sent) = some (method, path)) :
    handleClient codec invalidRatio host sent =
      answer codec invalidRatio host (target method path) := by
  rw [handleClient, line]

/-- A text with fewer than two spaces is dropped: nothing is answered and nothing touched. -/
theorem handleClient_dropped (line : requestLine (received sent) = none) :
    handleClient codec invalidRatio host sent = ⟨[], [], host⟩ := by
  rw [handleClient, line]

structure RoutedExactly (method path : Bytes) (host : VirtualHost) (handled : Handled) : Prop where
  stats : ∀ qname, .queueRuntimeStats qname ∈ handled.calls ↔
    method = str "GET" ∧ path = queuePath qname (str "/stats")
  compact : ∀ qname, .compactQueue qname ∈ handled.calls ↔
    method = str "POST" ∧ path = queuePath qname (str "/compact")
  other : (∀ qname, ¬(method = str "GET" ∧ path = queuePath qname (str "/stats"))) →
    (∀ qname, ¬(method = str "POST" ∧ path = queuePath qname (str "/compact"))) →
      handled.written = notFound ∧ handled.calls = [] ∧ handled.host = host

/-- No difference of two lengths or positions is taken the wrong way round. -/
structure NoUnderflow (req : Bytes) : Prop where
  line : ∀ pos1 pos2, findChar req space 0 = some pos1 →
    findChar req space (pos1 + 1) = some pos2 → pos1 ≤ pos2 ∧ 1 ≤ pos2 - pos1
  stats : ∀ method path, requestLine req = some (method, path) →
    onQueue path (str "/stats") = true → 8 ≤ path.length ∧ 6 ≤ path.length - 8
  compact : ∀ method path, requestLine req = some (method, path) →
    onQueue path (str "/compact") = true → 8 ≤ path.length ∧ 8 ≤ path.length - 8

theorem noUnderflow (req : Bytes) : NoUnderflow req where
  line _ _ _ second := spaces_ordered second
  stats _ _ _ found := room_of_onQueue found
  compact _ _ _ found := room_of_onQueue found

/-- Behind a request line: the documented paths and no others are taken when a path in which the
suffix of the method's branch occurs ends with it. -/
theorem answer_routes_iff (codec : Codec) (invalidRatio : QueueMessage.Stats → Bytes)
    (host : VirtualHost) (method : Bytes) {path : Bytes} (short : path.length < 2 ^ 64) :
    RoutedExactly method path host (answer codec invalidRatio host (target method path)) ↔
      (method = str "GET" → SuffixEnds path (str "/stats")) ∧
        (method = str "POST" → SuffixEnds path (str "/compact")) := by
  obtain ⟨stats, compact, other⟩ :=
    answer_calls codec invalidRatio host (target method path)
  simp only [target_eq_stats_iff short] at stats
  simp only [target_eq_compact_iff short] at compact
  constructor
  · intro exact'
    refine ⟨named_exact_iff.mp ?_, named_exact_iff.mp ?_⟩
    · intro qname
      rw [← stats, exact'.stats]
    · intro qname
      rw [← compact, exact'.compact]
  · rintro ⟨statsEnds, compactEnds⟩
    have namedStats := named_exact_iff.mpr statsEnds
    have namedCompact := named_exact_iff.mpr compactEnds
    refine ⟨fun qname => (stats qname).trans (namedStats qname),
      fun qname => (compact qname).trans (namedCompact qname), fun noStats noCompact => other ?_⟩
    cases found : target method path with
    | stats qname =>
      exact absurd ((namedStats qname).mp ((target_eq_stats_iff short qname).mp found))
        (noStats qname)
    | compact qname =>
      exact absurd ((namedCompact qname).mp ((target_eq_compact_iff short qname).mp found))
        (noCompact qname)
    | notFound => rfl

/-- A request that is dropped gets not even the answer that there is no such path. -/
theorem not_routed_of_dropped (method path : Bytes) (host : VirtualHost) :
    ¬RoutedExactly method path host ⟨[], [], host⟩ := by
  intro exact'
  have noStats (qname : Bytes) : ¬(method = str "GET" ∧ path = queuePath qname (str "/stats")) :=
    fun asked => List.not_mem_nil ((exact'.stats qname).mpr asked)
  have noCompact (qname : Bytes) :
      ¬(method = str "POST" ∧ path = queuePath qname (str "/compact")) :=
    fun asked => List.not_mem_nil ((exact'.compact qname).mpr asked)
  have answered : [] = notFound := (exact'.other noStats noCompact).1
  exact absurd answered (by decide)

/-- No difference wraps, whatever is sent. The documented paths and no others are taken exactly
when the path and the space behind it are among the bytes that are read, and a path in which
the suffix of the method's branch occurs ends with it. -/
theorem handleClient_routes_iff (codec : Codec) (invalidRatio : QueueMessage.Stats → Bytes)
    (host : VirtualHost) {sent method path : Bytes} {more : List Bytes}
    (fields : sent.splitOn space = method :: path :: more) :
    NoUnderflow (received sent) ∧
      (RoutedExactly method path host (handleClient codec invalidRatio host sent) ↔
        PathEnded method path more ∧
          (method = str "GET" → SuffixEnds path (str "/stats")) ∧
          (method = str "POST" → SuffixEnds path (str "/compact"))) := by
  refine ⟨noUnderflow _, ?_⟩
  have line := requestLine_received fields
  split at line
  · next ended =>
    have short : path.length < 2 ^ 64 := by
      have := ended.2
      omega
    rw [handleClient_of_line line, answer_routes_iff codec invalidRatio host method short]
    exact (and_iff_right ended).symm
  · next cut =>
    rw [handleClient_dropped line]
    exact iff_of_false (not_routed_of_dropped method path host) fun both => cut both.1

/-- The interface does to the host what its callers may do, and no more. -/
theorem handleClient_reachable {matchHeaders : StrMap Bytes → StrMap Bytes → Bool}
    (reached : VirtualHost.Reachable codec matchHeaders host) :
    VirtualHost.Reachable codec matchHeaders
      (handleClient codec invalidRatio host sent).host := by
  have step {h : VirtualHost} (call : HostCall) (before : h.Reachable codec matchHeaders) :
      VirtualHost.Reachable codec matchHeaders (call.apply codec h) := by
    cases call with
    | queueRuntimeStats queueName => exact before.next (.queueRuntimeStats queueName)
    | existsQueue => exact before
    | compactQueue queueName => exact before.next (.compactQueue queueName)
  rw [handleClient_host]
  generalize (handleClient codec invalidRatio host sent).calls = calls
  induction calls generalizing host with
  | nil => exact reached
  | cons call calls ih => exact ih (step call reached)

theorem handleClient_routes_example :
    RoutedExactly (str "GET") (str "/queues/q1/stats") .blank
      (handleClient Wire.codec (fun _ => str "0.000") .blank
        (str "GET /queues/q1/stats HTTP/1.1\r\n")) :=
  (handleClient_routes_iff Wire.codec (fun _ => str "0.000") .blank
    (show _ = [str "GET", str "/queues/q1/stats", str "HTTP/1.1\r\n"] by decide)).2.mpr (by decide)

/-- A path that goes on behind the suffix is no path of the interface, but one of its queues
is asked for, with a name cut off too early. -/
theorem suffix_found_inside :
    let sent := str "GET /queues/q/stats/x HTTP/1.1\r\n"
    let handled := handleClient Wire.codec (fun _ => str "0.000") .blank sent
    sent.splitOn space = [str "GET", str "/queues/q/stats/x", str "HTTP/1.1\r\n"] ∧
      .queueRuntimeStats (str "q/s") ∈ handled.calls ∧
      ¬RoutedExactly (str "GET") (str "/queues/q/stats/x") .blank handled := by
  intro sent handled
  have asked : .queueRuntimeStats (str "q/s") ∈ handled.calls := by decide
  refine ⟨by decide, asked, ?_⟩
  intro exact'
  exact absurd ((exact'.stats (str "q/s")).mp asked).2 (by decide)

end Handling

end HzMq.ManagementHttp
