import Mathlib.Data.List.Basic
import Mathlib.Tactic.Ring

/-!
# Length-prefixed append-only logs

A log is a byte string made of frames, each a four-byte little-endian length
followed by that many payload bytes. `scan` is the sequential reader: it stops
at the first frame that is incomplete or whose payload does not parse, and
returns what it read together with the bytes it did not consume.
-/

namespace FramedLog

universe u

abbrev Bytes := List UInt8

/-- Four little-endian bytes; the value is taken modulo `2 ^ 32`. -/
def le32 (n : Nat) : Bytes :=
  [UInt8.ofNat n, UInt8.ofNat (n / 256), UInt8.ofNat (n / 65536), UInt8.ofNat (n / 16777216)]

def ofLe32 : Bytes → Nat
  | [a, b, c, d] => a.toNat + 256 * b.toNat + 65536 * c.toNat + 16777216 * d.toNat
  | _ => 0

@[simp] theorem le32_length (n : Nat) : (le32 n).length = 4 := rfl

@[simp] theorem take_le32 (n : Nat) : (le32 n).take 4 = le32 n := rfl

theorem ofLe32_le32 {n : Nat} (bound : n < 2 ^ 32) : ofLe32 (le32 n) = n := by
  simp only [le32, ofLe32, UInt8.toNat_ofNat']
  omega

theorem ofLe32_lt (header : Bytes) : ofLe32 header < 2 ^ 32 := by
  unfold ofLe32
  split
  · next a b c d =>
    have := a.toNat_lt
    have := b.toNat_lt
    have := c.toNat_lt
    have := d.toNat_lt
    omega
  · decide

theorem le32_ofLe32 {header : Bytes} (four : header.length = 4) :
    le32 (ofLe32 header) = header := by
  obtain ⟨a, b, c, d, rfl⟩ := List.length_eq_four.mp four
  have := a.toNat_lt
  have := b.toNat_lt
  have := c.toNat_lt
  have := d.toNat_lt
  simp only [le32, ofLe32, List.cons.injEq, and_true, ← UInt8.toNat_inj, UInt8.toNat_ofNat']
  omega

def frame (payload : Bytes) : Bytes := le32 payload.length ++ payload

def frames (payloads : List Bytes) : Bytes := payloads.flatMap frame

@[simp] theorem frame_length (payload : Bytes) : (frame payload).length = 4 + payload.length := by
  simp [frame]

@[simp] theorem frames_nil : frames [] = [] := rfl

@[simp] theorem frames_cons (p : Bytes) (ps : List Bytes) :
    frames (p :: ps) = frame p ++ frames ps := rfl

@[simp] theorem frames_append (ps qs : List Bytes) :
    frames (ps ++ qs) = frames ps ++ frames qs := by
  simp [frames]

def unframe? (bytes : Bytes) : Option (Bytes × Bytes) :=
  if bytes.length < 4 then none
  else
    let size := ofLe32 (bytes.take 4)
    let rest := bytes.drop 4
    if rest.length < size then none else some (rest.take size, rest.drop size)

/-- What the reader splits off: four bytes that give the length, and the payload. -/
theorem unframe?_eq_some_iff {bytes p rest : Bytes} :
    unframe? bytes = some (p, rest) ↔
      ∃ header : Bytes, header.length = 4 ∧ ofLe32 header = p.length ∧
        bytes = header ++ p ++ rest := by
  constructor
  · intro h
    unfold unframe? at h
    split at h
    · cases h
    next long =>
      simp only at h
      split at h
      · cases h
      next enough =>
        simp only [Option.some.injEq, Prod.mk.injEq] at h
        obtain ⟨rfl, rfl⟩ := h
        refine ⟨bytes.take 4, by simp only [List.length_take]; omega, ?_, ?_⟩
        · simp only [List.length_take]
          omega
        · rw [List.append_assoc, List.take_append_drop, List.take_append_drop]
  · rintro ⟨header, four, size, rfl⟩
    have head : (header ++ p ++ rest).take 4 = header := by
      rw [← four, List.append_assoc, List.take_left]
    have tail : (header ++ p ++ rest).drop 4 = p ++ rest := by
      rw [← four, List.append_assoc, List.drop_left]
    have long : ¬ (header ++ p ++ rest).length < 4 := by
      simp only [List.length_append]
      omega
    have fits : ¬ (p ++ rest).length < p.length := by simp
    simp only [unframe?, if_neg long, head, tail, size, if_neg fits, List.take_left, List.drop_left]

theorem unframe?_frame_append {p : Bytes} (bound : p.length < 2 ^ 32) (rest : Bytes) :
    unframe? (frame p ++ rest) = some (p, rest) :=
  unframe?_eq_some_iff.mpr ⟨le32 p.length, le32_length _, ofLe32_le32 bound, rfl⟩

theorem unframe?_length {bytes p rest : Bytes} (h : unframe? bytes = some (p, rest)) :
    bytes.length = 4 + p.length + rest.length := by
  obtain ⟨header, four, -, rfl⟩ := unframe?_eq_some_iff.mp h
  simp only [List.length_append, four]

/-- The bytes of a frame that was cut before its end. -/
def Torn (tail : Bytes) : Prop :=
  ∃ p : Bytes, p.length < 2 ^ 32 ∧ tail <+: frame p ∧ tail ≠ frame p

/-- A cut frame is never taken for a complete one, wherever the cut falls. -/
theorem Torn.unframe?_eq_none {tail : Bytes} (torn : Torn tail) : unframe? tail = none := by
  obtain ⟨p, bound, ⟨missing, whole⟩, proper⟩ := torn
  have missing_ne : missing ≠ [] := by
    rintro rfl
    exact proper (by simpa using whole)
  have missing_pos : 0 < missing.length := List.length_pos_iff.mpr missing_ne
  have lengths := congrArg List.length whole
  simp only [List.length_append, frame_length] at lengths
  unfold unframe?
  by_cases short : tail.length < 4
  · rw [if_pos short]
  · have header : tail.take 4 = le32 p.length := by
      have := congrArg (List.take 4) whole
      rw [List.take_append_of_le_length (by omega)] at this
      simpa [frame, List.take_append] using this
    have incomplete : (tail.drop 4).length < p.length := by
      rw [List.length_drop]
      omega
    simp only [if_neg short, header, ofLe32_le32 bound, if_pos incomplete]

section Scan

variable {α : Type u}

structure Entry (α : Type u) where
  offset : Nat
  size : Nat
  value : α
  deriving DecidableEq, Repr

/-- The reader; every round consumes at least the four length bytes, so the
length of the input is enough fuel. -/
def scan (parse : Bytes → Option α) : Nat → Nat → Bytes → List (Entry α) × Bytes
  | 0, _, bytes => ([], bytes)
  | fuel + 1, offset, bytes =>
    match unframe? bytes with
    | none => ([], bytes)
    | some (payload, rest) =>
      match parse payload with
      | none => ([], bytes)
      | some value =>
        let (entries, left) := scan parse fuel (offset + 4 + payload.length) rest
        (⟨offset, payload.length, value⟩ :: entries, left)

theorem scan_none (parse : Bytes → Option α) (fuel offset : Nat) {bytes : Bytes}
    (h : unframe? bytes = none) : scan parse fuel offset bytes = ([], bytes) := by
  cases fuel <;> simp [scan, h]

theorem scan_unparsed (parse : Bytes → Option α) (fuel offset : Nat) {bytes payload rest : Bytes}
    (h : unframe? bytes = some (payload, rest)) (failed : parse payload = none) :
    scan parse fuel offset bytes = ([], bytes) := by
  cases fuel <;> simp [scan, h, failed]

theorem scan_succ (parse : Bytes → Option α) (fuel offset : Nat) {bytes payload rest : Bytes}
    {value : α} (h : unframe? bytes = some (payload, rest)) (parsed : parse payload = some value) :
    scan parse (fuel + 1) offset bytes =
      (⟨offset, payload.length, value⟩ :: (scan parse fuel (offset + 4 + payload.length) rest).1,
        (scan parse fuel (offset + 4 + payload.length) rest).2) := by
  simp [scan, h, parsed]

theorem mem_scan {parse : Bytes → Option α} {fuel offset : Nat} {bytes : Bytes} {e : Entry α}
    (member : e ∈ (scan parse (fuel + 1) offset bytes).1) :
    ∃ p rest value, unframe? bytes = some (p, rest) ∧ parse p = some value ∧
      (e = ⟨offset, p.length, value⟩ ∨
        e ∈ (scan parse fuel (offset + 4 + p.length) rest).1) := by
  cases head : unframe? bytes with
  | none => simp [scan_none parse _ offset head] at member
  | some pair =>
    obtain ⟨p, rest⟩ := pair
    cases parsed : parse p with
    | none => simp [scan_unparsed parse _ offset head parsed] at member
    | some value =>
      rw [scan_succ parse fuel offset head parsed, List.mem_cons] at member
      exact ⟨p, rest, value, rfl, parsed, member⟩

theorem scan_bounds (parse : Bytes → Option α) (fuel offset : Nat) (bytes : Bytes) {e : Entry α}
    (member : e ∈ (scan parse fuel offset bytes).1) :
    offset ≤ e.offset ∧ e.offset + 4 + e.size ≤ offset + bytes.length := by
  induction fuel generalizing offset bytes with
  | zero => cases member
  | succ fuel ih =>
    obtain ⟨p, rest, value, head, -, rfl | later⟩ := mem_scan member
    · have lengths := unframe?_length head
      simp only
      omega
    · have lengths := unframe?_length head
      have inRest := ih _ _ later
      omega

/-- A frame that was read is still read as long as the bytes up to its end stay. The
induction is on the first reader; the second one has frames of its own behind. -/
theorem scan_mem_of_prefix (parse : Bytes → Option α) {fuel fuel' offset : Nat}
    {bytes bytes' : Bytes} {e : Entry α} (member : e ∈ (scan parse fuel offset bytes).1)
    (kept : bytes.take (e.offset - offset + (4 + e.size)) <+: bytes')
    (enough : bytes'.length < fuel') : e ∈ (scan parse fuel' offset bytes').1 := by
  induction fuel generalizing offset bytes bytes' fuel' with
  | zero => cases member
  | succ fuel ih =>
    obtain ⟨p, rest, value, head, parsed, place⟩ := mem_scan member
    obtain ⟨header, four, size, rfl⟩ := unframe?_eq_some_iff.mp head
    have whole (n : Nat) : (header ++ p ++ rest).take (4 + p.length + n) =
        header ++ p ++ rest.take n := by
      rw [List.take_append, List.take_of_length_le (by simp [four])]
      congr 2
      simp [four]
    rcases place with rfl | later
    · have first := whole 0
      rw [Nat.add_zero, List.take_zero, List.append_nil] at first
      rw [Nat.sub_self, Nat.zero_add, first] at kept
      obtain ⟨rest', rfl⟩ := kept
      obtain ⟨fuel', rfl⟩ : ∃ n, fuel' = n + 1 := ⟨fuel' - 1, by omega⟩
      rw [scan_succ parse fuel' offset
        (unframe?_eq_some_iff.mpr ⟨header, four, size, rfl⟩) parsed]
      exact List.mem_cons_self
    · have behind := (scan_bounds parse fuel _ rest later).1
      have distance : e.offset - offset + (4 + e.size) =
          4 + p.length + (e.offset - (offset + 4 + p.length) + (4 + e.size)) := by omega
      rw [distance, whole] at kept
      obtain ⟨more, rfl⟩ := kept
      obtain ⟨fuel', rfl⟩ : ∃ n, fuel' = n + 1 := ⟨fuel' - 1, by omega⟩
      rw [List.append_assoc, scan_succ parse fuel' offset
        (unframe?_eq_some_iff.mpr ⟨header, four, size, rfl⟩) parsed]
      refine List.mem_cons_of_mem _ (ih later ⟨more, rfl⟩ ?_)
      simp only [List.length_append, four] at enough ⊢
      omega

/-- Fuel beyond the length of the input makes no difference. -/
theorem scan_fuel (parse : Bytes → Option α) {fuel fuel' : Nat} (offset : Nat) {bytes : Bytes}
    (enough : bytes.length < fuel) (enough' : bytes.length < fuel') :
    scan parse fuel offset bytes = scan parse fuel' offset bytes := by
  induction fuel generalizing fuel' offset bytes with
  | zero => omega
  | succ fuel ih =>
    obtain ⟨fuel', rfl⟩ : ∃ n, fuel' = n + 1 := ⟨fuel' - 1, by omega⟩
    cases head : unframe? bytes with
    | none => rw [scan_none parse _ offset head, scan_none parse _ offset head]
    | some pair =>
      obtain ⟨p, rest⟩ := pair
      have lengths := unframe?_length head
      cases parsed : parse p with
      | none =>
        rw [scan_unparsed parse _ offset head parsed, scan_unparsed parse _ offset head parsed]
      | some value =>
        have further : scan parse fuel (offset + 4 + p.length) rest =
            scan parse fuel' (offset + 4 + p.length) rest := ih _ (by omega) (by omega)
        rw [scan_succ parse fuel offset head parsed, scan_succ parse fuel' offset head parsed,
          further]

def Whole (parse : Bytes → Option α) (bytes : Bytes) : Prop :=
  (scan parse (bytes.length + 1) 0 bytes).2 = []

instance (parse : Bytes → Option α) (bytes : Bytes) : Decidable (Whole parse bytes) :=
  inferInstanceAs (Decidable (_ = _))

/-- Behind a part that was read to its end the reader goes on as from the start. -/
theorem scan_append (parse : Bytes → Option α) {fuel fuel' offset : Nat} {before after : Bytes}
    (whole : (scan parse fuel offset before).2 = [])
    (enough : (before ++ after).length < fuel') :
    scan parse fuel' offset (before ++ after) =
      ((scan parse fuel offset before).1 ++
          (scan parse fuel' (offset + before.length) after).1,
        (scan parse fuel' (offset + before.length) after).2) := by
  induction fuel generalizing fuel' offset before with
  | zero =>
    obtain rfl : before = [] := whole
    rfl
  | succ fuel ih =>
    cases head : unframe? before with
    | none =>
      rw [scan_none parse _ offset head] at whole ⊢
      obtain rfl : before = [] := whole
      rfl
    | some pair =>
      obtain ⟨p, rest⟩ := pair
      obtain ⟨header, four, size, rfl⟩ := unframe?_eq_some_iff.mp head
      have head' : unframe? (header ++ p ++ rest ++ after) = some (p, rest ++ after) :=
        unframe?_eq_some_iff.mpr ⟨header, four, size, by simp⟩
      cases parsed : parse p with
      | none =>
        rw [scan_unparsed parse _ offset head parsed] at whole
        simp [List.append_eq_nil_iff.mp (List.append_eq_nil_iff.mp whole).1 |>.1] at four
      | some value =>
        rw [scan_succ parse fuel offset head parsed] at whole ⊢
        obtain ⟨fuel', rfl⟩ : ∃ n, fuel' = n + 1 := ⟨fuel' - 1, by omega⟩
        have remaining : (rest ++ after).length < fuel' := by
          simp only [List.length_append, four] at enough ⊢
          omega
        have reached : offset + 4 + p.length + rest.length =
            offset + (header ++ p ++ rest).length := by
          simp only [List.length_append, four]
          omega
        have short : after.length < fuel' := by
          rw [List.length_append] at remaining
          omega
        rw [scan_succ parse fuel' offset head' parsed, ih whole remaining, reached,
          scan_fuel parse _ short (Nat.lt_succ_of_lt short)]
        rfl

theorem scan_of_mem_end (parse : Bytes → Option α) {fuel offset : Nat} {before after : Bytes}
    {e : Entry α} (member : e ∈ (scan parse fuel offset (before ++ after)).1)
    (here : e.offset = offset + before.length) : (scan parse fuel offset before).2 = [] := by
  induction fuel generalizing offset before with
  | zero => cases member
  | succ fuel ih =>
    obtain ⟨p, rest, value, head, parsed, place⟩ := mem_scan member
    rcases place with rfl | later
    · obtain rfl : before = [] := List.length_eq_zero_iff.mp (by simpa using here)
      rfl
    · have behind := (scan_bounds parse fuel _ rest later).1
      obtain ⟨header, four, size, split⟩ := unframe?_eq_some_iff.mp head
      -- the first frame lies inside the first part
      obtain ⟨before', rfl⟩ : header ++ p <+: before := by
        refine List.prefix_of_prefix_length_le ⟨rest, split.symm⟩ (List.prefix_append _ _) ?_
        simp only [List.length_append, four]
        omega
      obtain rfl : before' ++ after = rest := by
        simpa using split
      have head' : unframe? (header ++ p ++ before') = some (p, before') :=
        unframe?_eq_some_iff.mpr ⟨header, four, size, rfl⟩
      rw [scan_succ parse fuel offset head' parsed]
      refine ih later ?_
      simp only [List.length_append, four] at here
      omega

section Whole

variable {parse : Bytes → Option α} {before after payload : Bytes} {e : Entry α}

theorem whole_of_mem {fuel : Nat} (member : e ∈ (scan parse fuel 0 (before ++ after)).1)
    (here : e.offset = before.length) (enough : before.length < fuel) : Whole parse before := by
  have reached := scan_of_mem_end parse member (by simpa using here)
  rwa [Whole, scan_fuel parse 0 (Nat.lt_succ_self _) enough]

theorem Whole.parse_of_mem (whole : Whole parse before) (bound : payload.length < 2 ^ 32)
    {fuel : Nat} (enough : (before ++ (frame payload ++ after)).length < fuel)
    (member : e ∈ (scan parse fuel 0 (before ++ (frame payload ++ after))).1)
    (here : e.offset = before.length) : parse payload = some e.value := by
  have head := unframe?_frame_append bound after
  rw [scan_append parse whole enough, List.mem_append, Nat.zero_add] at member
  rcases member with early | member
  · have inside := (scan_bounds parse _ 0 before early).2
    omega
  · cases parsed : parse payload with
    | none => simp [scan_unparsed parse _ _ head parsed] at member
    | some value =>
      obtain ⟨fuel, rfl⟩ : ∃ n, fuel = n + 1 := ⟨fuel - 1, by omega⟩
      rw [scan_succ parse fuel _ head parsed, List.mem_cons] at member
      rcases member with rfl | later
      · rfl
      · have behind := (scan_bounds parse _ _ _ later).1
        omega

theorem Whole.append_frame {value : α} (whole : Whole parse before)
    (bound : payload.length < 2 ^ 32) (parsed : parse payload = some value) :
    Whole parse (before ++ frame payload) ∧
      ⟨before.length, payload.length, value⟩ ∈
        (scan parse ((before ++ frame payload).length + 1) 0 (before ++ frame payload)).1 := by
  have head := unframe?_frame_append bound []
  rw [List.append_nil] at head
  have done : unframe? [] = none := rfl
  rw [Whole, scan_append parse whole (Nat.lt_succ_self _),
    scan_succ parse _ _ head parsed, scan_none parse _ _ done]
  simp

end Whole

/-- Values laid out as consecutive frames from `offset` on. -/
def layout (encode : α → Bytes) : Nat → List α → List (Entry α)
  | _, [] => []
  | offset, v :: vs =>
    ⟨offset, (encode v).length, v⟩ :: layout encode (offset + 4 + (encode v).length) vs

@[simp] theorem layout_nil (encode : α → Bytes) (offset : Nat) : layout encode offset [] = [] := rfl

@[simp] theorem layout_cons (encode : α → Bytes) (offset : Nat) (v : α) (vs : List α) :
    layout encode offset (v :: vs) =
      ⟨offset, (encode v).length, v⟩ :: layout encode (offset + 4 + (encode v).length) vs := rfl

theorem layout_append (encode : α → Bytes) (offset : Nat) (vs ws : List α) :
    layout encode offset (vs ++ ws) =
      layout encode offset vs ++ layout encode (offset + (frames (vs.map encode)).length) ws := by
  induction vs generalizing offset with
  | nil => simp
  | cons v vs ih =>
    simp only [List.cons_append, layout_cons, ih, List.map_cons, frames_cons, List.length_append,
      frame_length]
    congr 3
    omega

theorem layout_values (encode : α → Bytes) (offset : Nat) (vs : List α) :
    (layout encode offset vs).map Entry.value = vs := by
  induction vs generalizing offset with
  | nil => rfl
  | cons v vs ih => simp [ih]

theorem layout_eq_append {encode : α → Bytes} {offset : Nat} {vs : List α}
    {first last : List (Entry α)} {e : Entry α}
    (cut : layout encode offset vs = first ++ e :: last) :
    ∃ before v after, vs = before ++ v :: after ∧ first = layout encode offset before ∧
      e = ⟨offset + (frames (before.map encode)).length, (encode v).length, v⟩ ∧
      last = layout encode (e.offset + 4 + e.size) after := by
  induction first generalizing offset vs with
  | nil =>
    cases vs with
    | nil => cases cut
    | cons v vs =>
      simp only [layout_cons, List.nil_append, List.cons.injEq] at cut
      obtain ⟨rfl, rfl⟩ := cut
      exact ⟨[], v, vs, rfl, rfl, by simp, rfl⟩
  | cons x first ih =>
    cases vs with
    | nil => cases cut
    | cons w vs =>
      simp only [layout_cons, List.cons_append, List.cons.injEq] at cut
      obtain ⟨rfl, cut⟩ := cut
      obtain ⟨before, v, after, rfl, rfl, rfl, rfl⟩ := ih cut
      refine ⟨w :: before, v, after, rfl, rfl, ?_, rfl⟩
      simp only [List.map_cons, frames_cons, List.length_append, frame_length, Entry.mk.injEq,
        and_true]
      omega

theorem layout_map {β : Type u} (encode : α → Bytes) (f : β → α) (offset : Nat) (ws : List β) :
    layout encode offset (ws.map f) =
      (layout (fun w => encode (f w)) offset ws).map fun e => ⟨e.offset, e.size, f e.value⟩ := by
  induction ws generalizing offset with
  | nil => rfl
  | cons w ws ih => simp [ih]

theorem layout_offset_bounds (encode : α → Bytes) (offset : Nat) (vs : List α) {e : Entry α}
    (member : e ∈ layout encode offset vs) :
    offset ≤ e.offset ∧ e.offset + 4 + e.size ≤ offset + (frames (vs.map encode)).length := by
  induction vs generalizing offset with
  | nil => cases member
  | cons v vs ih =>
    simp only [layout_cons, List.mem_cons] at member
    simp only [List.map_cons, frames_cons, List.length_append, frame_length]
    rcases member with rfl | member
    · exact ⟨le_refl _, by simp; omega⟩
    · have := ih _ member
      omega

/-- Reading back what was laid out, up to whatever follows it. -/
theorem scan_frames (parse : Bytes → Option α) (encode : α → Bytes) (offset : Nat) (vs : List α)
    (tail : Bytes) (stop : unframe? tail = none)
    (small : ∀ v ∈ vs, (encode v).length < 2 ^ 32)
    (parses : ∀ v ∈ vs, parse (encode v) = some v) (fuel : Nat) (enough : vs.length ≤ fuel) :
    scan parse fuel offset (frames (vs.map encode) ++ tail) = (layout encode offset vs, tail) := by
  induction vs generalizing offset fuel with
  | nil => exact scan_none parse fuel offset stop
  | cons v vs ih =>
    obtain ⟨fuel, rfl⟩ : ∃ n, fuel = n + 1 :=
      ⟨fuel - 1, by simp only [List.length_cons] at enough; omega⟩
    have split : unframe? (frames ((v :: vs).map encode) ++ tail) =
        some (encode v, frames (vs.map encode) ++ tail) := by
      rw [List.map_cons, frames_cons, List.append_assoc]
      exact unframe?_frame_append (small v (by simp)) _
    rw [scan_succ parse fuel offset split (parses v (by simp)),
      ih _ (fun w hw => small w (by simp [hw])) (fun w hw => parses w (by simp [hw])) fuel
        (by simp only [List.length_cons] at enough; omega)]
    rfl

theorem layout_frame {encode : α → Bytes} {vs : List α} {content : Bytes} {e : Entry α}
    (begins : frames (vs.map encode) <+: content) (member : e ∈ layout encode 0 vs) :
    (content.drop e.offset).take (4 + e.size) = frame (encode e.value) := by
  obtain ⟨first, last, cut⟩ := List.append_of_mem member
  obtain ⟨before, v, after, rfl, -, rfl, -⟩ := layout_eq_append cut
  obtain ⟨tail, rfl⟩ := begins
  simp only [List.map_append, List.map_cons, frames_append, frames_cons, Nat.zero_add,
    List.append_assoc, List.drop_left, ← frame_length, List.take_left]

/-- All frames lie in front of a limit exactly when the last one does. -/
theorem layout_fits_iff (encode : α → Bytes) (vs : List α) (limit : Nat) :
    (∀ e ∈ layout encode 0 vs, e.offset + 4 + e.size ≤ limit) ↔
      (frames (vs.map encode)).length ≤ limit := by
  constructor
  · intro fits
    rcases List.eq_nil_or_concat' vs with rfl | ⟨init, last, rfl⟩
    · exact Nat.zero_le limit
    · have here : (frames (init.map encode)).length + 4 + (encode last).length ≤ limit :=
        fits ⟨_, _, last⟩ (by simp [layout_append])
      simp only [List.map_append, List.map_cons, List.map_nil, frames_append, frames_cons,
        frames_nil, List.append_nil, List.length_append, frame_length]
      omega
  · intro short e member
    have inside := (layout_offset_bounds encode 0 vs member).2
    omega

theorem layout_size {encode : α → Bytes} {offset : Nat} {vs : List α} {e : Entry α}
    (member : e ∈ layout encode offset vs) : e.size = (encode e.value).length := by
  obtain ⟨first, last, cut⟩ := List.append_of_mem member
  obtain ⟨before, v, after, -, -, rfl, -⟩ := layout_eq_append cut
  rfl

/-- The bytes begin with these records: payloads whose length fits the header, each with what it
parses to. -/
def BeginsWith (parse : Bytes → Option α) (bytes : Bytes) (records : List (Bytes × α)) : Prop :=
  (∀ r ∈ records, r.1.length < 2 ^ 32 ∧ parse r.1 = some r.2) ∧
    frames (records.map Prod.fst) <+: bytes

/-- All that can be read from the front: the bytes begin with these records, and whatever else
they begin with is a part of them. -/
structure LongestPrefix (parse : Bytes → Option α) (bytes : Bytes) (records : List (Bytes × α)) :
    Prop where
  begins : BeginsWith parse bytes records
  longest : ∀ other, BeginsWith parse bytes other → other <+: records

section Format

variable {parse : Bytes → Option α} {bytes : Bytes}

theorem beginsWith_nil : BeginsWith parse bytes [] := ⟨by simp, List.nil_prefix⟩

theorem beginsWith_cons_iff {p : Bytes} {v : α} {records : List (Bytes × α)} :
    BeginsWith parse bytes ((p, v) :: records) ↔
      ∃ rest, unframe? bytes = some (p, rest) ∧ parse p = some v ∧
        BeginsWith parse rest records := by
  constructor
  · rintro ⟨each, tail, rfl⟩
    obtain ⟨⟨bound, parsed⟩, others⟩ := List.forall_mem_cons.mp each
    refine ⟨frames (records.map Prod.fst) ++ tail, ?_, parsed, others, List.prefix_append _ _⟩
    rw [List.map_cons, frames_cons, List.append_assoc]
    exact unframe?_frame_append bound _
  · rintro ⟨rest, head, parsed, others, tail, rfl⟩
    obtain ⟨header, four, size, rfl⟩ := unframe?_eq_some_iff.mp head
    refine ⟨List.forall_mem_cons.mpr ⟨⟨size ▸ ofLe32_lt header, parsed⟩, others⟩, tail, ?_⟩
    rw [List.map_cons, frames_cons, frame, ← size, le32_ofLe32 four, List.append_assoc]

theorem longestPrefix_nil
    (nothing : ∀ p v rest, unframe? bytes = some (p, rest) → parse p ≠ some v) :
    LongestPrefix parse bytes [] := by
  refine ⟨beginsWith_nil, ?_⟩
  intro other begins
  cases other with
  | nil => exact List.prefix_rfl
  | cons r other =>
    obtain ⟨rest, head, parsed, -⟩ := beginsWith_cons_iff.mp begins
    exact absurd parsed (nothing r.1 r.2 rest head)

theorem LongestPrefix.cons {p rest : Bytes} {v : α} {records : List (Bytes × α)}
    (head : unframe? bytes = some (p, rest)) (parsed : parse p = some v)
    (tail : LongestPrefix parse rest records) : LongestPrefix parse bytes ((p, v) :: records) := by
  refine ⟨beginsWith_cons_iff.mpr ⟨rest, head, parsed, tail.begins⟩, ?_⟩
  intro other begins
  cases other with
  | nil => exact List.nil_prefix
  | cons r other =>
    obtain ⟨rest', head', parsed', begins'⟩ := beginsWith_cons_iff.mp begins
    rw [head, Option.some.injEq, Prod.mk.injEq] at head'
    obtain ⟨rfl, rfl⟩ := head'
    rw [parsed, Option.some.injEq] at parsed'
    exact List.cons_prefix_cons.mpr ⟨Prod.ext rfl parsed'.symm, tail.longest other begins'⟩

/-- The reader reads exactly the longest prefix; the induction is on its fuel. -/
theorem exists_longest_scan (parse : Bytes → Option α) {fuel : Nat} (offset : Nat) {bytes : Bytes}
    (enough : bytes.length < fuel) :
    ∃ records, LongestPrefix parse bytes records ∧
      (scan parse fuel offset bytes).1 =
        (layout Prod.fst offset records).map fun e => ⟨e.offset, e.size, e.value.2⟩ := by
  induction fuel generalizing offset bytes with
  | zero => omega
  | succ fuel ih =>
    cases head : unframe? bytes with
    | none =>
      refine ⟨[], longestPrefix_nil fun p v rest found => ?_, by
        rw [scan_none parse _ offset head]; rfl⟩
      rw [head] at found
      cases found
    | some pair =>
      obtain ⟨p, rest⟩ := pair
      cases parsed : parse p with
      | none =>
        refine ⟨[], longestPrefix_nil fun q v rest' found => ?_, by
          rw [scan_unparsed parse _ offset head parsed]; rfl⟩
        rw [head, Option.some.injEq, Prod.mk.injEq] at found
        rw [← found.1, parsed]
        exact Option.some_ne_none v ∘ Eq.symm
      | some value =>
        have lengths := unframe?_length head
        obtain ⟨records, longest, read⟩ := ih (offset + 4 + p.length)
          (show rest.length < fuel by omega)
        refine ⟨(p, value) :: records, longest.cons head parsed, ?_⟩
        rw [scan_succ parse fuel offset head parsed, read]
        rfl

end Format

theorem frames_length_ge (payloads : List Bytes) :
    4 * payloads.length ≤ (frames payloads).length := by
  induction payloads with
  | nil => simp
  | cons p ps ih =>
    simp only [List.length_cons, frames_cons, List.length_append, frame_length]
    omega

end Scan

end FramedLog
