import HzMq.Library.Separated
import Mathlib.Algebra.Ring.Nat
import Mathlib.Data.List.Basic
import Mathlib.Data.List.TakeWhile
import Mathlib.Logic.Function.Basic
import Mathlib.Tactic.SplitIfs

/-!
# Binary read/write streams over a file system

`Stream` is a `std::fstream` opened in binary mode: one joint position, a
sticky fail bit and an end-of-file bit. A read that hits the end of the file
sets both; while the fail bit is set nothing is read, written or repositioned,
until `clear` or a successful open. A device holds at most `capacity` bytes in
a file: a longer write stores what fits and fails the stream.
-/

namespace FileStream

abbrev Bytes := List UInt8

/-- What tells one file from another: the components that lead to it from the root, and for a file
over which another one was renamed a number, as it has no name any more. -/
inductive PathKey
  | named (components : List Bytes)
  | replaced (n : Nat)
  deriving DecidableEq, Repr

/-- One step of a path. At the root `..` stays where it is. -/
def enter (directory : List Bytes) (component : Bytes) : List Bytes :=
  if component = [] ∨ component = [46] then directory
  else if component = [46, 46] then directory.dropLast
  else directory ++ [component]

/-- POSIX resolution of the C string, which ends before the first zero byte. A relative path is
given with the working directory in front of it; there are no symbolic links. -/
def resolve (path : Bytes) : PathKey :=
  .named (((path.takeWhile (· ≠ 0)).splitOn 47).foldl enter [])

theorem resolve_ne_replaced (path : Bytes) (n : Nat) : resolve path ≠ .replaced n := nofun

theorem resolve_append {path : Bytes} (zero : 0 ∈ path) (more : Bytes) :
    resolve (path ++ more) = resolve path := by
  have stops : (path.takeWhile (· ≠ 0)).length ≠ path.length := by
    intro whole
    have inside := List.mem_takeWhile_imp ((List.takeWhile_prefix _).eq_of_length whole ▸ zero)
    simp at inside
  rw [resolve, resolve, List.takeWhile_append, if_neg stops]

def PathKey.last : PathKey → Option UInt8
  | .named components => components.getLast?.bind List.getLast?
  | .replaced _ => none

theorem resolve_last {path : Bytes} {c : UInt8} (noZero : 0 ∉ path ++ [c]) (notSlash : c ≠ 47)
    (notDot : c ≠ 46) : (resolve (path ++ [c])).last = some c := by
  obtain ⟨init, last, split⟩ := Separated.splitOn_concat notSlash path
  have lasts {other : Bytes} (same : last ++ [c] = other) : other.getLast? = some c := by
    rw [← same, List.getLast?_concat]
  have entered : enter (init.foldl enter []) (last ++ [c]) =
      init.foldl enter [] ++ [last ++ [c]] := by
    have notNothing : ¬(last ++ [c] = [] ∨ last ++ [c] = [46]) := by
      rintro (same | same)
      · simpa using lasts same
      · exact notDot (Option.some.inj (lasts same)).symm
    have notBack : last ++ [c] ≠ [46, 46] := fun same =>
      notDot (Option.some.inj (lasts same)).symm
    rw [enter, if_neg notNothing, if_neg notBack]
  have whole : (path ++ [c]).takeWhile (· ≠ 0) = path ++ [c] := by
    refine List.takeWhile_eq_self_iff.mpr ?_
    exact fun x member => decide_eq_true fun zero => noZero (zero ▸ member)
  rw [resolve, whole, split, List.foldl_append, List.foldl_cons, List.foldl_nil, entered,
    PathKey.last, List.getLast?_concat]
  exact List.getLast?_concat

structure FileSystem where
  files : PathKey → Option Bytes
  /-- Paths whose directory exists and which the process may read and write. -/
  openable : PathKey → Bool
  /-- How many files have lost their name so far. -/
  replaced : Nat := 0
  capacity : Nat
  capacity_lt : capacity < 2 ^ 63
  bounded : ∀ key bytes, files key = some bytes → bytes.length ≤ capacity

namespace FileSystem

def blank (capacity : Nat) (capacity_lt : capacity < 2 ^ 63) : FileSystem where
  files _ := none
  openable _ := true
  capacity
  capacity_lt
  bounded := by simp

def content (fs : FileSystem) (key : PathKey) : Bytes := (fs.files key).getD []

theorem content_length_le (fs : FileSystem) (key : PathKey) :
    (fs.content key).length ≤ fs.capacity := by
  unfold content
  cases stored : fs.files key with
  | none => simp
  | some bytes => exact fs.bounded key bytes stored

theorem content_length_lt (fs : FileSystem) (key : PathKey) : (fs.content key).length < 2 ^ 64 :=
  Nat.lt_of_le_of_lt (fs.content_length_le key) (Nat.lt_trans fs.capacity_lt (by decide))

def put (fs : FileSystem) (key : PathKey) (bytes : Bytes) (fits : bytes.length ≤ fs.capacity) :
    FileSystem :=
  { fs with
    files := Function.update fs.files key (some bytes)
    bounded := by
      intro other stored h
      by_cases same : other = key
      · subst same
        rw [Function.update_self] at h
        exact Option.some.inj h ▸ fits
      · rw [Function.update_of_ne same] at h
        exact fs.bounded other stored h }

variable (fs : FileSystem) (key : PathKey) (bytes : Bytes) (fits : bytes.length ≤ fs.capacity)

@[simp] theorem content_put_self : (fs.put key bytes fits).content key = bytes := by
  simp [content, put]

theorem files_put_of_ne {other : PathKey} (ne : other ≠ key) :
    (fs.put key bytes fits).files other = fs.files other := by
  simp [put, Function.update_of_ne ne]

theorem files_put_self : (fs.put key bytes fits).files key = some bytes := by
  simp [put]

@[simp] theorem capacity_put : (fs.put key bytes fits).capacity = fs.capacity := rfl

@[simp] theorem openable_put : (fs.put key bytes fits).openable = fs.openable := rfl

/-- `rename(2)`: the old name disappears and the new one denotes its file. The file that had the
new name is there for those who have it open. -/
def rename (fs : FileSystem) (old new : PathKey) : FileSystem :=
  if old = new then fs
  else
    { fs with
      files := Function.update (Function.update (Function.update fs.files (.replaced fs.replaced)
        (fs.files new)) old none) new (fs.files old)
      replaced := fs.replaced + 1
      bounded := by
        intro other stored h
        simp only [Function.update_apply] at h
        split at h
        · exact fs.bounded old stored h
        · split at h
          · cases h
          · split at h
            · exact fs.bounded new stored h
            · exact fs.bounded other stored h }

def follow (fs : FileSystem) (old new key : PathKey) : PathKey :=
  if old = new then key
  else if key = new then .replaced fs.replaced
  else if key = old then new
  else key

theorem files_rename_new (old new : PathKey) : (fs.rename old new).files new = fs.files old := by
  unfold rename
  split
  · next same => rw [same]
  · simp

theorem files_rename_old {old new : PathKey} (differs : old ≠ new) :
    (fs.rename old new).files old = none := by
  simp [rename, differs]

theorem files_rename_of_ne {old new other : PathKey} (notOld : other ≠ old) (notNew : other ≠ new)
    (hasName : ∀ n, other ≠ .replaced n) : (fs.rename old new).files other = fs.files other := by
  unfold rename
  split
  · rfl
  · simp only [Function.update_of_ne notNew, Function.update_of_ne notOld,
      Function.update_of_ne (hasName _)]

@[simp] theorem openable_rename (old new : PathKey) :
    (fs.rename old new).openable = fs.openable := by
  unfold rename
  split <;> rfl

theorem follow_of_ne {old new key : PathKey} (notOld : key ≠ old) (notNew : key ≠ new) :
    fs.follow old new key = key := by
  simp [follow, notOld, notNew]

structure SameAt (key : PathKey) (fs fs' : FileSystem) : Prop where
  files : fs'.files key = fs.files key
  openable : fs'.openable key = fs.openable key

theorem SameAt.refl : SameAt key fs fs := ⟨rfl, rfl⟩

variable {fs key} in
theorem SameAt.trans {fs' fs'' : FileSystem} (first : SameAt key fs fs')
    (second : SameAt key fs' fs'') : SameAt key fs fs'' :=
  ⟨second.files.trans first.files, second.openable.trans first.openable⟩

variable {fs key} in
theorem SameAt.content {fs' : FileSystem} (same : SameAt key fs fs') :
    fs'.content key = fs.content key := by
  rw [FileSystem.content, FileSystem.content, same.files]

end FileSystem

/-- Write `bytes` at `pos`; a gap behind the old end reads as zeros. -/
def overwrite (content : Bytes) (pos : Nat) (bytes : Bytes) : Bytes :=
  content.take pos ++ List.replicate (if bytes = [] then 0 else pos - content.length) 0 ++
    bytes ++ content.drop (pos + bytes.length)

theorem overwrite_length_le {content bytes : Bytes} {pos limit : Nat}
    (old : content.length ≤ limit) (room : bytes.length ≤ limit - pos) :
    (overwrite content pos bytes).length ≤ limit := by
  unfold overwrite
  by_cases empty : bytes = []
  · subst empty
    simp only [List.length_append, List.length_take, List.length_replicate, List.length_drop,
      List.length_nil, if_true]
    omega
  · have positive := List.length_pos_iff.mpr empty
    simp only [List.length_append, List.length_take, List.length_replicate, List.length_drop,
      if_neg empty]
    omega

theorem overwrite_end (content bytes : Bytes) :
    overwrite content content.length bytes = content ++ bytes := by
  simp [overwrite]

@[simp] theorem overwrite_nil (content : Bytes) (pos : Nat) :
    overwrite content pos [] = content := by
  simp [overwrite]

theorem overwrite_middle (before old after new : Bytes) (same : new.length = old.length) :
    overwrite (before ++ old ++ after) before.length new = before ++ new ++ after := by
  have inside : before.length - (before ++ old ++ after).length = 0 := by simp
  have kept : (before ++ old ++ after).take before.length = before := by
    rw [List.append_assoc, List.take_left]
  have rest : (before ++ old ++ after).drop (before.length + new.length) = after := by
    rw [same, ← List.length_append, List.drop_left]
  rw [overwrite, inside, ite_self, kept, rest, List.replicate_zero, List.append_nil]

theorem overwrite_part (before old after new : Bytes) (same : new.length = old.length) (n : Nat) :
    overwrite (before ++ old ++ after) before.length (new.take n) =
      before ++ (new.take n ++ old.drop n) ++ after := by
  have cut : before ++ old ++ after = before ++ old.take n ++ (old.drop n ++ after) := by
    rw [List.append_assoc before (old.take n), ← List.append_assoc (old.take n),
      List.take_append_drop, List.append_assoc]
  rw [cut, overwrite_middle _ _ _ _ (by rw [List.length_take, List.length_take, same])]
  simp only [List.append_assoc]

/-- Texts that differ in one byte: overwriting one by the other is done at once, wherever it
stops. -/
theorem part_of_one_byte (front back : Bytes) (old new : UInt8) (n : Nat) :
    (front ++ new :: back).take n ++ (front ++ old :: back).drop n =
      if n ≤ front.length then front ++ old :: back else front ++ new :: back := by
  by_cases before : n ≤ front.length
  · rw [if_pos before, List.take_append_of_le_length before, List.drop_append_of_le_length before,
      ← List.append_assoc, List.take_append_drop]
  · obtain ⟨k, rfl⟩ : ∃ k, n = front.length + (k + 1) :=
      ⟨n - front.length - 1, by omega⟩
    rw [if_neg before, List.take_length_add_append, List.drop_length_add_append,
      List.take_succ_cons, List.drop_succ_cons, List.append_assoc, List.cons_append,
      List.take_append_drop]

structure Stream where
  isOpen : Bool := false
  key : PathKey := .named []
  pos : Nat := 0
  failbit : Bool := false
  eofbit : Bool := false
  deriving DecidableEq, Repr

namespace Stream

def good (s : Stream) : Bool := !s.failbit && !s.eofbit

def ready (s : Stream) : Bool := s.isOpen && s.good

/-- `open(path, in | out)`: the file must exist; a failed open sets the fail bit. -/
def openInOut (s : Stream) (fs : FileSystem) (path : Bytes) : Stream :=
  if !s.isOpen && fs.openable (resolve path) && (fs.files (resolve path)).isSome then
    { isOpen := true, key := resolve path }
  else { s with failbit := true }

/-- `open(path, out)`: the file is created, or emptied when it exists. -/
def openOut (s : Stream) (fs : FileSystem) (path : Bytes) : Stream × FileSystem :=
  if !s.isOpen && fs.openable (resolve path) then
    ({ isOpen := true, key := resolve path }, fs.put (resolve path) [] (Nat.zero_le _))
  else ({ s with failbit := true }, fs)

def close (s : Stream) : Stream :=
  if s.isOpen then { s with isOpen := false } else { s with failbit := true }

/-- The bytes that a full disk kept in the buffer are not modelled: with them the next write
fails again. -/
def clear (s : Stream) : Stream := { s with failbit := false, eofbit := false }

/-- An open stream stays on its file when this gets another name. -/
def rekey (newKey : PathKey → PathKey) (s : Stream) : Stream :=
  if s.isOpen then { s with key := newKey s.key } else s

/-- `seekg(0, beg)`, which first drops the end-of-file bit. -/
def seekgBeg (s : Stream) : Stream :=
  if s.failbit then { s with eofbit := false } else { s with pos := 0, eofbit := false }

def seekgEnd (s : Stream) (fs : FileSystem) : Stream :=
  if s.failbit then { s with eofbit := false }
  else { s with pos := (fs.content s.key).length, eofbit := false }

/-- The position, or `none` for the answer -1. -/
def tellg (s : Stream) : Option Nat := if s.good then some s.pos else none

/-- `read(buf, n)`: the bytes when all `n` of them were there. -/
def read (s : Stream) (fs : FileSystem) (n : Nat) : Option Bytes × Stream :=
  if s.ready then
    let rest := (fs.content s.key).drop s.pos
    if n ≤ rest.length then (some (rest.take n), { s with pos := s.pos + n })
    else (none, { s with pos := s.pos + rest.length, failbit := true, eofbit := true })
  else (none, { s with failbit := true })

/-- `seekp(off, beg)` for an unsigned 64-bit `off`, converted to a signed offset. -/
def seekp (s : Stream) (off : Nat) : Stream :=
  if s.failbit then s
  else if off < 2 ^ 63 then { s with pos := off } else { s with failbit := true }

def seekpEnd (s : Stream) (fs : FileSystem) : Stream :=
  if s.failbit then s else { s with pos := (fs.content s.key).length }

def tellp (s : Stream) : Option Nat := if s.failbit then none else some s.pos

/-- `write` followed by `flush`. -/
def write (s : Stream) (fs : FileSystem) (bytes : Bytes) : Stream × FileSystem :=
  if s.ready then
    let out := bytes.take (fs.capacity - s.pos)
    ({ s with pos := s.pos + out.length, failbit := decide (out.length < bytes.length) },
      fs.put s.key (overwrite (fs.content s.key) s.pos out)
        (overwrite_length_le (fs.content_length_le s.key) (List.length_take_le _ _)))
  else ({ s with failbit := true }, fs)

/-- The same on a device that takes no more than `room` bytes in this file. -/
def writeUpTo (room : Nat) (s : Stream) (fs : FileSystem) (bytes : Bytes) : Stream × FileSystem :=
  if s.ready then
    let out := bytes.take (min room fs.capacity - s.pos)
    ({ s with pos := s.pos + out.length, failbit := decide (out.length < bytes.length) },
      fs.put s.key (overwrite (fs.content s.key) s.pos out)
        (overwrite_length_le (fs.content_length_le s.key)
          (Nat.le_trans (List.length_take_le _ _)
            (Nat.sub_le_sub_right (Nat.min_le_right _ _) _))))
  else ({ s with failbit := true }, fs)

theorem ready_iff {s : Stream} :
    s.ready = true ↔ s.isOpen = true ∧ s.failbit = false ∧ s.eofbit = false := by
  simp [ready, good]

section Write

variable (s : Stream) (fs : FileSystem) (bytes : Bytes)

theorem write_of_not_ready (h : s.ready = false) :
    s.write fs bytes = ({ s with failbit := true }, fs) := by
  simp [write, h]

theorem write_of_failed (failed : s.failbit = true) : s.write fs bytes = (s, fs) := by
  have notReady : s.ready = false := by simp [ready, good, failed]
  rw [write_of_not_ready s fs bytes notReady, ← failed]

theorem write_content (h : s.ready = true) :
    (s.write fs bytes).2.content s.key =
      overwrite (fs.content s.key) s.pos (bytes.take (fs.capacity - s.pos)) := by
  simp [write, h]

theorem write_of_fits (h : s.ready = true) (fits : s.pos + bytes.length ≤ fs.capacity) :
    (s.write fs bytes).1 = { s with pos := s.pos + bytes.length } ∧
      (s.write fs bytes).2.content s.key = overwrite (fs.content s.key) s.pos bytes := by
  have whole : bytes.take (fs.capacity - s.pos) = bytes := List.take_of_length_le (by omega)
  obtain ⟨-, failbit, -⟩ := ready_iff.mp h
  simp [write, h, whole, failbit]

@[simp] theorem write_key : (s.write fs bytes).1.key = s.key := by
  unfold write
  split_ifs <;> rfl

@[simp] theorem write_isOpen : (s.write fs bytes).1.isOpen = s.isOpen := by
  unfold write
  split_ifs <;> rfl

theorem pos_le_write : s.pos ≤ (s.write fs bytes).1.pos := by
  unfold write
  split_ifs
  · exact Nat.le_add_right _ _
  · exact Nat.le_refl _

/-- Writing does not bring a stream back. -/
theorem ready_of_write_ready (h : (s.write fs bytes).1.ready = true) : s.ready = true := by
  by_contra notReady
  rw [write_of_not_ready s fs bytes (Bool.eq_false_iff.mpr notReady)] at h
  simp [ready, good] at h

@[simp] theorem write_capacity : (s.write fs bytes).2.capacity = fs.capacity := by
  unfold write
  split_ifs <;> rfl

@[simp] theorem write_openable : (s.write fs bytes).2.openable = fs.openable := by
  unfold write
  split_ifs <;> rfl

theorem write_files_of_ne {other : PathKey} (ne : other ≠ s.key) :
    (s.write fs bytes).2.files other = fs.files other := by
  unfold write
  split_ifs
  · simp [FileSystem.put, Function.update_of_ne ne]
  · rfl

theorem write_files_isSome (h : (fs.files s.key).isSome) :
    ((s.write fs bytes).2.files s.key).isSome := by
  unfold write
  split_ifs
  · simp [FileSystem.files_put_self]
  · exact h

end Write

section Rekey

variable {s : Stream} {newKey : PathKey → PathKey}

@[simp] theorem rekey_isOpen : (s.rekey newKey).isOpen = s.isOpen := by
  unfold rekey
  split <;> rfl

theorem rekey_of_isOpen (isOpen : s.isOpen = true) :
    s.rekey newKey = { s with key := newKey s.key } := if_pos isOpen

theorem rekey_eq_self (same : s.isOpen = true → newKey s.key = s.key) : s.rekey newKey = s := by
  unfold rekey
  split
  · next isOpen => rw [same isOpen]
  · rfl

end Rekey

section Seek

variable (s : Stream) (fs : FileSystem)

@[simp] theorem seekp_key (off : Nat) : (s.seekp off).key = s.key := by
  unfold seekp
  split_ifs <;> rfl

@[simp] theorem seekp_isOpen (off : Nat) : (s.seekp off).isOpen = s.isOpen := by
  unfold seekp
  split_ifs <;> rfl

@[simp] theorem seekpEnd_key : (s.seekpEnd fs).key = s.key := by
  unfold seekpEnd
  split_ifs <;> rfl

@[simp] theorem seekpEnd_isOpen : (s.seekpEnd fs).isOpen = s.isOpen := by
  unfold seekpEnd
  split_ifs <;> rfl

theorem seekp_of_ready {off : Nat} (h : s.ready = true) (bound : off < 2 ^ 63) :
    s.seekp off = { s with pos := off } := by
  simp only [seekp, (ready_iff.mp h).2.1, Bool.false_eq_true, if_false, if_pos bound]

theorem seekp_beyond {off : Nat} (beyond : ¬ off < 2 ^ 63) : (s.seekp off).ready = false := by
  unfold seekp
  split_ifs with failed <;> simp [ready, good, failed]

theorem seekpEnd_of_ready (h : s.ready = true) :
    s.seekpEnd fs = { s with pos := (fs.content s.key).length } := by
  simp [seekpEnd, (ready_iff.mp h).2.1]

/-- Moving a stream that cannot be written to does not bring it back. -/
theorem seekp_not_ready {off : Nat} (h : s.ready = false) : (s.seekp off).ready = false := by
  unfold seekp
  split_ifs <;> simp_all [ready, good]

theorem seekpEnd_not_ready (h : s.ready = false) :
    (s.seekpEnd fs).ready = false := by
  unfold seekpEnd
  split_ifs <;> simp_all [ready, good]

end Seek

section Read

variable (s : Stream) (fs : FileSystem)

@[simp] theorem read_key (n : Nat) : (s.read fs n).2.key = s.key := by
  simp only [read]
  split_ifs <;> rfl

@[simp] theorem read_isOpen (n : Nat) : (s.read fs n).2.isOpen = s.isOpen := by
  simp only [read]
  split_ifs <;> rfl

theorem read_of_le {n : Nat} (h : s.ready = true)
    (enough : n ≤ ((fs.content s.key).drop s.pos).length) :
    s.read fs n = (some (((fs.content s.key).drop s.pos).take n), { s with pos := s.pos + n }) := by
  simp only [read, if_pos h, if_pos enough]

theorem read_eq_some {s s' : Stream} {fs : FileSystem} {n : Nat} {bytes : Bytes}
    (h : s.read fs n = (some bytes, s')) :
    s' = { s with pos := s.pos + n } ∧ n ≤ ((fs.content s.key).drop s.pos).length := by
  simp only [read] at h
  split_ifs at h with ready enough
  · cases h
    exact ⟨rfl, enough⟩
  · cases h
  · cases h

theorem read_of_lt {n : Nat} (h : s.ready = true)
    (short : ((fs.content s.key).drop s.pos).length < n) :
    (s.read fs n).1 = none ∧ (s.read fs n).2.failbit = true := by
  have incomplete : ¬ n ≤ ((fs.content s.key).drop s.pos).length := by omega
  simp only [read, if_pos h, if_neg incomplete, and_self]

end Read

section Open

variable (s : Stream) (fs : FileSystem) (path : Bytes)

theorem openInOut_of_exists (closed : s.isOpen = false)
    (allowed : fs.openable (resolve path) = true) (present : (fs.files (resolve path)).isSome) :
    s.openInOut fs path = { isOpen := true, key := resolve path } := by
  simp [openInOut, closed, allowed, present]

theorem openInOut_key (closed : s.isOpen = false) (opened : (s.openInOut fs path).isOpen = true) :
    (s.openInOut fs path).key = resolve path := by
  unfold openInOut at opened ⊢
  split_ifs at opened ⊢
  · rfl
  · simp [closed] at opened

theorem openInOut_of_absent (absent : fs.files (resolve path) = none) :
    s.openInOut fs path = { s with failbit := true } := by
  simp [openInOut, absent]

@[simp] theorem close_isOpen : s.close.isOpen = false := by
  unfold close
  split_ifs with wasOpen
  · rfl
  · exact Bool.eq_false_iff.mpr wasOpen

theorem openOut_others {other : PathKey} (ne : other ≠ resolve path) :
    (s.openOut fs path).2.files other = fs.files other ∧
      (s.openOut fs path).2.openable = fs.openable := by
  unfold openOut
  split_ifs
  · exact ⟨FileSystem.files_put_of_ne fs _ [] (Nat.zero_le _) ne, rfl⟩
  · exact ⟨rfl, rfl⟩

theorem openOut_key (closed : s.isOpen = false) (opened : (s.openOut fs path).1.isOpen = true) :
    (s.openOut fs path).1.key = resolve path := by
  unfold openOut at opened ⊢
  split_ifs at opened ⊢
  · rfl
  · simp [closed] at opened

@[simp] theorem openOut_capacity : (s.openOut fs path).2.capacity = fs.capacity := by
  unfold openOut
  split_ifs <;> rfl

theorem openOut_of_openable (closed : s.isOpen = false)
    (allowed : fs.openable (resolve path) = true) :
    s.openOut fs path =
      ({ isOpen := true, key := resolve path }, fs.put (resolve path) [] (Nat.zero_le _)) := by
  simp [openOut, closed, allowed]

end Open

/-- What every operation on an open stream leaves alone: the stream stays on its
path and only the file it is on may change. -/
structure Confined (s : Stream) (fs : FileSystem) (s' : Stream) (fs' : FileSystem) : Prop where
  key : s'.key = s.key
  isOpen : s'.isOpen = s.isOpen
  capacity : fs'.capacity = fs.capacity
  openable : fs'.openable = fs.openable
  others : ∀ other, other ≠ s.key → fs'.files other = fs.files other
  present : (fs.files s.key).isSome → (fs'.files s.key).isSome

namespace Confined

variable {s s' s'' : Stream} {fs fs' fs'' : FileSystem}

/-- Moving or reading a stream does not touch the file system. -/
theorem moved (key : s'.key = s.key) (isOpen : s'.isOpen = s.isOpen) : Confined s fs s' fs :=
  ⟨key, isOpen, rfl, rfl, fun _ _ => rfl, id⟩

theorem refl (s : Stream) (fs : FileSystem) : Confined s fs s fs := moved rfl rfl

theorem trans (first : Confined s fs s' fs') (second : Confined s' fs' s'' fs'') :
    Confined s fs s'' fs'' where
  key := second.key.trans first.key
  isOpen := second.isOpen.trans first.isOpen
  capacity := second.capacity.trans first.capacity
  openable := second.openable.trans first.openable
  others other ne := (second.others other (first.key ▸ ne)).trans (first.others other ne)
  present h := first.key ▸ second.present (first.key.symm ▸ first.present h)

theorem sameAt (confined : Confined s fs s' fs') {key : PathKey} (other : key ≠ s.key) :
    FileSystem.SameAt key fs fs' :=
  ⟨confined.others key other, congrFun confined.openable key⟩

theorem write (s : Stream) (fs : FileSystem) (bytes : Bytes) :
    Confined s fs (s.write fs bytes).1 (s.write fs bytes).2 :=
  ⟨write_key s fs bytes, write_isOpen s fs bytes, write_capacity s fs bytes,
    write_openable s fs bytes, fun _ ne => write_files_of_ne s fs bytes ne,
    write_files_isSome s fs bytes⟩

end Confined

/-- Of `offset` bytes that were written to a new file as many got there as the limit allows. When
these were all of them the stream stands behind the last one, and else it has failed. -/
structure Cut (limit offset : Nat) (s : Stream) (fs : FileSystem) : Prop where
  length : (fs.content s.key).length = min offset limit
  stream : if offset ≤ limit then s.ready = true ∧ s.pos = offset else s.failbit = true

section Cut

variable {s : Stream} {fs : FileSystem} {limit offset room : Nat}

theorem Cut.tellp (cut : Cut limit offset s fs) :
    s.tellp = if offset ≤ limit then some offset else none := by
  have stream := cut.stream
  by_cases fits : offset ≤ limit
  · simp only [if_pos fits] at stream ⊢
    simp [Stream.tellp, (ready_iff.mp stream.1).2.1, stream.2]
  · simp only [if_neg fits] at stream ⊢
    simp [Stream.tellp, stream]

theorem writeUpTo_of_capacity (same : fs.capacity = room) (s : Stream) (bytes : Bytes) :
    s.writeUpTo room fs bytes = s.write fs bytes := by
  simp only [writeUpTo, write, ← same, Nat.min_self]

theorem writeUpTo_content (ready : s.ready = true) (n : Nat) (bytes : Bytes)
    (fits : s.pos + bytes.length ≤ fs.capacity) :
    (s.writeUpTo (s.pos + n) fs bytes).2.content s.key =
      overwrite (fs.content s.key) s.pos (bytes.take n) := by
  have same : bytes.take (min (s.pos + n) fs.capacity - s.pos) = bytes.take n := by
    rcases Nat.le_total n bytes.length with some' | all
    · congr 1
      omega
    · rw [List.take_of_length_le all, List.take_of_length_le (by omega)]
  simp only [writeUpTo, if_pos ready, FileSystem.content_put_self, same]

theorem writeUpTo_confined (room : Nat) (s : Stream) (fs : FileSystem) (bytes : Bytes) :
    Confined s fs (s.writeUpTo room fs bytes).1 (s.writeUpTo room fs bytes).2 := by
  unfold writeUpTo
  split_ifs
  · exact ⟨rfl, rfl, rfl, rfl, fun other ne => by simp [FileSystem.put, Function.update_of_ne ne],
      fun _ => by simp [FileSystem.files_put_self]⟩
  · exact Confined.moved rfl rfl

/-- Writing on: what there is no room for is cut off. -/
theorem Cut.write (within : min room fs.capacity = limit) (cut : Cut limit offset s fs)
    (bytes : Bytes) :
    Cut limit (offset + bytes.length) (s.writeUpTo room fs bytes).1
        (s.writeUpTo room fs bytes).2 ∧
      (s.writeUpTo room fs bytes).2.content s.key = (fs.content s.key ++ bytes).take limit := by
  obtain ⟨length, stream⟩ := cut
  by_cases before : offset ≤ limit
  · simp only [if_pos before, Nat.min_eq_left before] at stream length
    obtain ⟨ready, rfl⟩ := stream
    have result : (s.writeUpTo room fs bytes).2.content s.key =
        (fs.content s.key ++ bytes).take limit := by
      rw [List.take_append, List.take_of_length_le (by omega), length]
      simp only [writeUpTo, if_pos ready, within, FileSystem.content_put_self]
      rw [← length, overwrite_end]
    refine ⟨⟨?_, ?_⟩, result⟩
    · rw [(writeUpTo_confined room s fs bytes).key, result, List.length_take, List.length_append,
        length, Nat.min_comm]
    · obtain ⟨isOpen, -, eofbit⟩ := ready_iff.mp ready
      have moved : (s.writeUpTo room fs bytes).1 =
          { s with
            pos := s.pos + (bytes.take (limit - s.pos)).length
            failbit := decide ((bytes.take (limit - s.pos)).length < bytes.length) } := by
        simp only [writeUpTo, if_pos ready, within]
      rw [moved, List.length_take]
      by_cases fits : s.pos + bytes.length ≤ limit
      · have whole : min (limit - s.pos) bytes.length = bytes.length := by omega
        rw [if_pos fits, whole]
        simp [ready_iff, isOpen, eofbit]
      · have short : min (limit - s.pos) bytes.length < bytes.length := by omega
        rw [if_neg fits]
        exact decide_eq_true short
  · simp only [if_neg before] at stream
    have notReady : s.ready = false := by simp [ready, good, stream]
    have later : ¬ offset + bytes.length ≤ limit := by omega
    have full : (fs.content s.key).length = limit := by omega
    simp only [writeUpTo, notReady, Bool.false_eq_true, if_false]
    refine ⟨⟨by simp only; omega, by rw [if_neg later]⟩, ?_⟩
    rw [List.take_append_of_le_length (by omega), List.take_of_length_le (by omega)]

end Cut

end Stream

end FileStream
