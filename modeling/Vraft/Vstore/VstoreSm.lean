import Mathlib
import Vraft.Raft.Node
import Vraft.Util.Decoding

/-!
# The key-value state machine

`VstoreSm` of `vstore/vstore_sm.cc` and the `KV` of `raft/kv.h` it is given.  The index and
the term of the last entry are kept under two keys of the same database.  A key of 128
bytes or more is read back, but the value behind it is looked for too early.
-/

namespace Vraft.Vstore

open Raw Std

/-! ## Keys with values -/

/-- `KV`: what an entry of the store writes. -/
structure KV where
  key : Bytes
  value : Bytes
  deriving DecidableEq

/-- A string in what is left of `len` bytes; without one the field stays empty. -/
def readField {ε : Type} (len : ℤ) : Reader ε Bytes := do
  let found ← fun mem cursor => readString2 (len - cursor.pos) mem cursor
  pure (found.getD [])

namespace KV

/-- `KV::MaxBytes`. -/
def maxBytes (kv : KV) : ℕ :=
  (2 * 4 + kv.key.length) + (2 * 4 + kv.value.length)

/-- The key and the value, each behind its length. -/
def toBytes (kv : KV) : Bytes :=
  encodeString2 kv.key ++ encodeString2 kv.value

/-- The bytes, if the room for them can be told by an `int32_t`. -/
def toString (kv : KV) : Option Bytes :=
  if kv.maxBytes < 2 ^ 31 then some kv.toBytes else none

/-- `KV::FromString` on a pointer. -/
def decoder {ε : Type} (len : ℤ) : Reader ε KV := do
  let key ← readField len
  let value ← readField len
  pure ⟨key, value⟩

/-- A fresh object after `FromString`, with whatever follows the bytes in memory. -/
def fromString (bytes : Bytes) (beyond : Memory) : KV :=
  match (decoder bytes.length : Reader Empty KV) (Memory.follow bytes beyond) Cursor.start with
  | .ok (kv, _) => kv
  | .error impossible => nomatch impossible

end KV

/-! ## The database -/

/-- The database, as a map that lasts. -/
abbrev Db := ExtTreeMap Bytes Bytes

/-- `"VSTORE_LAST_INDEX_KEY"`. -/
def vsLastIndexKey : Bytes :=
  [86, 83, 84, 79, 82, 69, 95, 76, 65, 83, 84, 95, 73, 78, 68, 69, 88, 95, 75, 69, 89]

/-- `"VSTORE_LAST_TERM_KEY"`. -/
def vsLastTermKey : Bytes :=
  [86, 83, 84, 79, 82, 69, 95, 76, 65, 83, 84, 95, 84, 69, 82, 77, 95, 75, 69, 89]

/-- The asserts on what the machine has written for itself. -/
inductive SmFault
  /-- The last index does not have four bytes. -/
  | lastIndex
  /-- The last term does not have eight bytes. -/
  | lastTerm
  deriving DecidableEq, Repr

namespace VstoreSm

/-- The constructor, on what is stored under its path. -/
def make (stored : Option Db) : Db :=
  stored.getD ∅

/-- A batch of three puts. -/
def apply (db : Db) (entry : LogEntry) (beyond : Memory) : Db :=
  let kv := KV.fromString entry.appendEntry.value beyond
  ((db.insert vsLastIndexKey (encodeFixed32 (entry.index % 2 ^ 32))).insert vsLastTermKey
    (encodeFixed64 (entry.appendEntry.term % 2 ^ 64))).insert kv.key kv.value

/-- `VstoreSm::LastIndex`. -/
def lastIndex (db : Db) : Except SmFault ℕ :=
  match db[vsLastIndexKey]? with
  | some value => if value.length = 4 then .ok (decodeFixed32 value) else .error .lastIndex
  | none => .ok 0

/-- `VstoreSm::LastTerm`. -/
def lastTerm (db : Db) : Except SmFault ℕ :=
  match db[vsLastTermKey]? with
  | some value => if value.length = 8 then .ok (decodeFixed64 value) else .error .lastTerm
  | none => .ok 0

/-- The number that is returned, and the value that is set. -/
def get (db : Db) (key : Bytes) : ℤ × Option Bytes :=
  match db[key]? with
  | some value => (0, some value)
  | none => (-2, none)

end VstoreSm

/-! ## What it is for -/

/-- An entry that has been applied: its index, its term, and its key with a value. -/
structure Applied where
  index : ℕ
  term : ℕ
  kv : KV

/-- The last value for a key. -/
def lastValue (applied : List Applied) (key : Bytes) : Option Bytes :=
  (applied.filter fun entry => entry.kv.key = key).getLast?.map fun entry => entry.kv.value

/-- What `Get` should answer. -/
def answer (applied : List Applied) (key : Bytes) : ℤ × Option Bytes :=
  match lastValue applied key with
  | some value => (0, some value)
  | none => (-2, none)

/-- The index and the term of the last entry. -/
def lastApplied (applied : List Applied) : StateMachine :=
  applied.getLast?.elim ⟨0, 0⟩ fun entry => ⟨entry.index, entry.term⟩

/-- Runs in which entries with increasing indices are applied, and the database is closed
and opened again. -/
inductive Run (condition : KV → Prop) : Db → List Applied → Prop
  | start : Run condition (VstoreSm.make none) []
  | apply {db : Db} {applied : List Applied} {entry : LogEntry} {kv : KV} {beyond : Memory}
      (before : Run condition db applied) (increasing : ∀ e ∈ applied, e.index < entry.index)
      (index : entry.index < 2 ^ 32) (term : entry.appendEntry.term < 2 ^ 64)
      (encoded : kv.toString = some entry.appendEntry.value) (meets : condition kv) :
      Run condition (VstoreSm.apply db entry beyond)
        (applied ++ [⟨entry.index, entry.appendEntry.term, kv⟩])
  | reopen {db : Db} {applied : List Applied} (before : Run condition db applied) :
      Run condition (VstoreSm.make (some db)) applied

/-- What a machine answers after some entries. -/
structure Faithful (db : Db) (applied : List Applied) (key : Bytes) : Prop where
  get : VstoreSm.get db key = answer applied key
  lastIndex : VstoreSm.lastIndex db = .ok (lastApplied applied).lastIndex
  lastTerm : VstoreSm.lastTerm db = .ok (lastApplied applied).lastTerm

/-- The key is not one of the machine's own. -/
structure Own (key : Bytes) : Prop where
  index : key ≠ vsLastIndexKey
  term : key ≠ vsLastTermKey

/-- The key is short enough for the decoder, and not one of the machine's own. -/
structure Plain (kv : KV) : Prop extends Own kv.key where
  short : kv.key.length < 128

/-! ## Decoding -/

section Decoding

variable {ε : Type} {mem : Memory} {cursor : Cursor}

theorem readField_holds {text : Bytes} {len : ℕ} (bound : len < 2 ^ 31)
    (small : 1 + text.length < 2 ^ 31) (holds : mem.Holds cursor.pos (encodeString2 text))
    (room : cursor.pos + (encodeString2 text).length ≤ len) :
    ∃ moved, (readField len : Reader ε Bytes) mem cursor = .ok (text, moved) ∧
      moved.pos = cursor.pos + (1 + text.length) := by
  have rest : (len : ℤ) - cursor.pos = (len - cursor.pos : ℕ) := by omega
  have enough : (encodeString2 text).length ≤ len - cursor.pos := by omega
  have found := @readString2_holds ε mem cursor text _ small (by omega) holds enough
  rw [← rest] at found
  exact ⟨_, Reader.bind_of_ok found, rfl⟩

theorem length_encodeString2 {text : Bytes} (short : text.length < 128) :
    (encodeString2 text).length = 1 + text.length := by
  have single := (length_encodeVarint32_eq_one_iff text.length).mpr short
  rw [encodeString2, Nat.mod_eq_of_lt (by omega), List.length_append, single]

/-- A value behind a short key is read back. -/
theorem fromString_toString {kv : KV} {bytes : Bytes} (short : kv.key.length < 128)
    (encoded : kv.toString = some bytes) (beyond : Memory) : KV.fromString bytes beyond = kv := by
  unfold KV.toString at encoded
  split at encoded
  · rename_i room
    obtain rfl := Option.some.inj encoded
    rw [KV.maxBytes] at room
    have key_length := length_encodeString2 short
    have prefix_le := length_encodeVarint32_le (kv.value.length % 2 ^ 32)
    have total : kv.toBytes.length =
        (encodeString2 kv.key).length + (encodeString2 kv.value).length :=
      List.length_append
    have value_length : (encodeString2 kv.value).length =
        (encodeVarint32 (kv.value.length % 2 ^ 32)).length + kv.value.length := List.length_append
    obtain ⟨key, value⟩ := Memory.holds_append.mp (Memory.follow_holds kv.toBytes beyond)
    obtain ⟨moved, first, pos⟩ := @readField_holds Empty _ Cursor.start _ kv.toBytes.length
      (by omega) (by omega) key (by simp only [Cursor.start]; omega)
    have at_value : moved.pos = 0 + (encodeString2 kv.key).length := by
      rw [pos, key_length]
      rfl
    rw [← at_value] at value
    obtain ⟨final, second, -⟩ := @readField_holds Empty _ moved _ kv.toBytes.length (by omega)
      (by omega) value (by omega)
    have decoded : (KV.decoder kv.toBytes.length : Reader Empty KV)
        (Memory.follow kv.toBytes beyond) Cursor.start = .ok (kv, final) := by
      rw [KV.decoder, Reader.bind_of_ok first, Reader.bind_of_ok second]
      rfl
    rw [KV.fromString, decoded]
  · contradiction

end Decoding

/-! ## Runs -/

section Applying

variable {db : Db} {applied : List Applied} {entry : LogEntry} {kv : KV} {beyond : Memory}

theorem lastValue_concat (applied : List Applied) (last : Applied) (key : Bytes) :
    lastValue (applied ++ [last]) key =
      if last.kv.key = key then some last.kv.value else lastValue applied key := by
  rw [lastValue, List.filter_append]
  split_ifs with same
  · simp [same]
  · simp [same, lastValue]

theorem answer_concat (applied : List Applied) (last : Applied) (key : Bytes) :
    answer (applied ++ [last]) key =
      if last.kv.key = key then (0, some last.kv.value) else answer applied key := by
  rw [answer, lastValue_concat]
  split_ifs with same
  · rfl
  · rfl

theorem lastApplied_concat (applied : List Applied) (last : Applied) :
    lastApplied (applied ++ [last]) = ⟨last.index, last.term⟩ := by
  rw [lastApplied, List.getLast?_concat]
  rfl

/-- What is stored after an entry. -/
theorem getElem?_apply (decoded : KV.fromString entry.appendEntry.value beyond = kv) (k : Bytes) :
    (VstoreSm.apply db entry beyond)[k]? =
      if kv.key = k then some kv.value
      else if vsLastTermKey = k then some (encodeFixed64 (entry.appendEntry.term % 2 ^ 64))
      else if vsLastIndexKey = k then some (encodeFixed32 (entry.index % 2 ^ 32))
      else db[k]? := by
  rw [VstoreSm.apply, decoded]
  simp only [ExtTreeMap.getElem?_insert, LawfulEqCmp.compare_eq_iff_eq]

theorem own_keys : vsLastTermKey ≠ vsLastIndexKey := by
  decide

theorem lastIndex_apply (decoded : KV.fromString entry.appendEntry.value beyond = kv)
    (other : kv.key ≠ vsLastIndexKey) (index : entry.index < 2 ^ 32) :
    VstoreSm.lastIndex (VstoreSm.apply db entry beyond) = .ok entry.index := by
  have value := decodeFixed32_encodeFixed32 index []
  rw [List.append_nil] at value
  rw [VstoreSm.lastIndex, getElem?_apply decoded, if_neg other, if_neg own_keys, if_pos rfl,
    Nat.mod_eq_of_lt index]
  dsimp only
  rw [if_pos (encodeFixed32_length _), value]

theorem lastTerm_apply (decoded : KV.fromString entry.appendEntry.value beyond = kv)
    (other : kv.key ≠ vsLastTermKey) (term : entry.appendEntry.term < 2 ^ 64) :
    VstoreSm.lastTerm (VstoreSm.apply db entry beyond) = .ok entry.appendEntry.term := by
  have value := decodeFixed64_encodeFixed64 term []
  rw [List.append_nil] at value
  rw [VstoreSm.lastTerm, getElem?_apply decoded, if_neg other, if_pos rfl, Nat.mod_eq_of_lt term]
  dsimp only
  rw [if_pos (encodeFixed64_length _), value]

theorem get_apply (decoded : KV.fromString entry.appendEntry.value beyond = kv) {key : Bytes}
    (own : Own key) : VstoreSm.get (VstoreSm.apply db entry beyond) key =
      if kv.key = key then (0, some kv.value) else VstoreSm.get db key := by
  rw [VstoreSm.get, getElem?_apply decoded, if_neg own.term.symm, if_neg own.index.symm]
  split_ifs with same
  · rfl
  · rfl

/-- In every run in which keys are short and none of them, nor the key that is asked for, is
one of the machine's own, the machine is faithful. -/
theorem faithful_of_run (run : Run Plain db applied) {key : Bytes} (own : Own key) :
    Faithful db applied key := by
  induction run with
  | start => exact ⟨rfl, rfl, rfl⟩
  | @apply db applied entry kv beyond before _ index term encoded plain ih =>
      have decoded := fromString_toString plain.short encoded beyond
      constructor
      · rw [get_apply decoded own, answer_concat, ih.get]
      · rw [lastIndex_apply decoded plain.index index, lastApplied_concat]
      · rw [lastTerm_apply decoded plain.term term, lastApplied_concat]
  | reopen _ ih => exact ih

end Applying

/-! ## Examples -/

/-- A data entry of the first term. -/
def entryOf (index : ℕ) (kv : KV) : LogEntry :=
  ⟨index, ⟨1, .data, kv.toBytes⟩⟩

theorem run_single {condition : KV → Prop} {kv : KV} (meets : condition kv)
    (encoded : kv.toString = some kv.toBytes) (beyond : Memory) :
    Run condition (VstoreSm.apply ∅ (entryOf 1 kv) beyond) [⟨1, 1, kv⟩] :=
  .apply .start nofun (by norm_num [entryOf]) (by norm_num [entryOf]) encoded meets

/-- A key is written, and overwritten after the database has been opened again. -/
theorem faithful_overwritten : ∃ db,
    Run Plain db [⟨1, 1, ⟨[107], [118]⟩⟩, ⟨2, 1, ⟨[107], [119]⟩⟩] ∧
      Faithful db [⟨1, 1, ⟨[107], [118]⟩⟩, ⟨2, 1, ⟨[107], [119]⟩⟩] [107] ∧
        VstoreSm.get db [107] = (0, some [119]) := by
  have own : Own [107] := ⟨by decide, by decide⟩
  have plain (value : Bytes) : Plain ⟨[107], value⟩ := ⟨own, (by decide : 1 < 128)⟩
  have reopened := (run_single (plain [118]) (by decide) fun _ => 0).reopen
  have run := @Run.apply Plain _ _ (entryOf 2 ⟨[107], [119]⟩) ⟨[107], [119]⟩ (fun _ => 0) reopened
    (by simp [entryOf]) (by norm_num [entryOf]) (by norm_num [entryOf]) (by decide) (plain [119])
  have faithful : Faithful _ _ [107] := faithful_of_run run own
  exact ⟨_, run, faithful, faithful.get⟩

/-- The prefix of a value is looked for inside a key of 128 bytes. -/
theorem get_long_key :
    VstoreSm.get (VstoreSm.apply ∅ (entryOf 1 ⟨List.replicate 128 1, [118]⟩) fun _ => 0)
      (List.replicate 128 1) = (0, some [1]) := by
  decide +kernel

theorem not_faithful : ¬∀ db applied, Run (fun _ => True) db applied →
    ∀ key, Faithful db applied key := by
  intro faithful
  have encoded : (KV.mk (List.replicate 128 1) [118]).toString =
      some (KV.mk (List.replicate 128 1) [118]).toBytes := by decide +kernel
  have run : Run (fun _ => True) _ _ := run_single trivial encoded fun _ => 0
  have found := (faithful _ _ run (List.replicate 128 1)).get
  rw [get_long_key] at found
  exact absurd found (by decide +kernel)

end Vraft.Vstore
