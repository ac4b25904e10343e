import Vraft.RaftLog.Record
import Vraft.Lib.OrderedStore
import Mathlib.Data.Finset.Basic

/-!
# RaftLog

The log on disk.  Entries live in one database and the config entries among them
once more in a second one, next to the configuration the node was first started
with.  Every operation is given with the writes it makes, in order; a write is a
batch that one of the databases carries out as a whole.  `first_`, `last_`,
`append_`, the running checksum and the indices of the config entries are cached
in memory.  Tracing and the callbacks into the config manager are left out: the
latter belong to the node.
-/

namespace Vraft

/-- `leveldb::WriteBatch`: writes that are made together. -/
abbrev Batch := List (OrderedStore.Edit Bytes Bytes)

/-- One write to one of the databases. -/
inductive Write
  | db (batch : Batch)
  | configDb (batch : Batch)
  deriving DecidableEq, Repr

/-- The two databases. -/
structure Stores where
  db : List (Bytes × Bytes)
  configDb : List (Bytes × Bytes)
  deriving DecidableEq, Repr

namespace Stores

/-- Two databases that have just been created. -/
def empty : Stores := ⟨[], []⟩

/-- The databases after one write. -/
def perform (stores : Stores) : Write → Stores
  | .db batch => { stores with db := OrderedStore.write u32Compare stores.db batch }
  | .configDb batch =>
      { stores with configDb := OrderedStore.write u32Compare stores.configDb batch }

/-- The databases after several writes. -/
def performAll (stores : Stores) (writes : List Write) : Stores :=
  writes.foldl perform stores

end Stores

/-- An open log. -/
structure RaftLog extends Stores where
  first : ℕ
  last : ℕ
  append : ℕ
  configIndices : Finset ℕ
  checksum : Bool
  lastChecksum : UInt32

/-- The writes of an operation and the log it leaves. -/
structure Done where
  writes : List Write
  log : RaftLog

namespace RaftLog

/-! ## Reading -/

/-- `RaftLog::Check`. -/
def check (log : RaftLog) : Except LogAssert Unit :=
  if log.first = log.last then
    if log.first = 0 then ensure .check (1 ≤ log.append)
    else ensure .check (log.append = log.last + 1)
  else ensure .check (log.first ≤ log.last ∧ 1 ≤ log.first ∧ log.append = log.last + 1)

/-- `RaftLog::IndexValid`. -/
def indexValid (log : RaftLog) (index : ℕ) : Bool :=
  index ≠ 0 && log.first ≤ index && index ≤ log.last

/-- `none` where the code returns `-1`. -/
def getMeta (log : RaftLog) (index : ℕ) : Except LogAssert (Option MetaValue) := do
  log.check
  match OrderedStore.get u32Compare log.db (encodeMetaKey index) with
  | some value =>
      ensure .metaSize (value.length = metaValueBytes)
      let mv ← decodeMetaValue value
      return some mv
  | none => return none

/-- `RaftLog::GetValue`. -/
def getValue (log : RaftLog) (index : ℕ) : Except LogAssert (Option Bytes) := do
  log.check
  return OrderedStore.get u32Compare log.db (encodeDataKey index)

/-- `RaftLog::Get`. -/
def get (log : RaftLog) (index : ℕ) : Except LogAssert (Option CheckedEntry) := do
  log.check
  match ← log.getMeta index with
  | some mv =>
      match ← log.getValue index with
      | some value =>
          return some ⟨index, mv.preChkAll, mv.chkThs, mv.chkAll, ⟨mv.term, mv.type, value⟩⟩
      | none => throw .missingValue
  | none => return none

/-- `RaftLog::LastMeta`. -/
def lastMeta (log : RaftLog) : Except LogAssert (Option MetaValue) := do
  log.check
  if log.last = 0 then return none
  else
    match ← log.getMeta log.last with
    | some mv => return some mv
    | none => throw .missingMeta

/-- The newest configuration on record, with the return code: `0` for the one
the node was first started with, `1` for a config entry.  Which of the two it is
depends on the key, read as a signed integer. -/
def lastConfig (log : RaftLog) : Except LogAssert (Option (ℤ × RaftConfig × MetaValue)) :=
  match log.configDb.getLast? with
  | none => .ok none
  | some (key, value) =>
      match RaftConfig.fromString value with
      | none => .error .configValue
      | some rc =>
          if 0 < decodeFixed32 key ∧ decodeFixed32 key < 2 ^ 31 then
            match log.configDb.dropLast.getLast? with
            | none => .error .configMeta
            | some (_, value) => do
                let mv ← decodeMetaValue value
                return some (1, rc, mv)
          else .ok (some (0, rc, ⟨0, .config, 0, 0, 0⟩))

/-! ## Opening -/

/-- The index of a key of the second database. -/
def configIndex (key : Bytes) : ℕ :=
  let index := decodeFixed32 key
  if index = 0 then 0
  else if index % 2 = 0 then index / 2
  else (index + 1) % 2 ^ 32 / 2

/-- A log as the constructor leaves it, over given databases. -/
def closed (stores : Stores) : RaftLog where
  toStores := stores
  first := 0
  last := 0
  append := 0
  configIndices := ∅
  checksum := true
  lastChecksum := 0

/-- The indices and the checksum, read from a database that is not empty: the last index
from its last key, the first index from the second key, behind the zero key. -/
def load (stores : Stores) : Except LogAssert RaftLog :=
  match stores.db.getLast? with
  | none => .error .iterator
  | some (key, value) => do
      ensure .keySize (key.length = 4)
      if decodeFixed32 key = 0 then
        ensure .zeroSize (value.length = 8)
        return { closed stores with
          append := (decodeZeroValue value).1
          lastChecksum := (decodeZeroValue value).2 }
      else
        let last ← dataIndexToLogIndex (decodeFixed32 key)
        match stores.db[1]? with
        | none => throw .iterator
        | some second =>
            let first ← metaIndexToLogIndex (decodeFixed32 second.1)
            let log := { closed stores with first := first, last := last, append := last + 1 }
            match ← log.lastMeta with
            | none => throw .missingMeta
            | some mv => return { log with lastChecksum := mv.chkAll }

/-- The writes of `Init`: an empty database is given its zero key. -/
def initWrites (stores : Stores) : List Write :=
  if stores.db = [] then [.db [.put zeroKey (encodeZeroValue 1 0)]] else []

/-- `RaftLog::Init`: the fields are read from the databases. -/
def init (stores : Stores) : Except LogAssert Done := do
  let log ← load (stores.performAll (initWrites stores))
  let log := { log with
    configIndices := (log.configDb.map fun binding => configIndex binding.1).toFinset }
  log.check
  return ⟨initWrites stores, log⟩

/-- Record the configuration a node is first started with. -/
def appendFirstConfig (log : RaftLog) (rc : RaftConfig) : Done :=
  let writes := [.configDb [.put (encodeFixed32 0) rc.toString]]
  ⟨writes, { log with
    toStores := log.toStores.performAll writes
    configIndices := insert 0 log.configIndices }⟩

/-! ## Writing -/

/-- The meta value of the next entry. -/
def nextMeta (log : RaftLog) (entry : AppendEntry) : Except LogAssert MetaValue := do
  if log.checksum then
    let chkThs ← checkThis log.append entry
    return ⟨entry.term, entry.type, log.lastChecksum, chkThs, checkAll log.lastChecksum chkThs⟩
  else return ⟨entry.term, entry.type, 0, 0, 0⟩

/-- The index `AppendOne` stores its entry under. -/
def nextIndex (log : RaftLog) : ℕ :=
  if log.first = log.last ∧ log.first = 0 then log.append else log.last + 1

/-- Both keys of the next entry. -/
def appendBatch (log : RaftLog) (entry : AppendEntry) (mv : MetaValue) : Batch :=
  [.put (encodeMetaKey log.nextIndex) (encodeMetaValue mv),
    .put (encodeDataKey log.nextIndex) entry.value]

/-- The writes of `AppendOne`, a second one for a config entry. -/
def appendWrites (log : RaftLog) (entry : AppendEntry) (mv : MetaValue) : List Write :=
  .db (log.appendBatch entry mv) ::
    if entry.type = .config then [.configDb (log.appendBatch entry mv)] else []

/-- The log after its writes, with the fields brought up to date. -/
def appended (log : RaftLog) (entry : AppendEntry) (mv : MetaValue) : RaftLog :=
  { log with
    toStores := log.toStores.performAll (log.appendWrites entry mv)
    first := if log.first = log.last ∧ log.first = 0 then log.append else log.first
    last := log.nextIndex
    append := log.nextIndex + 1
    configIndices :=
      if entry.type = .config then insert log.nextIndex log.configIndices
      else log.configIndices
    lastChecksum := mv.chkAll }

/-- Append an entry behind the last one. -/
def appendOne (log : RaftLog) (entry : AppendEntry) : Except LogAssert Done := do
  log.check
  let mv ← log.nextMeta entry
  (log.appended entry mv).check
  return ⟨log.appendWrites entry mv, log.appended entry mv⟩

/-- Both keys of an entry. -/
def keysOf (index : ℕ) : List Bytes :=
  [encodeMetaKey index, encodeDataKey index]

/-- Both records of all indices are deleted. -/
def deletes (indices : List ℕ) : Batch :=
  (indices.flatMap keysOf).map .delete

/-- The indices from `from_` to `to_`. -/
def span (from_ to_ : ℕ) : List ℕ :=
  List.range' from_ (to_ + 1 - from_)

/-- The assertions on a log with entries. -/
def checkRange (log : RaftLog) : Except LogAssert Unit :=
  ensure .range (0 < log.first ∧ 0 < log.last ∧ log.first ≤ log.last ∧ log.append = log.last + 1)

/-- The meta value under an index that must be there. -/
def requireMeta (log : RaftLog) (index : ℕ) : Except LogAssert MetaValue := do
  match ← log.getMeta index with
  | some mv => return mv
  | none => throw .missingMeta

/-- The indices of the config entries that `DeleteFrom` drops. -/
def configsFrom (log : RaftLog) (from_ : ℕ) : List ℕ :=
  (span from_ log.last).filter (· ∈ log.configIndices)

/-- The writes of `DeleteFrom`, the second one even if it is empty. -/
def truncateWrites (log : RaftLog) (from_ : ℕ) (checksum : UInt32) : List Write :=
  [.db (deletes (span from_ log.last) ++
      if from_ = log.first then [.put zeroKey (encodeZeroValue from_ checksum)] else []),
    .configDb (deletes (log.configsFrom from_))]

/-- The log after the writes of a truncation. -/
def truncated (log : RaftLog) (from_ : ℕ) (checksum : UInt32) : RaftLog :=
  { log with
    toStores := log.toStores.performAll (log.truncateWrites from_ checksum)
    first := if from_ = log.first then 0 else log.first
    last := if from_ = log.first then 0 else from_ - 1
    append := from_
    configIndices := log.configIndices \ (log.configsFrom from_).toFinset
    lastChecksum := checksum }

/-- `RaftLog::DeleteFrom`. -/
def deleteFrom (log : RaftLog) (from_ : ℕ) : Except LogAssert Done := do
  log.check
  if log.first = log.last ∧ log.first = 0 then return ⟨[], log⟩
  else
    log.checkRange
    if log.last < from_ then return ⟨[], log⟩
    else
      let from_ := if from_ < log.first then log.first else from_
      ensure .range (log.first ≤ from_ ∧ from_ ≤ log.last)
      let mv ← log.requireMeta from_
      (log.truncated from_ mv.preChkAll).check
      return ⟨log.truncateWrites from_ mv.preChkAll, log.truncated from_ mv.preChkAll⟩

/-- The running checksum after `DeleteUtil`. -/
def compactedChecksum (log : RaftLog) (to_ : ℕ) : Except LogAssert UInt32 :=
  if to_ < log.last then .ok log.lastChecksum
  else do
    let mv ← log.requireMeta to_
    return mv.chkAll

/-- The batch of a compaction; the sentinel is written if nothing is left. -/
def compactWrites (log : RaftLog) (to_ : ℕ) (checksum : UInt32) : List Write :=
  [.db (deletes (span log.first to_) ++
    if to_ = log.last then [.put zeroKey (encodeZeroValue (log.last + 1) checksum)] else [])]

/-- The log after the writes of a compaction. -/
def compacted (log : RaftLog) (to_ : ℕ) (checksum : UInt32) : RaftLog :=
  { log with
    toStores := log.toStores.performAll (log.compactWrites to_ checksum)
    first := if to_ = log.last then 0 else to_ + 1
    last := if to_ = log.last then 0 else log.last
    append := log.last + 1
    lastChecksum := checksum }

/-- `RaftLog::DeleteUtil`. -/
def deleteUtil (log : RaftLog) (to_ : ℕ) : Except LogAssert Done := do
  log.check
  if log.first = log.last ∧ log.first = 0 then return ⟨[], log⟩
  else
    log.checkRange
    if to_ < log.first then return ⟨[], log⟩
    else
      let to_ := if log.last < to_ then log.last else to_
      ensure .range (log.first ≤ to_ ∧ to_ ≤ log.last)
      let checksum ← log.compactedChecksum to_
      (log.compacted to_ checksum).check
      return ⟨log.compactWrites to_ checksum, log.compacted to_ checksum⟩

/-! ## Runs -/

/-- An operation on a log; `reopen` closes it and opens it again. -/
inductive Op
  | appendOne (entry : AppendEntry)
  | deleteFrom (from_ : ℕ)
  | deleteUtil (to_ : ℕ)
  | reopen
  deriving DecidableEq, Repr

/-- One operation. -/
def apply (log : RaftLog) : Op → Except LogAssert Done
  | .appendOne entry => log.appendOne entry
  | .deleteFrom from_ => log.deleteFrom from_
  | .deleteUtil to_ => log.deleteUtil to_
  | .reopen => init log.toStores

/-- Several operations; only what is left in the end is returned. -/
def run (log : RaftLog) : List Op → Except LogAssert RaftLog
  | [] => .ok log
  | op :: ops => do
      let done ← log.apply op
      run done.log ops

/-- Open a log on empty databases and run operations on it. -/
def start (ops : List Op) : Except LogAssert RaftLog := do
  let done ← init Stores.empty
  done.log.run ops

end RaftLog

end Vraft
