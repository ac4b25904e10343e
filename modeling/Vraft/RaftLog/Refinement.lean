import Vraft.RaftLog.Image

/-!
# RaftLog refines the abstract log

`Persisted` says which database stands for a history and `Cached` which fields go
with it.  Opening a persisted history computes the fields, and every operation takes
a log and its history to a log and its history without failing an assertion.
-/

namespace Vraft

open OrderedStore (write put)

/-- The main database holds the kept entries of a history behind the zero key,
whose value only counts when there are none. -/
structure Persisted (db : List (Bytes × Bytes)) (h : History) : Prop where
  db_eq : ∃ zero, db = (zeroKey, zero) :: image (fun _ => true) h.past h.kept ∧
    (h.kept = [] → zero = encodeZeroValue h.append (chain h.all))
  terms : ∀ entry ∈ h.kept, entry.term < 2 ^ 64
  bound : h.all.length < maxIndex

/-- The indices of an open log. -/
structure Spans (log : RaftLog) (h : History) : Prop where
  first : log.first = h.first
  last : log.last = h.last
  append : log.append = h.append

/-- The fields of an open log. -/
structure Cached (log : RaftLog) (h : History) : Prop extends Spans log h where
  checksum : log.checksum = true
  lastChecksum : log.lastChecksum = chain h.all

/-- The databases and the fields stand for one history. -/
structure Represents (log : RaftLog) (h : History) : Prop extends Persisted log.db h, Cached log h

/-! ## Databases -/

section Databases

variable {db : List (Bytes × Bytes)} {h : History}

theorem persisted_empty :
    Persisted [(zeroKey, encodeZeroValue 1 0)] History.empty :=
  ⟨⟨_, rfl, fun _ => rfl⟩, by simp [History.empty], maxIndex_pos⟩

/-- All keys are below the next index. -/
theorem Persisted.below (persisted : Persisted db h) :
    ∀ binding ∈ db, KeyBelow h.append binding.1 := by
  obtain ⟨zero, rfl, -⟩ := persisted.db_eq
  have bound := persisted.bound
  rw [History.all_length] at bound
  intro binding mem
  rcases List.mem_cons.mp mem with rfl | mem
  · refine ⟨0, zeroKey_eq, ?_⟩
    rw [History.append]
    omega
  · exact image_below bound binding mem

theorem Persisted.append (persisted : Persisted db h) {entry : AppendEntry}
    (term_lt : entry.term < 2 ^ 64) (append_lt : h.append < maxIndex) :
    Persisted (write u32Compare db
      [.put (encodeMetaKey h.append) (encodeMetaValue (metaAfter h.all entry)),
        .put (encodeDataKey h.append) entry.value]) (h.appendOne entry) := by
  have positive : 0 < h.append := Nat.succ_pos _
  rw [write_above positive append_lt persisted.below]
  obtain ⟨zero, rfl, -⟩ := persisted.db_eq
  refine ⟨⟨zero, ?_, fun empty => ?_⟩, fun other mem => ?_, ?_⟩
  · rw [History.appendOne, image_append, History.append_eq]
    rfl
  · simp [History.appendOne] at empty
  · rcases List.mem_append.mp mem with mem | mem
    · exact persisted.terms other mem
    · obtain rfl := List.mem_singleton.mp mem
      exact term_lt
  · rw [History.append_eq] at append_lt
    simpa using append_lt

theorem Persisted.truncate (persisted : Persisted db h) {from_ : ℕ} (holds : h.Holds from_) :
    Persisted (write u32Compare db (RaftLog.deletes (RaftLog.span from_ h.last) ++
      if from_ = h.first then
        [.put zeroKey (encodeZeroValue from_ (chain (h.all.take (from_ - 1))))]
      else [])) (h.deleteFrom from_) := by
  obtain ⟨zero, rfl, -⟩ := persisted.db_eq
  obtain ⟨front, back, kept_eq, back_ne, from_eq, truncated, take_eq⟩ := History.cut_from holds
  have kept_length : h.kept.length = front.length + back.length := by
    rw [kept_eq, List.length_append]
  have positive := List.length_pos_iff.mpr back_ne
  have ends := h.ends
  have bound := persisted.bound
  rw [History.all_length, kept_length] at bound
  rw [History.base] at bound from_eq ends
  have deleted : write u32Compare ((zeroKey, zero) :: image (fun _ => true) h.past (front ++ back))
      (RaftLog.deletes (RaftLog.span from_ h.last)) =
        (zeroKey, zero) :: image (fun _ => true) h.past front := by
    refine write_deletes_back (by omega) (fun index mem => ?_) fun first entry last back_eq _ => ?_
    · rw [mem_span] at mem
      omega
    · rw [back_eq, List.length_append, List.length_cons] at kept_length
      rw [mem_span]
      omega
  have terms : ∀ entry ∈ front, entry.term < 2 ^ 64 :=
    fun entry mem => persisted.terms entry (by simp [kept_eq, mem])
  have bound' : (History.mk h.past front).all.length < maxIndex := by
    rw [History.all_length]
    exact lt_of_le_of_lt (by dsimp only [History.base]; omega) bound
  rw [truncated, take_eq, OrderedStore.write_append, kept_eq, deleted]
  split
  · rw [write_zero, from_eq]
    exact ⟨⟨_, rfl, fun _ => rfl⟩, terms, bound'⟩
  · refine ⟨⟨zero, rfl, fun empty => ?_⟩, terms, bound'⟩
    have : front.length = 0 := by simp [show front = [] from empty]
    omega

theorem Persisted.compact (persisted : Persisted db h) {to_ : ℕ} (holds : h.Holds to_) :
    Persisted (write u32Compare db (RaftLog.deletes (RaftLog.span h.first to_) ++
      if to_ = h.last then [.put zeroKey (encodeZeroValue (h.last + 1) (chain h.all))]
      else [])) (h.deleteUtil to_) := by
  obtain ⟨zero, rfl, -⟩ := persisted.db_eq
  obtain ⟨front, back, kept_eq, front_ne, to_eq, compacted⟩ := History.cut_util holds
  have kept_length : h.kept.length = front.length + back.length := by
    rw [kept_eq, List.length_append]
  have positive := List.length_pos_iff.mpr front_ne
  have ends := h.ends
  have bound := persisted.bound
  rw [History.all_length, kept_length] at bound
  rw [History.base] at bound to_eq ends
  have first_eq : h.first = h.past.length + 1 := by omega
  have deleted : write u32Compare ((zeroKey, zero) :: image (fun _ => true) h.past (front ++ back))
      (RaftLog.deletes (RaftLog.span h.first to_)) =
        (zeroKey, zero) :: image (fun _ => true) (h.past ++ front) back := by
    rw [first_eq, to_eq]
    exact write_deletes_front (by omega)
  have all_eq : (History.mk (h.past ++ front) back).all = h.all := by
    rw [← compacted, History.deleteUtil_all]
  have terms : ∀ entry ∈ back, entry.term < 2 ^ 64 :=
    fun entry mem => persisted.terms entry (by simp [kept_eq, mem])
  have bound' : (History.mk (h.past ++ front) back).all.length < maxIndex := by
    rw [all_eq]
    exact persisted.bound
  rw [compacted, OrderedStore.write_append, kept_eq, deleted]
  split
  · rename_i whole
    have append_eq : (History.mk (h.past ++ front) back).append = h.last + 1 := by
      rw [History.append_eq, all_eq, History.all_length, History.base]
      omega
    rw [write_zero]
    exact ⟨⟨_, rfl, fun _ => by rw [append_eq, all_eq]⟩, terms, bound'⟩
  · refine ⟨⟨zero, rfl, fun empty => ?_⟩, terms, bound'⟩
    have : back.length = 0 := by simp [show back = [] from empty]
    omega

end Databases

namespace RaftLog

variable {log : RaftLog} {h : History}

/-! ## Reading -/

theorem ok_bind {α β : Type} (result : α) (next : α → Except LogAssert β) :
    (Except.ok result >>= next) = next result :=
  rfl

theorem check_ok (spans : Spans log h) : log.check = .ok () := by
  have first_eq := spans.first
  have last_eq := spans.last
  have append_eq := spans.append
  rw [History.append] at append_eq
  rw [check]
  rcases h.ends with ⟨-, length_eq, first, last⟩ | ⟨-, positive, first, last⟩ <;>
    split_ifs <;> exact ensure_of (by omega)

theorem no_value_iff (spans : Spans log h) :
    (log.first = log.last ∧ log.first = 0) ↔ h.kept = [] := by
  rw [spans.first, spans.last]
  rcases h.ends with ⟨empty, -, first, last⟩ | ⟨nonempty, -, first, last⟩
  · simp [empty, first, last]
  · simp [nonempty, first]

theorem indexValid_eq (spans : Spans log h) (index : ℕ) :
    log.indexValid index = decide (h.Holds index) := by
  rw [indexValid, spans.first, spans.last, Bool.eq_iff_iff]
  simp only [Bool.and_eq_true, decide_eq_true_eq]
  rw [History.Holds]
  rcases h.ends with ⟨-, length_eq, first, last⟩ | ⟨-, positive, first, last⟩ <;> omega

/-- What the database has under the keys of an entry. -/
theorem get_persisted (persisted : Persisted log.db h) {index : ℕ} {entry : AppendEntry}
    (found : h.entryAt index = some entry) :
    OrderedStore.get u32Compare log.db (encodeMetaKey index) =
        some (encodeMetaValue (metaAfter (h.all.take (index - 1)) entry)) ∧
      OrderedStore.get u32Compare log.db (encodeDataKey index) = some entry.value := by
  obtain ⟨zero, db_eq, -⟩ := persisted.db_eq
  obtain ⟨before, after, kept_eq, index_eq, take_eq⟩ := History.entryAt_eq_some found
  have bound := persisted.bound
  rw [History.all_length] at bound
  have index_lt : index < maxIndex := by
    rw [kept_eq, List.length_append, List.length_cons] at bound
    omega
  have zero_ne : u32Compare zeroKey (encodeDataKey index) ≠ .eq := by
    rw [zeroKey_eq_dataKey, Ne, dataKey_eq_iff maxIndex_pos index_lt]
    omega
  have zero_ne' : u32Compare zeroKey (encodeMetaKey index) ≠ .eq := by
    rw [zeroKey_eq_dataKey]
    exact dataKey_ne_metaKey _ _
  rw [db_eq, OrderedStore.get_cons_ne zero_ne, OrderedStore.get_cons_ne zero_ne', take_eq]
  exact get_image rfl kept_eq bound index_eq

theorem get_stored_none (persisted : Persisted log.db h) {index : ℕ} (index_lt : index < maxIndex)
    (missing : h.entryAt index = none) :
    OrderedStore.get u32Compare log.db (encodeMetaKey index) = none := by
  obtain ⟨zero, db_eq, -⟩ := persisted.db_eq
  have bound := persisted.bound
  rw [History.all_length] at bound
  have zero_ne : u32Compare zeroKey (encodeMetaKey index) ≠ .eq := by
    rw [zeroKey_eq_dataKey]
    exact dataKey_ne_metaKey _ _
  rw [db_eq, OrderedStore.get_cons_ne zero_ne]
  exact OrderedStore.get_eq_none (get_image_none _ bound index_lt (History.entryAt_eq_none missing)).1

theorem entry_term (persisted : Persisted log.db h) {index : ℕ} {entry : AppendEntry}
    (found : h.entryAt index = some entry) : entry.term < 2 ^ 64 := by
  obtain ⟨before, after, kept_eq, -, -⟩ := History.entryAt_eq_some found
  exact persisted.terms entry (by simp [kept_eq])

theorem getMeta_eq (persisted : Persisted log.db h) (checked : log.check = .ok ()) {index : ℕ}
    (index_lt : index < maxIndex) : log.getMeta index = .ok (h.getMeta index) := by
  rw [getMeta, checked, ok_bind, History.getMeta]
  cases found : h.entryAt index with
  | none =>
      rw [get_stored_none persisted index_lt found]
      rfl
  | some entry =>
      rw [(get_persisted persisted found).1]
      dsimp only
      rw [ensure_of (encodeMetaValue_length _), ok_bind,
        decodeMetaValue_encodeMetaValue (entry_term persisted found)]
      rfl

theorem get_eq (represents : Represents log h) {index : ℕ} (index_lt : index < maxIndex) :
    log.get index = .ok (h.get index) := by
  have checked := check_ok represents.toSpans
  rw [RaftLog.get, checked, ok_bind, getMeta_eq represents.toPersisted checked index_lt, ok_bind,
    History.getMeta, History.get]
  cases found : h.entryAt index with
  | none => rfl
  | some entry =>
      dsimp only [Option.map_some]
      rw [getValue, checked, ok_bind, (get_persisted represents.toPersisted found).2]
      rfl

theorem lastMeta_eq {l : RaftLog} (persisted : Persisted l.db h) (checked : l.check = .ok ())
    (last_eq : l.last = h.last) : l.lastMeta = .ok h.lastMeta := by
  have bound := persisted.bound
  rw [History.all_length] at bound
  rw [lastMeta, checked, ok_bind, last_eq, History.lastMeta]
  rcases h.ends with ⟨-, -, -, last⟩ | ⟨-, positive, -, last⟩
  · rw [if_pos last, last]
    rfl
  · obtain ⟨entry, found⟩ := History.exists_entryAt (h := h) (i := h.last) ⟨by omega, by omega⟩
    rw [if_neg (by omega), getMeta_eq persisted checked (by omega), ok_bind, History.getMeta, found]
    rfl

theorem requireMeta_eq (represents : Represents log h) {index : ℕ} {entry : AppendEntry}
    (found : h.entryAt index = some entry) (index_lt : index < maxIndex) :
    log.requireMeta index = .ok (metaAfter (h.all.take (index - 1)) entry) := by
  rw [requireMeta, getMeta_eq represents.toPersisted (check_ok represents.toSpans) index_lt,
    History.getMeta, found]
  rfl

/-! ## Opening -/

theorem load_empty {stores : Stores} (persisted : Persisted stores.db h) (empty : h.kept = []) :
    load stores = .ok { closed stores with append := h.append, lastChecksum := chain h.all } := by
  obtain ⟨zero, db_eq, zero_eq⟩ := persisted.db_eq
  have last_eq : stores.db.getLast? = some (zeroKey, zero) := by
    rw [db_eq, empty]
    rfl
  have append_lt : h.append < 2 ^ 32 := by
    have bound := persisted.bound
    rw [maxIndex] at bound
    rw [History.append_eq]
    omega
  have length_eq : zero.length = 8 := by
    rw [zero_eq empty]
    exact encodeZeroValue_length _ _
  have decoded : decodeZeroValue zero = (h.append, chain h.all) := by
    rw [zero_eq empty]
    exact decodeZeroValue_encodeZeroValue append_lt _
  simp only [load, last_eq, ensure_of (show zeroKey.length = 4 from rfl),
    if_pos (show decodeFixed32 zeroKey = 0 by decide), ensure_of length_eq, decoded]
  rfl

theorem load_nonempty {stores : Stores} (persisted : Persisted stores.db h)
    (nonempty : h.kept ≠ []) :
    load stores = .ok { closed stores with
      first := h.first
      last := h.last
      append := h.append
      lastChecksum := chain h.all } := by
  obtain ⟨zero, db_eq, -⟩ := persisted.db_eq
  obtain ⟨⟨mv, rest, head_eq⟩, value, image_last⟩ := image_ends h.past nonempty
  have bound := persisted.bound
  have positive := List.length_pos_iff.mpr nonempty
  have first_eq : h.first = h.past.length + 1 := if_neg nonempty
  have last_eq : h.last = h.past.length + h.kept.length := if_neg nonempty
  rw [History.all_length, History.base] at bound
  have key_last : stores.db.getLast? = some (encodeDataKey h.last, value) := by
    rw [db_eq, List.getLast?_cons, image_last, last_eq]
    rfl
  have key_second : stores.db[1]? = some (encodeMetaKey h.first, mv) := by
    rw [db_eq, head_eq, first_eq]
    rfl
  have key_ne : ¬decodeFixed32 (encodeDataKey h.last) = 0 := by
    rw [encodeDataKey, decode_key (dataIndex_lt _), dataIndex_eq (by omega)]
    omega
  let log : RaftLog := { closed stores with first := h.first, last := h.last, append := h.last + 1 }
  have spans : Spans log h := ⟨rfl, rfl, congrArg (· + 1) last_eq⟩
  obtain ⟨newest, lastMeta_eq', chkAll_eq⟩ := History.exists_lastMeta nonempty
  have read : log.lastMeta = .ok (some newest) := by
    rw [lastMeta_eq (l := log) persisted (check_ok spans) rfl, lastMeta_eq']
  have key_length : (encodeDataKey h.last).length = 4 := encodeFixed32_length _
  have append_eq : h.append = h.last + 1 := spans.append.symm
  rw [load, key_last]
  dsimp only
  rw [ensure_of key_length, ok_bind, if_neg key_ne, dataIndexToLogIndex_dataKey (by omega), ok_bind,
    key_second]
  dsimp only
  rw [metaIndexToLogIndex_metaKey (by omega) (by omega), ok_bind, read, ok_bind, append_eq, ← chkAll_eq]
  rfl

/-- Opening a log computes its fields from the main database. -/
theorem load_eq (stores : Stores) (persisted : Persisted stores.db h) :
    ∃ log, load stores = .ok log ∧ log.toStores = stores ∧ Cached log h := by
  by_cases empty : h.kept = []
  · exact ⟨_, load_empty persisted empty, rfl,
      ⟨⟨(if_pos empty).symm, (if_pos empty).symm, rfl⟩, rfl, rfl⟩⟩
  · exact ⟨_, load_nonempty persisted empty, rfl, ⟨⟨rfl, rfl, rfl⟩, rfl, rfl⟩⟩

/-- The config indices that go with a second database. -/
def configIndicesOf (configDb : List (Bytes × Bytes)) : Finset ℕ :=
  (configDb.map fun binding => configIndex binding.1).toFinset

theorem init_eq {stores : Stores} (persisted : Persisted stores.db h) :
    ∃ log, init stores = .ok ⟨[], log⟩ ∧ log.toStores = stores ∧ Cached log h ∧
      log.configIndices = configIndicesOf stores.configDb := by
  obtain ⟨log, loaded, rfl, cached⟩ := load_eq stores persisted
  have no_writes : initWrites log.toStores = [] := by
    obtain ⟨zero, db_eq, -⟩ := persisted.db_eq
    rw [initWrites, if_neg (by simp [db_eq])]
  refine ⟨{ log with configIndices := configIndicesOf log.configDb }, ?_, rfl,
    ⟨⟨cached.first, cached.last, cached.append⟩, cached.checksum, cached.lastChecksum⟩, rfl⟩
  have spans : Spans { log with configIndices := configIndicesOf log.configDb } h :=
    ⟨cached.first, cached.last, cached.append⟩
  have stores_eq : log.toStores.performAll [] = log.toStores := rfl
  rw [init, no_writes, stores_eq, loaded, ok_bind]
  exact congrArg (· >>= fun _ => pure _) (check_ok spans)

/-! ## Writing -/

theorem nextIndex_eq (cached : Cached log h) : log.nextIndex = h.append := by
  have no_value := no_value_iff cached.toSpans
  rw [nextIndex]
  split_ifs with empty
  · exact cached.append
  · rw [cached.last, History.last, if_neg fun none_kept => empty (no_value.mpr none_kept),
      History.append]

/-- The checksums that the code computes are those of the history. -/
theorem nextMeta_eq (cached : Cached log h) {entry : AppendEntry}
    (short : entry.value.length < 2 ^ 28) :
    log.nextMeta entry = .ok (metaAfter h.all entry) := by
  rw [nextMeta, if_pos cached.checksum, checkThis_ok short, cached.append, cached.lastChecksum,
    metaAfter, chain_concat, History.append_eq]
  rfl

theorem appended_represents (represents : Represents log h) {entry : AppendEntry}
    (term_lt : entry.term < 2 ^ 64) (append_lt : h.append < maxIndex) :
    Represents (log.appended entry (metaAfter h.all entry)) (h.appendOne entry) := by
  have index_eq := nextIndex_eq represents.toCached
  have batch_eq : log.appendBatch entry (metaAfter h.all entry) =
      [.put (encodeMetaKey h.append) (encodeMetaValue (metaAfter h.all entry)),
        .put (encodeDataKey h.append) entry.value] := by
    rw [appendBatch, index_eq]
  have db_eq : (log.appended entry (metaAfter h.all entry)).db =
      write u32Compare log.db (log.appendBatch entry (metaAfter h.all entry)) := by
    rw [appended, appendWrites]
    split <;> rfl
  have kept_ne : (h.appendOne entry).kept ≠ [] := by simp [History.appendOne]
  have length_eq : (h.appendOne entry).kept.length = h.kept.length + 1 := by
    simp [History.appendOne]
  refine ⟨?_, ⟨?_, ?_, ?_⟩, represents.checksum, ?_⟩
  · rw [db_eq, batch_eq]
    exact represents.toPersisted.append term_lt append_lt
  · rw [History.first, if_neg kept_ne]
    simp only [appended, no_value_iff represents.toSpans]
    split_ifs with empty
    · rw [represents.append, History.append, empty]
      rfl
    · rw [represents.first, History.first, if_neg empty]
      rfl
  · rw [History.last, if_neg kept_ne, length_eq]
    exact index_eq
  · rw [History.append, length_eq]
    exact congrArg (· + 1) index_eq
  · rw [History.appendOne_all]
    rfl

theorem appendOne_eq (represents : Represents log h) {entry : AppendEntry}
    (term_lt : entry.term < 2 ^ 64) (append_lt : h.append < maxIndex)
    (short : entry.value.length < 2 ^ 28) :
    log.appendOne entry = .ok ⟨log.appendWrites entry (metaAfter h.all entry),
      log.appended entry (metaAfter h.all entry)⟩ := by
  rw [appendOne, check_ok represents.toSpans, ok_bind, nextMeta_eq represents.toCached short,
    ok_bind, check_ok (appended_represents represents term_lt append_lt).toSpans, ok_bind]
  rfl

theorem checkRange_ok (spans : Spans log h) (nonempty : h.kept ≠ []) :
    log.checkRange = .ok () := by
  have first_eq := spans.first
  have last_eq := spans.last
  have append_eq := spans.append
  rw [History.append] at append_eq
  rcases h.ends with ⟨empty, -⟩ | ⟨-, positive, first, last⟩
  · contradiction
  · exact ensure_of (by omega)

theorem truncated_represents (represents : Represents log h) {from_ : ℕ} (holds : h.Holds from_) :
    Represents (log.truncated from_ (chain (h.all.take (from_ - 1)))) (h.deleteFrom from_) := by
  obtain ⟨front, back, kept_eq, back_ne, from_eq, truncated_eq, take_eq⟩ := History.cut_from holds
  have first_eq : log.first = h.base + 1 := by
    rw [represents.first, History.first, if_neg (by simp [kept_eq, back_ne])]
  have base_eq : (History.mk h.past front).base = h.base := rfl
  have ends := (History.mk h.past front).ends
  rw [base_eq] at ends
  dsimp only at ends
  refine ⟨?_, ?_, represents.checksum, ?_⟩
  · have persisted := represents.toPersisted.truncate holds
    rw [← represents.first, ← represents.last] at persisted
    exact persisted
  · rw [truncated_eq]
    refine ⟨?_, ?_, ?_⟩
    · show (if from_ = log.first then 0 else log.first) = _
      split_ifs <;> omega
    · show (if from_ = log.first then 0 else from_ - 1) = _
      split_ifs <;> omega
    · exact from_eq
  · rw [truncated_eq, take_eq]
    rfl

/-- `DeleteFrom` leaves the log alone or cuts it in front of a stored entry. -/
theorem deleteFrom_cases (represents : Represents log h) (from_ : ℕ) :
    (log.deleteFrom from_ = .ok ⟨[], log⟩ ∧ h.deleteFrom from_ = h) ∨
      ∃ at_, h.Holds at_ ∧ h.deleteFrom from_ = h.deleteFrom at_ ∧
        log.deleteFrom from_ = .ok
          ⟨log.truncateWrites at_ (chain (h.all.take (at_ - 1))),
            log.truncated at_ (chain (h.all.take (at_ - 1)))⟩ := by
  have bound := represents.bound
  rw [History.all_length] at bound
  have first_eq' := represents.first
  have last_eq' := represents.last
  rw [deleteFrom, check_ok represents.toSpans, ok_bind]
  rcases h.ends with ⟨empty, length_eq, -⟩ | ⟨nonempty, positive, first_eq, last_eq⟩
  · exact Or.inl ⟨if_pos ((no_value_iff represents.toSpans).mpr empty),
      History.deleteFrom_eq_self (by omega)⟩
  · rw [if_neg (mt (no_value_iff represents.toSpans).mp nonempty),
      checkRange_ok represents.toSpans nonempty, ok_bind]
    by_cases past_end : log.last < from_
    · exact Or.inl ⟨if_pos past_end, History.deleteFrom_eq_self (by omega)⟩
    · rw [if_neg past_end]
      dsimp only
      generalize at_eq : (if from_ < log.first then log.first else from_) = at_
      have same : from_ - 1 - h.base = at_ - 1 - h.base := by
        rw [← at_eq]
        split_ifs <;> omega
      have above : h.base < at_ := by
        rw [← at_eq]
        split_ifs <;> omega
      have below : at_ ≤ h.base + h.kept.length := by
        rw [← at_eq]
        split_ifs <;> omega
      obtain ⟨entry, found⟩ := History.exists_entryAt ⟨above, below⟩
      have pre_eq : (metaAfter (h.all.take (at_ - 1)) entry).preChkAll =
          chain (h.all.take (at_ - 1)) := rfl
      refine Or.inr ⟨at_, ⟨above, below⟩, by rw [History.deleteFrom, same, History.deleteFrom], ?_⟩
      rw [ensure_of (by omega), ok_bind, requireMeta_eq represents found (by omega), ok_bind, pre_eq,
        check_ok (truncated_represents represents ⟨above, below⟩).toSpans, ok_bind]
      rfl

theorem compacted_represents (represents : Represents log h) {to_ : ℕ} (holds : h.Holds to_) :
    Represents (log.compacted to_ (chain h.all)) (h.deleteUtil to_) := by
  obtain ⟨front, back, kept_eq, front_ne, to_eq, compacted_eq⟩ := History.cut_util holds
  have kept_length : h.kept.length = front.length + back.length := by
    rw [kept_eq, List.length_append]
  have last_eq : log.last = h.base + h.kept.length := by
    rw [represents.last, History.last, if_neg (by simp [kept_eq, front_ne])]
  have base_eq : (History.mk (h.past ++ front) back).base = h.base + front.length :=
    List.length_append
  have ends := (History.mk (h.past ++ front) back).ends
  rw [base_eq] at ends
  dsimp only at ends
  refine ⟨?_, ?_, represents.checksum, ?_⟩
  · have persisted := represents.toPersisted.compact holds
    rw [← represents.first, ← represents.last] at persisted
    exact persisted
  · rw [compacted_eq]
    refine ⟨?_, ?_, ?_⟩
    · show (if to_ = log.last then 0 else to_ + 1) = _
      split_ifs <;> omega
    · show (if to_ = log.last then 0 else log.last) = _
      split_ifs <;> omega
    · show log.last + 1 = _
      rw [History.append, base_eq]
      dsimp only
      omega
  · rw [History.deleteUtil_all]
    rfl

/-- `DeleteUtil` leaves the log alone or cuts it behind a stored entry. -/
theorem deleteUtil_cases (represents : Represents log h) (to_ : ℕ) :
    (log.deleteUtil to_ = .ok ⟨[], log⟩ ∧ h.deleteUtil to_ = h) ∨
      ∃ at_, h.Holds at_ ∧ h.deleteUtil to_ = h.deleteUtil at_ ∧
        log.deleteUtil to_ =
          .ok ⟨log.compactWrites at_ (chain h.all), log.compacted at_ (chain h.all)⟩ := by
  have bound := represents.bound
  rw [History.all_length] at bound
  have first_eq' := represents.first
  have last_eq' := represents.last
  rw [deleteUtil, check_ok represents.toSpans, ok_bind]
  rcases h.ends with ⟨empty, -⟩ | ⟨nonempty, positive, first_eq, last_eq⟩
  · exact Or.inl ⟨if_pos ((no_value_iff represents.toSpans).mpr empty),
      History.deleteUtil_eq_self (Or.inl empty)⟩
  · rw [if_neg (mt (no_value_iff represents.toSpans).mp nonempty),
      checkRange_ok represents.toSpans nonempty, ok_bind]
    by_cases before : to_ < log.first
    · exact Or.inl ⟨if_pos before, History.deleteUtil_eq_self (Or.inr (by omega))⟩
    · rw [if_neg before]
      dsimp only
      generalize at_eq : (if log.last < to_ then log.last else to_) = at_
      have above : h.base < at_ := by
        rw [← at_eq]
        split_ifs <;> omega
      have below : at_ ≤ h.base + h.kept.length := by
        rw [← at_eq]
        split_ifs <;> omega
      have same : h.deleteUtil to_ = h.deleteUtil at_ := by
        rw [← at_eq]
        split_ifs with past_end
        · have whole : h.kept.length ≤ log.last - h.base := by omega
          have whole' : h.kept.length ≤ to_ - h.base := by omega
          rw [History.deleteUtil, History.deleteUtil, List.take_of_length_le whole,
            List.take_of_length_le whole', List.drop_of_length_le whole,
            List.drop_of_length_le whole']
        · rfl
      have checksum_eq : log.compactedChecksum at_ = .ok (chain h.all) := by
        rw [compactedChecksum]
        split_ifs with inside
        · rw [represents.lastChecksum]
        · obtain ⟨entry, found⟩ := History.exists_entryAt ⟨above, below⟩
          have all_eq : h.all.take at_ = h.all :=
            List.take_of_length_le (by rw [History.all_length]; omega)
          rw [requireMeta_eq represents found (by omega), ok_bind, metaAfter,
            ← History.take_of_entryAt found, all_eq]
          rfl
      refine Or.inr ⟨at_, ⟨above, below⟩, same, ?_⟩
      rw [ensure_of (by omega), ok_bind, checksum_eq, ok_bind,
        check_ok (compacted_represents represents ⟨above, below⟩).toSpans, ok_bind]
      rfl

/-! ## Runs -/

/-- An entry fits if its term is a 64-bit number and its index is below the
bound. -/
def Op.Fits (h : History) : Op → Prop
  | .appendOne entry => entry.term < 2 ^ 64 ∧ h.append < maxIndex
  | _ => True

/-- Every entry of a run fits when it is appended. -/
def Fits (h : History) : List Op → Prop
  | [] => True
  | op :: ops => op.Fits h ∧ Fits (h.apply op) ops

instance (h : History) (op : Op) : Decidable (op.Fits h) :=
  match op with
  | .appendOne _ => inferInstanceAs (Decidable (_ ∧ _))
  | .deleteFrom _ | .deleteUtil _ | .reopen => inferInstanceAs (Decidable True)

instance decidableFits (h : History) : (ops : List Op) → Decidable (Fits h ops)
  | [] => inferInstanceAs (Decidable True)
  | op :: ops =>
      have := decidableFits (h.apply op) ops
      inferInstanceAs (Decidable (_ ∧ _))

/-- The value of an entry is shorter than `2 ^ 28` bytes. -/
def Op.Short : Op → Prop
  | .appendOne entry => entry.value.length < 2 ^ 28
  | _ => True

instance (op : Op) : Decidable op.Short :=
  match op with
  | .appendOne _ => inferInstanceAs (Decidable (_ < _))
  | .deleteFrom _ | .deleteUtil _ | .reopen => inferInstanceAs (Decidable True)

/-- Every operation with a short value succeeds and does what the history does. -/
theorem apply_represents (represents : Represents log h) {op : Op} (fits : op.Fits h)
    (short : op.Short) : ∃ done, log.apply op = .ok done ∧ Represents done.log (h.apply op) := by
  cases op with
  | appendOne entry =>
      exact ⟨_, appendOne_eq represents fits.1 fits.2 short,
        appended_represents represents fits.1 fits.2⟩
  | deleteFrom from_ =>
      rcases deleteFrom_cases represents from_ with ⟨done_eq, same⟩ | ⟨at_, holds, same, done_eq⟩
      · exact ⟨_, done_eq, by rwa [History.apply, same]⟩
      · refine ⟨_, done_eq, ?_⟩
        rw [History.apply, same]
        exact truncated_represents represents holds
  | deleteUtil to_ =>
      rcases deleteUtil_cases represents to_ with ⟨done_eq, same⟩ | ⟨at_, holds, same, done_eq⟩
      · exact ⟨_, done_eq, by rwa [History.apply, same]⟩
      · refine ⟨_, done_eq, ?_⟩
        rw [History.apply, same]
        exact compacted_represents represents holds
  | reopen =>
      obtain ⟨next, done_eq, stores_eq, cached, -⟩ := init_eq represents.toPersisted
      exact ⟨_, done_eq, by rw [stores_eq]; exact represents.toPersisted, cached⟩

theorem run_represents {ops : List Op} (represents : Represents log h) (fits : Fits h ops)
    (short : ∀ op ∈ ops, op.Short) :
    ∃ log', log.run ops = .ok log' ∧ Represents log' (h.run ops) := by
  induction ops generalizing log h with
  | nil => exact ⟨log, rfl, represents⟩
  | cons op ops ih =>
      rw [List.forall_mem_cons] at short
      obtain ⟨done, done_eq, next⟩ := apply_represents represents fits.1 short.1
      obtain ⟨log', run_eq, last⟩ := ih next fits.2 short.2
      refine ⟨log', ?_, last⟩
      rw [run, done_eq, ok_bind, run_eq]

/-- Opening empty databases writes the zero key. -/
theorem init_empty :
    ∃ done, init Stores.empty = .ok done ∧ Represents done.log History.empty ∧
      done.log.configDb = [] ∧ done.log.configIndices = ∅ := by
  obtain ⟨log, loaded, stores_eq, cached⟩ :=
    load_eq ⟨[(zeroKey, encodeZeroValue 1 0)], []⟩ persisted_empty
  have spans : Spans { log with configIndices := configIndicesOf log.configDb }
      History.empty :=
    ⟨cached.first, cached.last, cached.append⟩
  refine ⟨⟨initWrites Stores.empty, { log with configIndices := configIndicesOf log.configDb }⟩, ?_,
    ⟨?_, spans, cached.checksum, cached.lastChecksum⟩, ?_, ?_⟩
  · have written : Stores.empty.performAll (initWrites Stores.empty) =
        ⟨[(zeroKey, encodeZeroValue 1 0)], []⟩ := rfl
    rw [init, written, loaded, ok_bind]
    exact congrArg (· >>= fun _ => pure _) (check_ok spans)
  · rw [stores_eq]
    exact persisted_empty
  · rw [stores_eq]
  · simp only [stores_eq]
    rfl

theorem start_represents {ops : List Op} (fits : Fits History.empty ops)
    (short : ∀ op ∈ ops, op.Short) :
    ∃ log, start ops = .ok log ∧ Represents log (History.empty.run ops) := by
  obtain ⟨opened, opened_eq, represents, -⟩ := init_empty
  obtain ⟨log, run_eq, last⟩ := run_represents represents fits short
  refine ⟨log, ?_, last⟩
  rw [start, opened_eq, ok_bind, run_eq]

/-- All that can be read from a log is what its history says, and opening it
again restores the fields. -/
structure Agrees (log : RaftLog) (h : History) : Prop where
  first : log.first = h.first
  last : log.last = h.last
  append : log.append = h.append
  indexValid : ∀ index, log.indexValid index = decide (h.Holds index)
  get : ∀ index < maxIndex, log.get index = .ok (h.get index)
  getMeta : ∀ index < maxIndex, log.getMeta index = .ok (h.getMeta index)
  lastMeta : log.lastMeta = .ok h.lastMeta
  reopened : ∃ done, init log.toStores = .ok done ∧ done.log.first = log.first ∧
    done.log.last = log.last ∧ done.log.append = log.append ∧
    done.log.lastChecksum = log.lastChecksum

theorem agrees_of_represents (represents : Represents log h) : Agrees log h := by
  have checked := check_ok represents.toSpans
  obtain ⟨next, done_eq, -, cached, -⟩ := init_eq represents.toPersisted
  exact {
    first := represents.first
    last := represents.last
    append := represents.append
    indexValid := indexValid_eq represents.toSpans
    get := fun index index_lt => get_eq represents index_lt
    getMeta := fun index index_lt => getMeta_eq represents.toPersisted checked index_lt
    lastMeta := lastMeta_eq represents.toPersisted checked represents.last
    reopened := ⟨_, done_eq, cached.first.trans represents.first.symm,
      cached.last.trans represents.last.symm, cached.append.trans represents.append.symm,
      cached.lastChecksum.trans represents.lastChecksum.symm⟩ }

/-- Three entries, compacted and truncated from both ends until none is left, and
a fourth one. -/
def mixed : List Op :=
  [.appendOne ⟨1, .data, [7]⟩, .appendOne ⟨1, .noop, []⟩, .appendOne ⟨2, .data, [8]⟩,
    .deleteUtil 1, .reopen, .deleteFrom 3, .deleteUtil 9, .reopen, .appendOne ⟨3, .data, [9]⟩]

/-- The running checksum is the fold over the history, and so is the one in front
of every stored entry; it depends on nothing but the history. -/
theorem lastChecksum_of_history (ops : List Op) (fits : Fits History.empty ops)
    (short : ∀ op ∈ ops, op.Short) :
    ∃ log, start ops = .ok log ∧ log.lastChecksum = chain (History.empty.run ops).all ∧
      (∀ index mv, index < maxIndex → log.getMeta index = .ok (some mv) →
        mv.preChkAll = chain ((History.empty.run ops).all.take (index - 1)) ∧
        mv.chkAll = chain ((History.empty.run ops).all.take index) ∧
        ∀ before, log.getMeta (index - 1) = .ok (some before) → mv.preChkAll = before.chkAll) ∧
      ∀ others, Fits History.empty others → (∀ op ∈ others, op.Short) →
        (History.empty.run others).all = (History.empty.run ops).all →
        ∃ other, start others = .ok other ∧ other.lastChecksum = log.lastChecksum := by
  obtain ⟨log, run_eq, represents⟩ := start_represents fits short
  have checked := check_ok represents.toSpans
  have checksums : ∀ index mv, index < maxIndex → log.getMeta index = .ok (some mv) →
      mv.preChkAll = chain ((History.empty.run ops).all.take (index - 1)) ∧
        mv.chkAll = chain ((History.empty.run ops).all.take index) := by
    intro index mv index_lt read
    rw [getMeta_eq represents.toPersisted checked index_lt] at read
    obtain ⟨entry, found, rfl⟩ := Option.map_eq_some_iff.mp (Except.ok.inj read)
    exact ⟨rfl, by rw [History.take_of_entryAt found]; rfl⟩
  refine ⟨log, run_eq, represents.lastChecksum, fun index mv index_lt read => ?_,
    fun others fits' short' same => ?_⟩
  · obtain ⟨pre_eq, all_eq⟩ := checksums index mv index_lt read
    refine ⟨pre_eq, all_eq, fun before read' => ?_⟩
    rw [pre_eq, (checksums (index - 1) before (by omega) read').2]
  · obtain ⟨other, run_eq', represents'⟩ := start_represents fits' short'
    exact ⟨other, run_eq', by rw [represents'.lastChecksum, same, represents.lastChecksum]⟩

/-- Appending what is left of the mixed run gives the same checksum. -/
theorem lastChecksum_of_history_mixed :
    ∃ log other, start mixed = .ok log ∧
      start [.appendOne ⟨1, .data, [7]⟩, .appendOne ⟨1, .noop, []⟩, .appendOne ⟨3, .data, [9]⟩] =
        .ok other ∧
      log.lastChecksum = chain [⟨1, .data, [7]⟩, ⟨1, .noop, []⟩, ⟨3, .data, [9]⟩] ∧
      other.lastChecksum = log.lastChecksum := by
  obtain ⟨log, run_eq, checksum_eq, -, unique⟩ :=
    lastChecksum_of_history mixed (by decide +kernel) (by decide +kernel)
  obtain ⟨other, run_eq', same⟩ := unique
    [.appendOne ⟨1, .data, [7]⟩, .appendOne ⟨1, .noop, []⟩, .appendOne ⟨3, .data, [9]⟩]
    (by decide +kernel) (by decide +kernel) rfl
  exact ⟨log, other, run_eq, run_eq', checksum_eq, same⟩

end RaftLog

end Vraft
