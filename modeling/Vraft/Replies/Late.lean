import Vraft.Raft.Quorum
import Vraft.Refine.Progress
import Vraft.Replies.Reign

/-!
# Late replies

A reply may arrive long after it was sent.  Its handler drops it when the terms
differ, and it asserts the rest: that the node leads, that a snapshot is being sent,
that the log has what is committed and what is sent.  A leader that has not restarted
since it became one meets the first of these.
-/

namespace Vraft

/-- More than half of the members hold the entries up to `index`. -/
def IndexManager.Held (indices : IndexManager) (lastIndex index : ℕ) : Prop :=
  (indices.matches_ lastIndex).length <
    2 * (indices.matches_ lastIndex).countP fun held => index ≤ held

theorem IndexManager.held_majorityMax (indices : IndexManager) (lastIndex : ℕ) :
    indices.Held lastIndex (indices.majorityMax lastIndex) ∧
      ¬indices.Held lastIndex (indices.majorityMax lastIndex + 1) := by
  have nonempty : indices.matches_ lastIndex ≠ [] := List.cons_ne_nil _ _
  rw [majorityMax_eq]
  refine ⟨Majority.length_lt_two_mul_countP nonempty, ?_⟩
  exact Nat.not_lt.mpr (Majority.two_mul_countP_le_length nonempty (Nat.lt_succ_self _))

theorem IndexManager.Held.mono {indices : IndexManager} {lastIndex index lower : ℕ}
    (held : indices.Held lastIndex index) (le : lower ≤ index) : indices.Held lastIndex lower := by
  have more : (indices.matches_ lastIndex).countP (fun held => index ≤ held) ≤
      (indices.matches_ lastIndex).countP fun held => lower ≤ held := by
    refine List.countP_mono_left fun held _ reaches => ?_
    rw [decide_eq_true_eq] at reaches ⊢
    omega
  unfold Held at held ⊢
  omega

namespace Node

/-- The largest index that a majority holds in `indices` is committed, or the log has
its entry; and if that is one of the current term, the log has all entries up to it
that have not been applied. -/
def Bears (n : Node) (indices : IndexManager) : Prop :=
  ∀ index, n.commit < index → indices.Held n.lastIndex index → ¬indices.Held n.lastIndex (index + 1) →
    ∃ entry, n.log.entryAt index = some entry ∧ (entry.term = n.solid.term →
      ∀ i, n.lastApply < i → i ≤ index → (n.log.entryAt i).isSome)

/-- The whole log is there, or a snapshot can take the place of what is missing. -/
def Supplied (n : Node) : Prop :=
  n.log.base = 0 ∨ n.hooks.createReader.isSome = true

variable {n n' : Node} {rc : RaftConfig}

theorem bears_iff {indices : IndexManager} : n.Bears indices ↔
    (n.commit < indices.majorityMax n.lastIndex →
      ∃ entry, n.log.entryAt (indices.majorityMax n.lastIndex) = some entry ∧
        (entry.term = n.solid.term → ∀ i, n.lastApply < i → i ≤ indices.majorityMax n.lastIndex →
          (n.log.entryAt i).isSome)) := by
  obtain ⟨held, greatest⟩ := indices.held_majorityMax n.lastIndex
  constructor
  · exact fun bears more => bears _ more held greatest
  · intro bears index more reached last
    have same : index = indices.majorityMax n.lastIndex := by
      by_contra other
      rcases Nat.lt_or_gt_of_ne other with below | above
      · exact last (held.mono below)
      · exact greatest (reached.mono above)
    rw [same] at more ⊢
    exact bears more

theorem applyFrom_ok (plain : ∀ entry ∈ n.log.entries, entry.Plain) {index count : ℕ}
    (inside : ∀ i, index ≤ i → i < index + count → (n.log.entryAt i).isSome) :
    ∃ n', n.applyFrom index count = .ok n' := by
  induction count generalizing n index with
  | zero => exact ⟨n, rfl⟩
  | succ count ih =>
      obtain ⟨entry, found⟩ := Option.isSome_iff_exists.mp (inside index le_rfl (by omega))
      have one : ∃ n₁, n.applyOne index = .ok n₁ ∧ n₁.log = n.log := by
        unfold applyOne
        rw [Log.get, found, Option.map_some]
        have mem : entry ∈ n.log.entries := by
          unfold Log.entryAt at found
          split at found
          · contradiction
          · exact List.mem_of_getElem? found
        dsimp only
        rcases plain entry mem with data | noop
        · rw [data]
          dsimp only
          split
          · exact ⟨_, rfl, rfl⟩
          · exact ⟨_, rfl, rfl⟩
        · rw [noop]
          exact ⟨_, rfl, rfl⟩
      obtain ⟨n₁, done, log⟩ := one
      rw [applyFrom, done, ok_bind]
      refine ih (log ▸ plain) fun i le lt => ?_
      rw [log]
      exact inside i (by omega) (by omega)

theorem stateMachineApply_ok (plain : ∀ entry ∈ n.log.entries, entry.Plain)
    (inside : ∀ i, n.lastApply < i → i ≤ n.commit → (n.log.entryAt i).isSome) :
    ∃ n', n.stateMachineApply = .ok n' := by
  unfold stateMachineApply
  split
  · have between (i : ℕ) (le : n.lastApply + 1 ≤ i)
        (lt : i < n.lastApply + 1 + (n.commit - n.lastApply)) : (n.log.entryAt i).isSome :=
      inside i (by omega) (by omega)
    obtain ⟨n', done⟩ := applyFrom_ok plain between
    rw [done]
    exact ⟨_, rfl⟩
  · exact ⟨n, rfl⟩

/-- A leader whose log covers what is held can always see what is committed. -/
theorem maybeCommit_ok (plain : ∀ entry ∈ n.log.entries, entry.Plain) (leader : n.state = .leader)
    (bears : n.Bears n.indexMgr) : ∃ n', n.maybeCommit = .ok n' ∧ n'.log = n.log := by
  unfold maybeCommit
  rw [check_of leader, ok_bind]
  dsimp only
  split
  · exact ⟨n, rfl, rfl⟩
  · rename_i more
    obtain ⟨held, greatest⟩ := n.indexMgr.held_majorityMax n.lastIndex
    obtain ⟨entry, found, applied⟩ := bears _ (not_le.mp more) held greatest
    have last : n.indexMgr.majorityMax n.lastIndex ≤ n.log.last := by
      have get : n.log.get (n.indexMgr.majorityMax n.lastIndex) =
          some ⟨n.indexMgr.majorityMax n.lastIndex, entry⟩ := by
        rw [Log.get, found]
        rfl
      exact n.log.index_le_last get
    have first : n.log.first ≤ n.indexMgr.majorityMax n.lastIndex := by
      unfold Log.first
      split
      · exact Nat.zero_le _
      · unfold Log.entryAt at found
        split at found
        · contradiction
        · omega
    rw [check_of first, ok_bind, Log.getMeta, found, Option.map_some]
    dsimp only
    split
    · exact ⟨n, rfl, rfl⟩
    · rename_i current
      rw [check_of last, ok_bind]
      have done := @stateMachineApply_ok
        { n with commit := n.indexMgr.majorityMax n.lastIndex } plain (applied (not_not.mp current))
      obtain ⟨n', done⟩ := done
      exact ⟨n', done, (applies_stateMachineApply.of_ok done).log⟩

/-! ## Sends -/

theorem preTermOf_ok {preIndex : ℕ} (le : preIndex ≤ n.lastIndex) :
    ∃ preTerm, n.preTermOf preIndex = .ok preTerm := by
  unfold preTermOf
  split
  · rename_i first
    split
    · exact ⟨_, rfl⟩
    · rename_i missing
      exfalso
      unfold getTerm at missing
      split at missing
      · contradiction
      · rename_i positive
        split at missing
        · contradiction
        · rename_i above
          have none_ : n.sm = none := Option.map_eq_none_iff.mp missing
          have last : preIndex ≤ n.log.last := by
            simpa [lastIndex, smLast, none_] using le
          have nonempty : n.log.entries ≠ [] := by
            intro empty
            rw [Log.last, if_pos empty] at last
            omega
          rw [Log.first, if_neg nonempty] at first
          rw [Log.last, if_neg nonempty] at last
          obtain ⟨entry, found⟩ := n.log.exists_entryAt preIndex (by omega) (by unfold Log.append; omega)
          rw [Log.getMeta, found] at above
          contradiction
  · split
    · exact ⟨_, rfl⟩
    · split
      · exact ⟨_, rfl⟩
      · exact ⟨_, rfl⟩

/-- Only what lies in front of the log has no term. -/
theorem preTermOf_none {preIndex : ℕ} (missing : n.preTermOf preIndex = .ok none) :
    0 < preIndex ∧ preIndex < n.log.first := by
  unfold preTermOf at missing
  split at missing
  · split at missing
    · cases missing
    · cases missing
  · rename_i before
    split at missing
    · cases missing
    · rename_i positive
      exact ⟨Nat.pos_of_ne_zero positive, not_le.mp before⟩

theorem entriesAt_ok (index : ℕ) : ∃ entries, n.entriesAt index = .ok entries := by
  unfold entriesAt
  split
  · rename_i valid
    simp only [Log.indexValid, Bool.and_eq_true, decide_eq_true_eq] at valid
    obtain ⟨⟨positive, first⟩, last⟩ := valid
    have nonempty : n.log.entries ≠ [] := by
      intro empty
      rw [Log.last, if_pos empty] at last
      omega
    rw [Log.first, if_neg nonempty] at first
    rw [Log.last, if_neg nonempty] at last
    obtain ⟨entry, found⟩ := n.log.exists_entryAt index (by omega) (by unfold Log.append; omega)
    rw [Log.get, found]
    exact ⟨_, rfl⟩
  · exact ⟨_, rfl⟩

/-- A leader can send to a peer that is behind. -/
theorem sendAppendEntries_ok (supplied : n.Supplied) {dest : Addr}
    (positive : 0 < n.indexMgr.getNext dest) (le : n.indexMgr.getNext dest ≤ n.lastIndex) :
    ∃ n', n.sendAppendEntries dest = .ok n' := by
  have next : IndexManager.getNext (n.indexMgr.touch dest) dest = n.indexMgr.getNext dest := by
    rw [IndexManager.getNext, Table.touch_val]
    rfl
  have pre : preIndexOf (n.indexMgr.getNext dest) = n.indexMgr.getNext dest - 1 :=
    if_neg (by omega)
  have streams (compacted : n.log.base ≠ 0) : ∃ n',
      sendInstallSnapshot { n with indexMgr := n.indexMgr.touch dest } dest = .ok n' := by
    obtain ⟨createReader, created⟩ := Option.isSome_iff_exists.mp (supplied.resolve_left compacted)
    have found : ∃ reader,
        readerFor { n with indexMgr := n.indexMgr.touch dest } dest = some reader := by
      refine Option.isSome_iff_exists.mp ?_
      simp [readerFor, created]
    obtain ⟨reader, found⟩ := found
    obtain ⟨n', done, -⟩ := sendInstallSnapshot_ok found
    exact ⟨n', done⟩
  unfold sendAppendEntries
  dsimp only
  rw [next, pre, check_of]
  swap
  · show n.indexMgr.getNext dest - 1 ≤ n.lastIndex
    omega
  rw [ok_bind]
  split
  · rename_i behind
    refine streams fun base => ?_
    have first := Log.first_le_one base
    have behind : n.indexMgr.getNext dest < n.log.first := behind
    omega
  · have found := @preTermOf_ok { n with indexMgr := n.indexMgr.touch dest }
      (n.indexMgr.getNext dest - 1) (show n.indexMgr.getNext dest - 1 ≤ n.lastIndex by omega)
    obtain ⟨preTerm, found⟩ := found
    rw [found, ok_bind]
    split
    · refine streams fun base => ?_
      have first := Log.first_le_one base
      have before := preTermOf_none found
      have below : n.indexMgr.getNext dest - 1 < n.log.first := before.2
      omega
    · obtain ⟨entries, read⟩ := @entriesAt_ok { n with indexMgr := n.indexMgr.touch dest }
        (n.indexMgr.getNext dest)
      rw [read, ok_bind]
      exact ⟨_, rfl⟩

/-! ## Replies -/

/-- Next indices play no part. -/
theorem Bears.setNext {indices : IndexManager} (bears : n.Bears indices) (addr : Addr) (next : ℕ)
    (known : addr ∈ indices.keys) : n.Bears (indices.setNext addr next) := by
  have same : (indices.setNext addr next).matches_ n.lastIndex = indices.matches_ n.lastIndex := by
    rw [IndexManager.matches_, IndexManager.matches_, IndexManager.setNext,
      Table.set_keys_of_mem _ known, List.cons.injEq]
    refine ⟨rfl, List.map_congr_left fun other _ => ?_⟩
    rw [Table.set_val]
    split
    · rename_i own
      rw [own]
    · rfl
  unfold Bears IndexManager.Held
  rw [same]
  exact bears

/-- The match index of `src` once `acked` is known of it. -/
def acknowledge (n : Node) (src : Addr) (acked : ℕ) : IndexManager :=
  IndexManager.setMatch (n.indexMgr.touch src) src acked

/-- The handler drops a reply with these terms. -/
def Drops (n : Node) (term reqTerm : ℕ) : Prop :=
  term < n.solid.term ∨ reqTerm ≠ n.solid.term

/-- A follower that accepts raises its match index only as far as the log covers what
is then held. -/
def BearsReply (n : Node) (msg : AppendEntriesReply) : Prop :=
  msg.success = true → n.indexMgr.getMatch msg.src ≤ msg.reqPreIndex + msg.reqNumEntries →
    n.Bears (n.acknowledge msg.src (msg.reqPreIndex + msg.reqNumEntries))

/-- So does one that has the whole snapshot. -/
def BearsSnapshot (n : Node) (msg : InstallSnapshotReply) (reader : SnapshotReader) : Prop :=
  msg.stored = reader.offset - 1 → reader.done = true →
    n.Bears (n.indexMgr.setMatch msg.src reader.lastIndex)

theorem onIndexReply_ok {msg : AppendEntriesReply} (plain : ∀ entry ∈ n.log.entries, entry.Plain)
    (leader : n.state = .leader) (bears : n.BearsReply msg) :
    ∃ n', n.onIndexReply msg = .ok n' ∧ n'.log = n.log := by
  have touched : IndexManager.getMatch (n.indexMgr.touch msg.src) msg.src =
      n.indexMgr.getMatch msg.src := by
    rw [IndexManager.getMatch, Table.touch_val]
    rfl
  unfold onIndexReply
  split
  · rename_i success
    unfold onMatch raiseMatch
    dsimp only
    rw [touched]
    split
    · exact ⟨_, rfl, rfl⟩
    · rename_i known
      have raised := @maybeCommit_ok { n with
          indexMgr := n.acknowledge msg.src (msg.reqPreIndex + msg.reqNumEntries) } plain leader
        (bears success (not_lt.mp known))
      obtain ⟨n₁, done, log⟩ := raised
      unfold acknowledge at done
      rw [done, ok_bind]
      exact ⟨_, rfl, log⟩
  · exact ⟨_, rfl, rfl⟩

theorem onAppendEntriesReply_ok {msg : AppendEntriesReply} (wired : Wired rc n)
    (peer : msg.src ∈ rc.peers) (ready : n.Drops msg.term msg.reqTerm ∨ n.state = .leader ∧
      (n.solid.term < msg.term ∨ n.Supplied ∧ n.BearsReply msg)) :
    ∃ n', n.onAppendEntriesReply msg = .ok n' := by
  unfold onAppendEntriesReply
  split
  · exact ⟨_, rfl⟩
  split
  · exact ⟨_, rfl⟩
  split
  · exact ⟨_, rfl⟩
  rename_i fresh current
  obtain ⟨leader, ready⟩ := ready.resolve_left fun drops => drops.elim fresh current
  rw [check_of leader, ok_bind]
  split
  · rename_i later
    rw [stepDown, check_of later.le, ok_bind]
    exact ⟨_, rfl⟩
  · rename_i same
    have terms : msg.term = n.solid.term ∧ msg.reqTerm = n.solid.term :=
      ⟨le_antisymm (not_lt.mp same) (not_lt.mp fresh), not_not.mp current⟩
    obtain ⟨supplied, bears⟩ := ready.resolve_left same
    rw [check_of terms, ok_bind]
    obtain ⟨n₁, done, log⟩ := onIndexReply_ok wired.plain leader bears
    have conveys := (onIndexReply_conveys wired msg).of_ok done
    rw [done, ok_bind]
    split
    · rename_i behind
      have supplied₁ : n₁.Supplied := by
        rw [Supplied, log, conveys.hooks]
        exact supplied
      obtain ⟨n₂, sent⟩ := sendAppendEntries_ok supplied₁ (conveys.wired.indices _ peer).2 behind
      rw [sent, ok_bind]
      exact ⟨_, rfl⟩
    · exact ⟨_, rfl⟩

theorem onSnapshotStored_ok {msg : InstallSnapshotReply} {reader : SnapshotReader}
    (plain : ∀ entry ∈ n.log.entries, entry.Plain) (leader : n.state = .leader)
    (bears : n.BearsSnapshot msg reader) :
    ∃ n', n.onSnapshotStored msg reader = .ok n' ∧ n'.log = n.log := by
  unfold onSnapshotStored
  split
  · rename_i whole
    have raised := @maybeCommit_ok { n with
        indexMgr := IndexManager.setNext (n.indexMgr.setMatch msg.src reader.lastIndex) msg.src
          (IndexManager.getMatch (n.indexMgr.setMatch msg.src reader.lastIndex) msg.src + 1) }
      plain leader ?_
    · obtain ⟨n₁, done, log⟩ := raised
      dsimp only
      rw [done, ok_bind]
      exact ⟨_, rfl, log⟩
    · refine Bears.setNext (n := { n with indexMgr := _ }) (bears whole.1 whole.2) msg.src _ ?_
      exact (Table.mem_set_keys _ _).mpr (.inl rfl)
  · exact ⟨_, rfl, rfl⟩

theorem onInstallSnapshotReply_ok {msg : InstallSnapshotReply} (wired : Wired rc n)
    (peer : msg.src ∈ rc.peers) {reader : SnapshotReader}
    (open_ : (n.snapshotMgr.val msg.src).reader = some reader)
    (ready : n.Drops msg.term msg.reqTerm ∨ n.state = .leader ∧
      (n.solid.term < msg.term ∨ n.Supplied ∧ n.BearsSnapshot msg reader)) :
    ∃ n', n.onInstallSnapshotReply msg = .ok n' := by
  have touched : Wired rc { n with snapshotMgr := n.snapshotMgr.touch msg.src } := by
    refine ⟨wired.toFixed.congr rfl rfl, wired.indices, fun dest other held => ?_⟩
    rw [Table.touch_val] at held
    exact wired.readers dest other held
  unfold onInstallSnapshotReply
  split
  · exact ⟨_, rfl⟩
  dsimp only
  rw [Table.touch_val, open_]
  dsimp only
  split
  · exact ⟨_, rfl⟩
  split
  · exact ⟨_, rfl⟩
  rename_i fresh current
  obtain ⟨leader, ready⟩ := ready.resolve_left fun drops => drops.elim fresh current
  rw [check_of leader, ok_bind]
  split
  · rename_i later
    rw [stepDown, check_of later.le, ok_bind]
    exact ⟨_, rfl⟩
  · rename_i same
    have terms : msg.term = n.solid.term ∧ msg.reqTerm = n.solid.term :=
      ⟨le_antisymm (not_lt.mp same) (not_lt.mp fresh), not_not.mp current⟩
    obtain ⟨supplied, bears⟩ := ready.resolve_left same
    rw [check_of terms, ok_bind]
    have stored := @onSnapshotStored_ok { n with snapshotMgr := n.snapshotMgr.touch msg.src } msg
      reader wired.plain leader bears
    obtain ⟨n₁, done, log⟩ := stored
    have conveys := (onSnapshotStored_conveys touched msg reader).of_ok done
    rw [done, ok_bind]
    have supplied₁ : n₁.Supplied := by
      rw [Supplied, log, conveys.hooks]
      exact supplied
    have looked : Wired rc { n₁ with indexMgr := n₁.indexMgr.touch msg.src } :=
      ⟨conveys.wired.toFixed.congr rfl rfl, conveys.wired.indices.touch _, conveys.wired.readers⟩
    unfold sendNext
    dsimp only
    split
    · rename_i behind
      have sent := @sendAppendEntries_ok { n₁ with indexMgr := n₁.indexMgr.touch msg.src } supplied₁
        _ (looked.indices _ peer).2 behind
      obtain ⟨n₂, sent⟩ := sent
      rw [sent, ok_bind]
      exact ⟨_, rfl⟩
    · exact ⟨_, rfl⟩

end Node

namespace Message

/-- The message answers entries or a piece of a snapshot. -/
def Acknowledges : Message → Prop
  | .appendEntriesReply _ => True
  | .installSnapshotReply _ => True
  | _ => False

end Message

namespace Aged

/-- What a reply finds: a node that drops it, or one that has become leader of its term
since it was last started.  That one hears of a later term, or it can send, and its log
covers what is held once the reply counts.  For a snapshot the reader is still open. -/
def Ready (s : Aged) (p : Addr) : Message → Prop
  | .appendEntriesReply msg =>
      (s.cluster.node p).Drops msg.term msg.reqTerm ∨
        Effect.becomeLeader (s.cluster.node p).solid.term ∈ s.since p ∧
          ((s.cluster.node p).solid.term < msg.term ∨
            (s.cluster.node p).Supplied ∧ (s.cluster.node p).BearsReply msg)
  | .installSnapshotReply msg =>
      ∃ reader, ((s.cluster.node p).snapshotMgr.val msg.src).reader = some reader ∧
        ((s.cluster.node p).Drops msg.term msg.reqTerm ∨
          Effect.becomeLeader (s.cluster.node p).solid.term ∈ s.since p ∧
            ((s.cluster.node p).solid.term < msg.term ∨
              (s.cluster.node p).Supplied ∧ (s.cluster.node p).BearsSnapshot msg reader))
  | _ => True

variable {m : Membership} {s : Aged} {p : Addr}

/-- A reply that was sent at any time and is delivered now makes no assert fail, if it
is dropped, or the node has not restarted since it became leader of its term, the reader
of a snapshot is open, and the log has what is committed and sent. -/
theorem late_replies (reachable : s.Reachable m) (mem : p ∈ m.members) {msg : Message} {now : ℤ}
    (enabled : s.cluster.Enabled m p (.recv msg now)) (acknowledges : msg.Acknowledges)
    (ready : s.Ready p msg) : ∃ n, (s.cluster.node p).handle (.recv msg now) = .ok n := by
  have reigned := reigned_of_reachable reachable
  have agrees := Cluster.agrees_of_reachable (longReachable reachable)
  have reign := reigned p mem
  obtain ⟨placed, -⟩ := reigned.comes agrees enabled
  cases msg with
  | appendEntriesReply msg =>
      refine Node.onAppendEntriesReply_ok reign.wired placed ?_
      exact ready.imp id fun ready => ⟨reign.reigns.mp ready.1, ready.2⟩
  | installSnapshotReply msg =>
      obtain ⟨reader, open_, ready⟩ := ready
      refine Node.onInstallSnapshotReply_ok reign.wired placed open_ ?_
      exact ready.imp id fun ready => ⟨reign.reigns.mp ready.1, ready.2⟩
  | _ => exact acknowledges.elim

/-- The answer of `2` to the first entry of `1`, the leader of term `2`. -/
def firstReply : AppendEntriesReply where
  src := 2
  dest := 1
  term := 2
  success := true
  lastLogIndex := 1
  reqPreIndex := 0
  reqNumEntries := 1
  reqTerm := 2

/-- The leader `1` takes a reply again that it has taken before. -/
theorem late_replies_twice : ∃ (s : Aged) (n : Node), s.Reachable (.upTo 3) ∧
    (s.cluster.node 1).commit = 1 ∧
      (s.cluster.node 1).handle (.recv (.appendEntriesReply firstReply) 0) = .ok n := by
  have observed : ((Cluster.start (.upTo 3)).play (.upTo 3)
      (Cluster.election 1 [2] ++ Cluster.exchange 1 2)).any (fun s =>
        decide ((s.node 1).commit = 1) && decide ((s.node 1).state = .leader) &&
        decide (s.Enabled (.upTo 3) 1 (.recv (.appendEntriesReply firstReply) 0)) &&
        decide ((s.node 1).log.base = 0) &&
        decide (((s.node 1).acknowledge 2 1).majorityMax (s.node 1).lastIndex ≤ 1)) = true := by
    decide +kernel
  obtain ⟨c, run, seen⟩ := @Cluster.run_of_observed _ Cluster.Between _ _ _ observed
  simp only [Bool.and_eq_true, decide_eq_true_eq] at seen
  obtain ⟨⟨⟨⟨commit, leader⟩, enabled⟩, base⟩, held⟩ := seen
  have reachable : Cluster.LongReachable (.upTo 3) c :=
    ⟨_, Cluster.longRun_of_run (fun _ between => between) run⟩
  obtain ⟨s, watched, rfl⟩ := exists_reachable reachable
  have mem : 1 ∈ (Membership.upTo 3).members := by decide
  have led := ((reigned_of_reachable watched) 1 mem).reigns.mpr leader
  have bears : (s.cluster.node 1).BearsReply firstReply := by
    intro _ _
    refine Node.bears_iff.mpr fun more => absurd more ?_
    rw [commit]
    exact not_lt.mpr held
  obtain ⟨n, done⟩ := late_replies watched mem enabled trivial
    (.inr ⟨led, .inr ⟨.inl base, bears⟩⟩)
  exact ⟨s, n, watched, commit, done⟩

/-- The leader `1` restarts before the first reply comes.  It is in the term of the
reply, and it does not lead. -/
theorem not_late_replies : ¬∀ (m : Membership) (s : Aged), s.Reachable m → ∀ p ∈ m.members,
    ∀ (msg : Message) (now : ℤ), s.cluster.Enabled m p (.recv msg now) → msg.Acknowledges →
      ∃ n, (s.cluster.node p).handle (.recv msg now) = .ok n := by
  intro all
  have observed : ((Cluster.start (.upTo 3)).play (.upTo 3) (Cluster.election 1 [2] ++
      [.handle 1 (.heartbeatTimer 2), .deliver 1])).any (fun s =>
        decide (s.Enabled (.upTo 3) 1 (.recv (.appendEntriesReply firstReply) 0)) &&
        !((Node.boot ((Membership.upTo 3).config 1) ⟨false, false, false, {}⟩
          (s.node 1).disk).onAppendEntriesReply firstReply).isOk) = true := by decide +kernel
  obtain ⟨c, run, seen⟩ := @Cluster.run_of_observed _ Cluster.Between _ _ _ observed
  rw [Bool.and_eq_true, decide_eq_true_eq, Bool.not_eq_true'] at seen
  obtain ⟨enabled, fails⟩ := seen
  have reachable : Cluster.LongReachable (.upTo 3) c :=
    ⟨_, Cluster.longRun_of_run (fun _ between => between) run⟩
  obtain ⟨s, ⟨flags, watched⟩, rfl⟩ := exists_reachable reachable
  have mem : 1 ∈ (Membership.upTo 3).members := by decide
  have restarted := watched.tail (.restart 1 mem ⟨false, false, false, {}⟩)
  obtain ⟨⟨q, memQ, sent⟩, dest⟩ := enabled
  obtain ⟨n, done⟩ := all _ _ ⟨flags, restarted⟩ 1 mem (.appendEntriesReply firstReply) 0
    ⟨⟨q, memQ, by rwa [restart_hist]⟩, dest⟩ trivial
  rw [restart_node] at done
  rw [show Node.onAppendEntriesReply _ firstReply = .ok n from done] at fails
  contradiction

end Aged

end Vraft
