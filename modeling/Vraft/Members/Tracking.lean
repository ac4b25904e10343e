import Vraft.Roles.Timers

/-!
# The managers and the peers

A node keeps its votes, replication indices, snapshots and per-peer timers in
five separate tables.  As long as every reply it takes into account comes from a
peer, all of them have the peers of the current configuration as their keys.
Subscripts insert what they miss, so one late reply of a removed server is enough
to bring that server back into a table.
-/

namespace Vraft

/-! ## Tables over the peers -/

/-- The given peers are the keys of every table, and every next index is
positive. -/
structure TracksPeers (voteMgr : VoteManager) (indexMgr : IndexManager)
    (snapshotMgr : SnapshotManager) (timerMgr : TimerManager) (peers : List Addr) : Prop where
  votes : ∀ addr, addr ∈ voteMgr.keys ↔ addr ∈ peers
  indices : ∀ addr, addr ∈ indexMgr.keys ↔ addr ∈ peers
  snapshots : ∀ addr, addr ∈ snapshotMgr.keys ↔ addr ∈ peers
  requestVotes : ∀ addr, addr ∈ timerMgr.requestVotes.keys ↔ addr ∈ peers
  heartbeats : ∀ addr, addr ∈ timerMgr.heartbeats.keys ↔ addr ∈ peers
  next_pos : ∀ addr ∈ peers, 0 < indexMgr.getNext addr

/-- The four managers of a node have these peers. -/
abbrev Node.Tracks (n : Node) (peers : List Addr) : Prop :=
  TracksPeers n.voteMgr n.indexMgr n.snapshotMgr n.timerMgr peers

section Tracks

variable {n n' : Node} {peers : List Addr} {rc : RaftConfig}

theorem TracksPeers.congr {peers' : List Addr} (tracks : n.Tracks peers)
    (same : ∀ addr, addr ∈ peers ↔ addr ∈ peers') : n.Tracks peers' where
  votes addr := (tracks.votes addr).trans (same addr)
  indices addr := (tracks.indices addr).trans (same addr)
  snapshots addr := (tracks.snapshots addr).trans (same addr)
  requestVotes addr := (tracks.requestVotes addr).trans (same addr)
  heartbeats addr := (tracks.heartbeats addr).trans (same addr)
  next_pos addr mem := tracks.next_pos addr ((same addr).mpr mem)

theorem TracksPeers.addPeer (tracks : n.Tracks peers) {addr : Addr}
    (added : n.addPeer addr = .ok n') : n'.Tracks (peers ++ [addr]) := by
  obtain ⟨-, -, rfl⟩ := addPeer_ok_iff.mp added
  have grown : ∀ (keys : List Addr) (other : Addr), (other ∈ keys ↔ other ∈ peers) →
      (other = addr ∨ other ∈ keys ↔ other ∈ peers ++ [addr]) := by
    intro keys other same
    rw [List.mem_append, List.mem_singleton, same, or_comm]
  refine ⟨?_, ?_, ?_, ?_, ?_, ?_⟩
  · exact fun other => (Table.mem_set_keys _ _).trans (grown _ other (tracks.votes other))
  · exact fun other => (Table.mem_set_keys _ _).trans (grown _ other (tracks.indices other))
  · exact fun other => (Table.mem_set_keys _ _).trans (grown _ other (tracks.snapshots other))
  · exact fun other => (Table.mem_set_keys _ _).trans (grown _ other (tracks.requestVotes other))
  · exact fun other => (Table.mem_set_keys _ _).trans (grown _ other (tracks.heartbeats other))
  · intro other mem
    simp only [IndexManager.getNext, Node.withPeer, Table.set_val]
    split
    · dsimp only
      split <;> omega
    · rename_i ne
      refine tracks.next_pos other ?_
      simpa [ne] using mem

theorem TracksPeers.deletePeer (tracks : n.Tracks peers) (addr : Addr) :
    (n.deletePeer addr).Tracks (peers.filter fun peer => peer ≠ addr) := by
  have shrunk : ∀ (keys : List Addr) (other : Addr), (other ∈ keys ↔ other ∈ peers) →
      (other ≠ addr ∧ other ∈ keys ↔ other ∈ peers.filter fun peer => peer ≠ addr) := by
    intro keys other same
    rw [List.mem_filter, decide_eq_true_eq, same, and_comm]
  refine ⟨?_, ?_, ?_, ?_, ?_, ?_⟩
  · exact fun other => (Table.mem_erase_keys _).trans (shrunk _ other (tracks.votes other))
  · exact fun other => (Table.mem_erase_keys _).trans (shrunk _ other (tracks.indices other))
  · exact fun other => (Table.mem_erase_keys _).trans (shrunk _ other (tracks.snapshots other))
  · exact fun other => (Table.mem_erase_keys _).trans (shrunk _ other (tracks.requestVotes other))
  · exact fun other => (Table.mem_erase_keys _).trans (shrunk _ other (tracks.heartbeats other))
  · intro other mem
    rw [List.mem_filter, decide_eq_true_eq] at mem
    simp only [IndexManager.getNext, Node.deletePeer, Table.erase_val, if_neg mem.2]
    exact tracks.next_pos other mem.1

theorem TracksPeers.addPeers (tracks : n.Tracks rc.peers) {addrs : List Addr}
    {result : Node × RaftConfig} (done : n.addPeers rc addrs = .ok result) :
    result.1.Tracks result.2.peers := by
  induction addrs generalizing n rc with
  | nil =>
      obtain rfl := Except.ok.inj done
      exact tracks
  | cons addr rest ih =>
      obtain ⟨n₁, added, done⟩ := ok_of_bind_ok done
      refine ih ?_ done
      exact tracks.addPeer added

theorem TracksPeers.deletePeers (tracks : n.Tracks rc.peers) {addrs : List Addr} :
    (n.deletePeers rc addrs).1.Tracks (n.deletePeers rc addrs).2.peers := by
  induction addrs generalizing n rc with
  | nil => exact tracks
  | cons addr rest ih =>
      apply ih
      exact tracks.deletePeer addr

theorem TracksPeers.doConfigChange (tracks : n.Tracks n.peers) {result : Node × RaftConfig}
    (done : n.doConfigChange rc = .ok result) : result.1.Tracks result.2.peers := by
  rcases doConfigChange_cases done with ⟨-, -, added⟩ | ⟨-, -, -, rfl⟩
  · exact tracks.addPeers added
  · exact tracks.deletePeers

end Tracks

/-! ## Nodes -/

/-- The node sees its configuration from its own point of view, and so it does
the one it would go back to. -/
structure OwnView (own : Addr) (mgr : ConfigManager) : Prop where
  me : mgr.current.me = own
  fresh : own ∉ mgr.current.peers
  previous : ∀ rc, mgr.previous = some rc → rc.me = own ∧ own ∉ rc.peers

/-- The tables are in step with the configuration. -/
abbrev InStep (own : Addr) (n : Node) : Prop :=
  n.Tracks n.peers ∧ OwnView own n.configMgr

section InStep

variable {own : Addr} {n n' : Node} {heard : Addr → Prop} {follows : Prop}

theorem OwnView.fresh_me {n : Node} (view : OwnView own n.configMgr) : n.me ∉ n.peers := by
  rw [Node.me, view.me]
  exact view.fresh

theorem InStep.appendOne (sound : InStep own n) {entry : AppendEntry}
    (done : n.appendOne entry = .ok n') : InStep own n' := by
  obtain ⟨tracks, view⟩ := sound
  rcases appendOne_cases done with ⟨-, rfl⟩ | ⟨rc, n₁, config, -, -, changed, rfl⟩
  · exact ⟨tracks, view⟩
  · obtain ⟨me, peers⟩ := doConfigChange_config (n := n.emit _) view.fresh_me changed
    refine ⟨TracksPeers.doConfigChange (n := n.emit _) tracks changed, me.trans view.me, ?_, ?_⟩
    · intro mem
      exact ((peers own).mp mem).2 view.me.symm
    · rintro rc' ⟨⟩
      exact ⟨view.me, view.fresh⟩

theorem InStep.deleteFrom (sound : InStep own n) {from_ : ℕ}
    (done : n.deleteFrom from_ = .ok n') : InStep own n' := by
  obtain ⟨tracks, view⟩ := sound
  rcases deleteFrom_cases done with ⟨-, rfl⟩ | ⟨-, -, rfl⟩ | ⟨index, n₁, -, -, rolled, rfl⟩
  · exact ⟨tracks, view⟩
  · exact ⟨tracks, view⟩
  · obtain ⟨previous, n₂, config, found, changed, rfl⟩ := configRollback_cases rolled
    obtain ⟨previous_me, previous_fresh⟩ := view.previous previous found
    obtain ⟨-, peers⟩ := doConfigChange_config (n := n.emit _) view.fresh_me changed
    have tracks' := TracksPeers.doConfigChange (n := n.emit _) tracks changed
    refine ⟨tracks'.congr fun addr => (peers addr).trans ?_, previous_me, previous_fresh, nofun⟩
    show addr ∈ previous.me :: previous.peers ∧ addr ≠ n.configMgr.current.me ↔
      addr ∈ previous.peers
    rw [List.mem_cons, previous_me, view.me]
    constructor
    · rintro ⟨same | mem, other⟩
      · exact absurd same other
      · exact mem
    · intro mem
      refine ⟨.inr mem, ?_⟩
      rintro rfl
      exact previous_fresh mem

/-- Subscripts of peers insert nothing. -/
theorem mem_set_keys_of_peer {V : Type} [Inhabited V] {table : Table Addr V} {peers : List Addr}
    (same : ∀ addr, addr ∈ table.keys ↔ addr ∈ peers) {addr : Addr} (peer : addr ∈ peers) (v : V)
    (other : Addr) : other ∈ (table.set addr v).keys ↔ other ∈ peers := by
  rw [Table.set_keys_of_mem table ((same addr).mpr peer)]
  exact same other

theorem TracksPeers.index {peers : List Addr} (tracks : n.Tracks peers) {addr : Addr}
    {item : IndexItem} (peer : addr ∈ peers)
    (next_pos : 0 < item.next ∨ item.next = (n.indexMgr.val addr).next) :
    TracksPeers n.voteMgr (n.indexMgr.set addr item) n.snapshotMgr n.timerMgr peers :=
  { tracks with
    indices := mem_set_keys_of_peer tracks.indices peer item
    next_pos := by
      intro other mem
      rw [IndexManager.getNext, Table.set_val]
      split
      · rename_i same
        rcases next_pos with pos | kept
        · exact pos
        · rw [kept, ← same]
          exact tracks.next_pos other mem
      · exact tracks.next_pos other mem }

theorem TracksPeers.snapshot {peers : List Addr} (tracks : n.Tracks peers) {addr : Addr}
    (peer : addr ∈ peers) (snapshot : Snapshot) :
    TracksPeers n.voteMgr n.indexMgr (n.snapshotMgr.set addr snapshot) n.timerMgr peers :=
  { tracks with snapshots := mem_set_keys_of_peer tracks.snapshots peer snapshot }

/-- Sending a piece of a snapshot to a peer inserts nothing. -/
theorem sendInstallSnapshot_keys {dest : Addr} {peers : List Addr} (peer : dest ∈ peers)
    (same : ∀ addr, addr ∈ n.snapshotMgr.keys ↔ addr ∈ peers)
    (done : n.sendInstallSnapshot dest = .ok n') (addr : Addr) :
    addr ∈ n'.snapshotMgr.keys ↔ addr ∈ peers := by
  have touched : ∀ addr, addr ∈ (n.snapshotMgr.touch dest).keys ↔ addr ∈ peers :=
    mem_set_keys_of_peer same peer _
  have opened : ∀ addr, addr ∈ (n.openReader dest).snapshotMgr.keys ↔ addr ∈ peers := by
    unfold Node.openReader
    dsimp only
    split
    · exact mem_set_keys_of_peer touched peer _
    · exact touched
  unfold Node.sendInstallSnapshot at done
  dsimp only at done
  split at done
  · contradiction
  · obtain rfl := Except.ok.inj done
    exact mem_set_keys_of_peer opened peer _ addr

/-- Every action keeps the tables in step when it concerns peers only. -/
theorem InStep.act (sound : InStep own n) (known : ∀ addr, heard addr → addr ∈ n.peers)
    (act : Act heard follows n n') : InStep own n' ∧ ∀ addr, heard addr → addr ∈ n'.peers := by
  obtain ⟨tracks, view⟩ := sound
  have peer_of : ∀ addr, heard addr ∨ addr ∈ n.peers → addr ∈ n.peers :=
    fun addr peer => peer.elim (known addr) id
  cases act with
  | aside n' same =>
      refine ⟨⟨?_, ?_⟩, ?_⟩
      · rw [Node.Tracks, Node.peers, same.voteMgr, same.indexMgr, same.snapshotMgr, same.timerMgr,
          same.configMgr]
        exact tracks
      · rw [same.configMgr]
        exact view
      · rw [Node.peers, same.configMgr]
        exact known
  | vote addr item peer =>
      exact ⟨⟨{ tracks with votes := mem_set_keys_of_peer tracks.votes (known addr peer) item },
        view⟩, known⟩
  | index addr item peer next_pos =>
      exact ⟨⟨tracks.index (peer_of addr peer) next_pos, view⟩, known⟩
  | resetIndices next next_pos =>
      refine ⟨⟨{ tracks with next_pos := ?_ }, view⟩, known⟩
      intro addr mem
      have key := (tracks.indices addr).mpr mem
      simp only [IndexManager.getNext, IndexManager.resetNext, IndexManager.resetMatch,
        Table.mapValues_val, Table.mapValues_keys, if_pos key]
      exact next_pos
  | touchSnapshot addr peer => exact ⟨⟨tracks.snapshot (known addr peer) _, view⟩, known⟩
  | writer addr writer peer => exact ⟨⟨tracks.snapshot (known addr peer) _, view⟩, known⟩
  | closeReader addr peer => exact ⟨⟨tracks.snapshot (known addr peer) _, view⟩, known⟩
  | stream dest peer n' done =>
      have keys := sendInstallSnapshot_keys (peer_of dest peer) tracks.snapshots done
      have same := sendInstallSnapshot_same done
      generalize n'.snapshotMgr = snapshots at keys same
      generalize n'.effects = effects at same
      subst same
      exact ⟨⟨{ tracks with snapshots := keys }, view⟩, known⟩
  | append entry n' done quiet free =>
      refine ⟨InStep.appendOne ⟨tracks, view⟩ done, fun addr heard => ?_⟩
      rcases appendOne_cases done with ⟨-, rfl⟩ | ⟨_, _, _, config, -⟩
      · exact known addr heard
      · exact absurd heard (quiet config addr)
  | truncate from_ n' done quiet open_ comes =>
      exact ⟨InStep.deleteFrom ⟨tracks, view⟩ done, fun addr heard => absurd heard (quiet addr)⟩
  | stopRequestVoteOf addr =>
      refine ⟨⟨{ tracks with requestVotes := fun other => ?_ }, view⟩, known⟩
      rw [TimerManager.stopRequestVoteOf, Table.modify_keys]
      exact tracks.requestVotes other
  | beat addr leads =>
      refine ⟨⟨{ tracks with heartbeats := fun other => ?_ }, view⟩, known⟩
      rw [TimerManager.againHeartBeatOf, Table.modify_keys]
      exact tracks.heartbeats other
  | clearVotes => exact ⟨⟨{ tracks with votes := tracks.votes }, view⟩, known⟩
  | _ => exact ⟨⟨{ tracks with
      requestVotes := tracks.requestVotes, heartbeats := tracks.heartbeats }, view⟩, known⟩

/-! ## Along runs -/

theorem TracksPeers.reset (peers : List Addr) {next : ℕ} (next_pos : 0 < next) :
    TracksPeers (VoteManager.reset peers) (((IndexManager.reset peers).resetNext next).resetMatch 0)
      (SnapshotManager.reset peers) (TimerManager.reset peers).againElection peers where
  votes := Table.mem_ofKeys_keys peers _
  indices := Table.mem_ofKeys_keys peers _
  snapshots := Table.mem_ofKeys_keys peers _
  requestVotes := Table.mem_ofKeys_keys peers _
  heartbeats := Table.mem_ofKeys_keys peers _
  next_pos addr mem := by
    have key : addr ∈ (IndexManager.reset peers).keys := (Table.mem_ofKeys_keys peers _ addr).mpr mem
    simp only [IndexManager.getNext, IndexManager.resetNext, IndexManager.resetMatch,
      Table.mapValues_val, Table.mapValues_keys, if_pos key]
    exact next_pos

/-- A node whose record, if it has one, was written by itself starts in step. -/
theorem InStep.boot {rc : RaftConfig} (fresh : rc.me ∉ rc.peers) (flags : Flags) {disk : Disk}
    (recorded : ∀ last, disk.log.lastConfig = some last → last.me = rc.me ∧ rc.me ∉ last.peers) :
    InStep rc.me (Node.boot rc flags disk) := by
  refine ⟨TracksPeers.reset _ (Nat.succ_pos _), ?_⟩
  cases found : disk.log.lastConfig with
  | none =>
      simp only [Node.boot, found]
      refine ⟨rfl, fresh, ?_⟩
      rintro _ ⟨⟩
  | some last =>
      obtain ⟨me, peers⟩ := recorded last found
      simp only [Node.boot, found]
      refine ⟨me, peers, ?_⟩
      rintro previous ⟨⟩
      exact ⟨rfl, fresh⟩

/-- An operation that concerns peers only keeps the tables in step. -/
theorem InStep.perform (sound : InStep own n) {op : Op}
    (known : ∀ addr, op.Heard n addr → addr ∈ n.peers) (done : n.perform op = .ok n') :
    InStep own n' := by
  by_cases lifecycle : op.Lifecycle
  · obtain ⟨tracks, view⟩ := sound
    cases op with
    | stop =>
        obtain rfl := Except.ok.inj done
        exact ⟨{ tracks with
          requestVotes := tracks.requestVotes, heartbeats := tracks.heartbeats }, view⟩
    | start sm =>
        simp only [Node.perform] at done
        split at done
        · obtain rfl := Except.ok.inj done
          exact ⟨tracks, view⟩
        · obtain ⟨n₁, checked, done⟩ := ok_of_bind_ok done
          obtain ⟨-, rfl⟩ := of_check_ok checked
          obtain rfl := Except.ok.inj done
          dsimp only
          split
          all_goals exact ⟨{ tracks with
            requestVotes := tracks.requestVotes, heartbeats := tracks.heartbeats }, view⟩
    | _ => exact lifecycle.elim
  · have kept := Acts.keep
      (P := fun m => InStep own m ∧ ∀ addr, op.Heard n addr → addr ∈ m.peers)
      (fun _ _ held act => InStep.act held.1 held.2 act) ⟨sound, known⟩
      (perform_acts lifecycle done)
    exact kept.1

/-- Whatever is received concerns a peer, or is not taken into account. -/
def Op.FromPeers (n : Node) : Op → Prop
  | .input (.recv msg now) => ∀ addr, (Op.input (.recv msg now)).Heard n addr → addr ∈ n.peers
  | _ => True

/-- A heartbeat that is due goes to a peer. -/
theorem InStep.known (sound : InStep own n) {op : Op} (armed : n.Armed op)
    (from_ : op.FromPeers n) (addr : Addr) (heard : op.Heard n addr) : addr ∈ n.peers := by
  cases op with
  | input input =>
      cases input with
      | heartbeatTimer dest =>
          obtain rfl : addr = dest := heard
          refine (sound.1.heartbeats addr).mp ?_
          by_contra missing
          have off := n.timerMgr.heartbeats.val_of_not_mem addr missing
          rw [show n.timerMgr.heartbeats.val addr = true from armed] at off
          contradiction
      | recv msg now => exact from_ addr heard
      | _ => exact heard.elim
  | _ => exact heard.elim

end InStep

/-- One step of a node that takes only peers into account and restarts only on
configurations that it has written itself. -/
inductive Node.PeerStep (rc : RaftConfig) (n : Node) : Node → Prop
  | perform (op : Op) (armed : n.Armed op) (from_ : op.FromPeers n) (n' : Node)
      (done : n.perform op = .ok n') : PeerStep rc n n'
  | restart (flags : Flags) (disk : Disk)
      (recorded : ∀ last, disk.log.lastConfig = some last →
        last.me = rc.me ∧ rc.me ∉ last.peers) : PeerStep rc n (Node.boot rc flags disk)

theorem Node.PeerStep.inStep {rc : RaftConfig} (fresh : rc.me ∉ rc.peers) {flags : Flags}
    {sm : Bool} {n : Node}
    (run : Relation.ReflTransGen (Node.PeerStep rc) (Node.boot rc flags (Disk.fresh sm)) n) :
    InStep rc.me n := by
  induction run with
  | refl => exact InStep.boot fresh flags nofun
  | tail _ step sound =>
      cases step with
      | perform op armed from_ n' done => exact sound.perform (sound.known armed from_) done
      | restart flags disk recorded => exact InStep.boot fresh flags recorded

/-- A table whose keys are the peers has as many items as there are peers. -/
theorem keys_length_eq {V : Type} [Inhabited V] {table : Table Addr V} {peers : List Addr}
    (same : ∀ addr, addr ∈ table.keys ↔ addr ∈ peers) :
    table.keys.length = peers.toFinset.card := by
  rw [← List.toFinset_card_of_nodup table.nodup]
  congr 1
  ext addr
  rw [List.mem_toFinset, List.mem_toFinset, same]

/-- A reply that is not taken into account sends nothing. -/
theorem onAppendEntriesReply_site {n m : Node} {msg : AppendEntriesReply} {now : ℤ}
    (stranger : msg.src ∉ n.peers)
    (from_ : (Op.input (.recv (.appendEntriesReply msg) now)).FromPeers n) :
    n.onAppendEntriesReply msg ≠ .error (.sendPreIndex, m) := by
  intro failed
  unfold Node.onAppendEntriesReply at failed
  split at failed
  · contradiction
  rename_i started
  split at failed
  · contradiction
  split at failed
  · contradiction
  rename_i current same
  rcases error_of_bind_error failed with checked | ⟨n₁, checked, rest⟩
  · cases (of_check_error checked).2
  obtain ⟨-, rfl⟩ := of_check_ok checked
  split at rest
  · rcases error_of_bind_error rest with checked | ⟨n₂, -, done⟩
    · cases (of_check_error checked).2
    · contradiction
  · refine stranger (from_ msg.src ⟨rfl, ?_, ?_, ?_⟩)
    · simpa using started
    · omega
    · simpa using same

theorem onInstallSnapshotReply_site {n m : Node} {msg : InstallSnapshotReply} {now : ℤ}
    (stranger : msg.src ∉ n.peers)
    (from_ : (Op.input (.recv (.installSnapshotReply msg) now)).FromPeers n) :
    n.onInstallSnapshotReply msg ≠ .error (.sendPreIndex, m) := by
  intro failed
  unfold Node.onInstallSnapshotReply at failed
  split at failed
  · contradiction
  · rename_i started
    exact stranger (from_ msg.src ⟨rfl, by simpa using started⟩)

/-- In every run in which a node takes only peers into account, five tables have
the peers as their keys, votes and match indices are counted over the members,
and nothing makes a reply of a stranger run into the assert on `pre_index`. -/
theorem managers_track_peers {rc : RaftConfig} (fresh : rc.me ∉ rc.peers) {flags : Flags}
    {sm : Bool} {n : Node}
    (run : Relation.ReflTransGen (Node.PeerStep rc) (Node.boot rc flags (Disk.fresh sm)) n) :
    (∀ addr, addr ∈ n.indexMgr.keys ↔ addr ∈ n.peers) ∧
    (∀ addr, addr ∈ n.voteMgr.keys ↔ addr ∈ n.peers) ∧
    (∀ addr, addr ∈ n.snapshotMgr.keys ↔ addr ∈ n.peers) ∧
    (∀ addr, addr ∈ n.timerMgr.requestVotes.keys ↔ addr ∈ n.peers) ∧
    (∀ addr, addr ∈ n.timerMgr.heartbeats.keys ↔ addr ∈ n.peers) ∧
    n.voteMgr.keys.length + 1 = n.configMgr.current.toVector.toFinset.card ∧
    (∀ own, (n.indexMgr.matches_ own).length = n.configMgr.current.toVector.toFinset.card) ∧
    (∀ addr ∈ n.peers, 0 < n.indexMgr.getNext addr) ∧
    (∀ msg now, msg.src ∉ n.peers →
      (Op.input (.recv (.appendEntriesReply msg) now)).FromPeers n →
      ∀ m, n.perform (.input (.recv (.appendEntriesReply msg) now)) ≠ .error (.sendPreIndex, m)) ∧
    (∀ msg now, msg.src ∉ n.peers →
      (Op.input (.recv (.installSnapshotReply msg) now)).FromPeers n →
      ∀ m, n.perform (.input (.recv (.installSnapshotReply msg) now)) ≠
        .error (.sendPreIndex, m)) := by
  obtain ⟨tracks, view⟩ := Node.PeerStep.inStep fresh run
  have size : n.configMgr.current.toVector.toFinset.card = n.peers.toFinset.card + 1 := by
    rw [RaftConfig.toVector, List.toFinset_cons, Finset.card_insert_of_notMem, Node.peers]
    rw [List.mem_toFinset]
    exact view.fresh_me
  refine ⟨tracks.indices, tracks.votes, tracks.snapshots, tracks.requestVotes, tracks.heartbeats,
    ?_, ?_, tracks.next_pos, ?_, ?_⟩
  · rw [size, keys_length_eq tracks.votes]
  · intro own
    rw [size, ← keys_length_eq tracks.indices, IndexManager.matches_, List.length_cons,
      List.length_map]
  · intro msg now stranger from_ m
    exact onAppendEntriesReply_site stranger from_
  · intro msg now stranger from_ m
    exact onInstallSnapshotReply_site stranger from_

/-- `1` is elected by `2` and has asked `3` to take its first entry. -/
def leading : List Op :=
  [.input .electionTimer,
    .input (.recv (.requestVoteReply ⟨2, 1, 2, true, true, false, true, 2⟩) 0),
    .input (.heartbeatTimer 3)]

/-- The reply of `3` to its first entry. -/
def firstReply (success : Bool) : Op :=
  .input (.recv (.appendEntriesReply ⟨3, 1, 2, success, if success then 1 else 0, 0, 1, 2⟩) 0)

/-- The sender of whatever is received is a peer. -/
def Op.Familiar (n : Node) : Op → Prop
  | .input (.recv msg _) => msg.src ∈ n.peers
  | _ => True

instance (n : Node) (op : Op) : Decidable (op.Familiar n) :=
  match op with
  | .input .electionTimer => inferInstanceAs (Decidable True)
  | .input (.requestVoteTimer _) => inferInstanceAs (Decidable True)
  | .input (.heartbeatTimer _) => inferInstanceAs (Decidable True)
  | .input (.propose _) => inferInstanceAs (Decidable True)
  | .input (.leaderTransfer _) => inferInstanceAs (Decidable True)
  | .input (.setFlags _) => inferInstanceAs (Decidable True)
  | .input (.recv msg _) => inferInstanceAs (Decidable (msg.src ∈ n.peers))
  | .addServer _ => inferInstanceAs (Decidable True)
  | .removeServer _ => inferInstanceAs (Decidable True)
  | .stop => inferInstanceAs (Decidable True)
  | .start _ => inferInstanceAs (Decidable True)

theorem Op.Familiar.fromPeers {n : Node} {op : Op} (familiar : op.Familiar n) :
    op.FromPeers n := by
  cases op with
  | input input =>
      cases input with
      | recv msg now =>
          intro addr heard
          obtain rfl : addr = msg.src := by
            cases msg with
            | requestVote | appendEntries | timeoutNow => exact heard.elim
            | _ => exact heard.1
          exact familiar
      | _ => trivial
  | _ => trivial

/-- `3` is removed while its reply is on the way, and the reply is not delivered. -/
theorem managers_track_peers_removal :
    ∃ n, Relation.ReflTransGen (Node.PeerStep ⟨1, [2, 3]⟩) trio n ∧ n.peers = [2] ∧
      n.voteMgr.keys.length + 1 = n.configMgr.current.toVector.toFinset.card ∧
      3 ∉ n.indexMgr.keys := by
  obtain ⟨n, steps, seen⟩ := Node.operates_of_observed
    (fun n op => n.Armed op ∧ op.Familiar n) trio (leading ++ [.removeServer 3])
    (fun n => n.peers = [2]) (by decide +kernel)
  have run : Relation.ReflTransGen (Node.PeerStep ⟨1, [2, 3]⟩) trio n := by
    refine Relation.ReflTransGen.mono ?_ _ _ steps
    rintro n n' ⟨op, ⟨armed, familiar⟩, done⟩
    exact .perform op armed familiar.fromPeers n' done
  obtain ⟨indices, -, -, -, -, size, -⟩ := managers_track_peers (by decide) run
  have peers : n.peers = [2] := by simpa using seen
  refine ⟨n, run, peers, size, fun key => ?_⟩
  rw [indices, peers] at key
  contradiction

/-- One late reply of a removed server is enough: a success brings it back into
the indices, and a failure runs into the assert on `pre_index`. -/
theorem removed_server_returns :
    (∃ n, Relation.ReflTransGen (Node.Operates Node.Armed) trio n ∧
      3 ∉ n.peers ∧ 3 ∈ n.indexMgr.keys ∧ (n.indexMgr.matches_ 0).length = 3 ∧ n.peers = [2]) ∧
    ∃ n, Relation.ReflTransGen (Node.Operates Node.Armed) trio n ∧ 3 ∉ n.peers ∧
      ∃ m, n.perform (firstReply false) = .error (.sendPreIndex, m) := by
  constructor
  · obtain ⟨n, steps, seen⟩ := Node.operates_of_observed Node.Armed trio
      (leading ++ [.removeServer 3, firstReply true])
      (fun n => n.peers = [2] && n.indexMgr.keys = [2, 3]) (by decide +kernel)
    simp only [Bool.and_eq_true, decide_eq_true_eq] at seen
    obtain ⟨peers, keys⟩ := seen
    refine ⟨n, steps, ?_, ?_, ?_, peers⟩
    · simp [peers]
    · simp [keys]
    · simp [IndexManager.matches_, keys]
  · obtain ⟨n, steps, seen⟩ := Node.operates_of_observed Node.Armed trio
      (leading ++ [.removeServer 3])
      (fun n => n.peers = [2] && (match n.perform (firstReply false) with
        | .error (site, _) => site = .sendPreIndex
        | .ok _ => false)) (by decide +kernel)
    simp only [Bool.and_eq_true, decide_eq_true_eq] at seen
    obtain ⟨peers, failed⟩ := seen
    refine ⟨n, steps, by simp [peers], ?_⟩
    split at failed
    · rename_i site m outcome
      rw [decide_eq_true_eq] at failed
      exact ⟨m, failed ▸ outcome⟩
    · contradiction

end Vraft
