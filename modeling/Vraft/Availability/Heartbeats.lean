import Vraft.Availability.Group

/-!
# Heartbeats and their answers

The handlers of log replication, followed forward.  No assert in them can fail in a
cluster, so a leader's heartbeat is sent, accepted or rejected, and answered.
-/

namespace Vraft

/-- What a leader sends to a peer next. -/
structure AppendEntries.Of (n : Node) (peer : Addr) (msg : AppendEntries) : Prop where
  src : msg.src = n.me
  dest : msg.dest = peer
  term : msg.term = n.solid.term
  preLogIndex : msg.preLogIndex + 1 = n.indexMgr.getNext peer
  commitIndex : msg.commitIndex = min n.commit (msg.preLogIndex + msg.entries.length)
  entries : n.indexMgr.getNext peer ≤ n.lastIndex → msg.entries.length = 1
  done : n.lastIndex < n.indexMgr.getNext peer → msg.entries = []

section Send

variable {m : Membership} {meets : m.Intersecting} {o : Origin m meets} {a : Ghost} {n : Node}

/-- Looking up a key that exists changes nothing. -/
theorem touch_of_mem {table : IndexManager} {addr : Addr} (mem : addr ∈ table.keys) :
    table.touch addr = table := by
  cases table with
  | mk keys val nodup missing =>
      simp only [Table.touch, Table.set, if_pos mem, Function.update_eq_self]

theorem At.touch_eq (at_ : At o a n) {dest : Addr} (peer : dest ∈ m.peersOf o.p) :
    n.indexMgr.touch dest = n.indexMgr := by
  have keys : n.indexMgr.keys = m.peersOf o.p := at_.live.indicesOf
  exact touch_of_mem (keys ▸ peer)

/-- The entry a leader sends is the next one, if there is one. -/
theorem At.entriesAt_length (at_ : At o a n) {next : ℕ} (positive : 0 < next)
    {entries : List LogEntry} (found : n.entriesAt next = .ok entries) :
    (next ≤ n.lastIndex → entries.length = 1) ∧ (n.lastIndex < next → entries = []) := by
  have base : n.log.base = 0 := at_.live.base
  have valid := Log.indexValid_of_base_zero base next
  have entries_eq : n.log.entries = a.log o.p := at_.live.entries
  rw [at_.lastIndex_eq, ← entries_eq]
  unfold Node.entriesAt at found
  split at found
  · rename_i inside
    have bound := (valid.mp inside).2
    split at found
    · obtain rfl := Except.ok.inj found
      exact ⟨fun _ => rfl, fun outside => by omega⟩
    · contradiction
  · rename_i outside
    obtain rfl := Except.ok.inj found
    refine ⟨fun inside => absurd (valid.mpr ⟨positive, inside⟩) outside, fun _ => rfl⟩

/-- A leader sends to any of its peers, and nothing else changes. -/
theorem At.sendAppendEntries_eq (at_ : At o a n) (leader : n.state = .leader) {dest : Addr}
    (peer : dest ∈ m.peersOf o.p) :
    ∃ msg, n.sendAppendEntries dest = .ok (n.send (.appendEntries msg)) ∧
      AppendEntries.Of n dest msg := by
  have positive : 1 ≤ n.indexMgr.getNext dest := at_.live.next_pos leader dest peer
  have next_le : n.indexMgr.getNext dest ≤ (a.log o.p).length + 1 :=
    at_.live.next_le leader dest peer
  have pre_eq : Node.preIndexOf (n.indexMgr.getNext dest) = n.indexMgr.getNext dest - 1 := by
    rw [Node.preIndexOf, if_neg (by omega)]
  have first_le := Log.first_le_one (l := n.log) at_.live.base
  obtain ⟨entries, entries_eq, -, -⟩ := at_.entriesAt_eq positive
  obtain ⟨one, none_⟩ := at_.entriesAt_length positive entries_eq
  rw [Node.sendAppendEntries]
  set n₁ : Node := { n with indexMgr := n.indexMgr.touch dest } with n₁_eq
  have same : n₁ = n := by rw [n₁_eq, at_.touch_eq peer]
  rw [same, pre_eq, Node.check_of (by rw [at_.lastIndex_eq]; omega), ok_bind, if_neg (by omega),
    at_.preTermOf_eq (by omega), ok_bind]
  dsimp only
  rw [entries_eq, ok_bind]
  refine ⟨_, rfl, rfl, rfl, rfl, ?_, rfl, one, none_⟩
  show n.indexMgr.getNext dest - 1 + 1 = _
  omega

end Send

section Heartbeats

variable {m : Membership} {group : Finset Addr} {now : ℤ} {s : Cluster} {p q : Addr}

/-- A leader's heartbeat is a step of its group. -/
theorem beat (maj : Majority m group now) (reachable : s.Reachable m Cluster.Whole)
    (memP : p ∈ group) (memQ : q ∈ group) (ne : q ≠ p) (leader : (s.node p).state = .leader) :
    ∃ s' msg, Cluster.Among m group now s s' ∧ s'.node = s.node ∧
      AppendEntries.Of (s.node p) q msg ∧ s'.InFlight m (.appendEntries msg) := by
  obtain ⟨a, sim⟩ := Sim.of_reachable (Or.inl maj.odd) reachable
  have run := running_of_reachable maj.odd reachable (maj.mem memP)
  have peer := maj.peer memQ ne
  obtain ⟨msg, sent, of⟩ := (sim.start (maj.mem memP)).sendAppendEntries_eq leader peer
  have done : (s.node p).handle (.heartbeatTimer q) = .ok ((s.node p).send (.appendEntries msg)) := by
    show (s.node p).heartBeat q = _
    rw [Node.heartBeat, Node.check_of leader, ok_bind]
    exact sent
  have armed : (s.node p).timerMgr.heartbeats.val q = true := run.ticking.beats leader q peer
  refine ⟨_, msg, .handle p memP (.heartbeatTimer q) trivial armed ⟨maj.mem memQ, ne⟩ _ done, ?_,
    of, Cluster.inFlight_update (maj.mem memP)
      (List.mem_append_right _ (List.mem_singleton_self _))⟩
  funext r
  by_cases same : r = p
  · rw [same, Cluster.update_node_self]
    show { s.node p with effects := [] } = _
    rw [← run.idle]
  · exact Cluster.update_node_of_ne _ _ same

/-- A leader of a past term finds out from any member that knows of a later one: the member
only tells it of that term, and the leader steps down. -/
theorem retire (maj : Majority m group now) (reachable : s.Reachable m Cluster.Whole)
    (memP : p ∈ group) (memQ : q ∈ group) (leader : (s.node p).state = .leader)
    (later : (s.node p).solid.term < (s.node q).solid.term) :
    ∃ s', Cluster.AmongRun m group now s s' ∧ (∀ r, r ≠ p → s'.node r = s.node r) ∧
      (s.node p).Stepped (s.node q).solid.term (s'.node p) := by
  have ne : q ≠ p := by
    rintro rfl
    exact lt_irrefl _ later
  have runP := running_of_reachable maj.odd reachable (maj.mem memP)
  have runQ := running_of_reachable maj.odd reachable (maj.mem memQ)
  obtain ⟨s₁, msg, first, nodes, of, sent⟩ := beat maj reachable memP memQ ne leader
  set reply := Node.appendReply msg (s.node q).solid.term false (s.node q).lastIndex with reply_eq
  have answered : (s₁.node q).handle (.recv (.appendEntries msg) now) =
      .ok ((s.node q).send (.appendEntriesReply reply)) := by
    rw [nodes]
    show (s.node q).onAppendEntries msg now = _
    unfold Node.onAppendEntries
    rw [runQ.started]
    simp only [Bool.not_true, Bool.false_eq_true, if_false]
    rw [if_pos (by rw [of.term]; exact later)]
  have src : msg.src = p := by rw [of.src, runP.me]
  have second : Cluster.Among m group now s₁ (s₁.update q
      ((s.node q).send (.appendEntriesReply reply))
      ((s.node q).send (.appendEntriesReply reply)).effects) := by
    refine .handle q memQ (.recv (.appendEntries msg) now) ⟨?_, rfl⟩ trivial ⟨sent, of.dest⟩ _ answered
    show msg.src ∈ group
    rw [src]
    exact memP
  set s₂ := s₁.update q ((s.node q).send (.appendEntriesReply reply))
    ((s.node q).send (.appendEntriesReply reply)).effects with s₂_eq
  have nodes₂ : s₂.node = s.node := by
    funext r
    by_cases same : r = q
    · rw [same, Cluster.update_node_self]
      show { s.node q with effects := [] } = _
      rw [← runQ.idle]
    · rw [Cluster.update_node_of_ne _ _ same, nodes]
  have replied : s₂.InFlight m (.appendEntriesReply reply) :=
    Cluster.inFlight_update (maj.mem memQ) (List.mem_append_right _ (List.mem_singleton_self _))
  obtain ⟨n, down, stepped⟩ := stepDown_eq (n := s.node p) later.le
  have heard : (s₂.node p).handle (.recv (.appendEntriesReply reply) now) = .ok n := by
    rw [nodes₂]
    show (s.node p).onAppendEntriesReply reply = _
    have same : reply.reqTerm = (s.node p).solid.term := of.term
    have term : reply.term = (s.node q).solid.term := rfl
    unfold Node.onAppendEntriesReply
    rw [runP.started]
    simp only [Bool.not_true, Bool.false_eq_true, if_false]
    rw [term, if_neg later.not_gt, if_neg (not_not.mpr same), Node.check_of leader, ok_bind,
      if_pos later]
    exact down
  refine ⟨s₂.update p n n.effects, .tail (.tail (.single first) second) ?_, ?_, ?_⟩
  · refine .handle p memP (.recv (.appendEntriesReply reply) now) ⟨?_, rfl⟩ trivial ⟨replied, src⟩ n
      heard
    show msg.dest ∈ group
    rw [of.dest]
    exact memQ
  · intro r neP
    rw [Cluster.update_node_of_ne _ _ neP, nodes₂]
  · rw [Cluster.update_node_self]
    exact ⟨stepped.kept.idle, stepped.term, stepped.state, stepped.vote, stepped.heartbeat⟩

end Heartbeats

end Vraft
