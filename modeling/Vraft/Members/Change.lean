import Vraft.Members.Record

/-!
# Changes that go through

`DoConfigChange` accepts a configuration that has strictly more members than the
current one, or strictly fewer unless the node stands by.  Its only other assert
is that no timer exists yet for a peer that is added, which holds as long as
timers exist for current members only.
-/

namespace Vraft

namespace RaftConfig

variable {a b c : RaftConfig}

/-- Both have the same members, in whatever order and from whosever view. -/
def SameMembers (a b : RaftConfig) : Prop :=
  ∀ addr, addr ∈ a.toVector ↔ addr ∈ b.toVector

/-- `b` has all members of `a`, and more. -/
def Within (a b : RaftConfig) : Prop :=
  a.toVector ⊆ b.toVector ∧ ¬b.toVector ⊆ a.toVector

/-- The peers are the other members. -/
theorem mem_peers_iff (fresh : a.me ∉ a.peers) {addr : Addr} :
    addr ∈ a.peers ↔ addr ∈ a.toVector ∧ addr ≠ a.me := by
  rw [toVector, List.mem_cons]
  constructor
  · intro mem
    refine ⟨.inr mem, ?_⟩
    rintro rfl
    exact fresh mem
  · rintro ⟨same | mem, ne⟩
    · exact absurd same ne
    · exact mem

instance (a b : RaftConfig) : Decidable (a.SameMembers b) :=
  decidable_of_iff (a.toVector ⊆ b.toVector ∧ b.toVector ⊆ a.toVector)
    ⟨fun both _ => ⟨fun mem => both.1 mem, fun mem => both.2 mem⟩,
      fun same => ⟨fun addr => (same addr).mp, fun addr => (same addr).mpr⟩⟩

theorem SameMembers.refl (a : RaftConfig) : a.SameMembers a :=
  fun _ => Iff.rfl

theorem SameMembers.symm (same : a.SameMembers b) : b.SameMembers a :=
  fun addr => (same addr).symm

theorem SameMembers.trans (first : a.SameMembers b) (second : b.SameMembers c) :
    a.SameMembers c :=
  fun addr => (first addr).trans (second addr)

theorem Within.congr {a' b' : RaftConfig} (within : a.Within b) (left : a'.SameMembers a)
    (right : b'.SameMembers b) : a'.Within b' := by
  obtain ⟨sub, more⟩ := within
  constructor
  · exact fun addr mem => (right addr).mpr (sub ((left addr).mp mem))
  · exact fun back => more fun addr mem => (left addr).mp (back ((right addr).mpr mem))

end RaftConfig

open RaftConfig

section Change

variable {n n' : Node} {rc : RaftConfig}

/-- There is a timer of some kind for the peer. -/
def Node.Timed (n : Node) (addr : Addr) : Prop :=
  addr ∈ n.timerMgr.requestVotes.keys ∨ addr ∈ n.timerMgr.heartbeats.keys

theorem timed_withPeer {addr other : Addr} :
    (n.withPeer addr).Timed other ↔ other = addr ∨ n.Timed other := by
  have request : other ∈ (n.withPeer addr).timerMgr.requestVotes.keys ↔
      other = addr ∨ other ∈ n.timerMgr.requestVotes.keys := Table.mem_set_keys _ _
  have beat : other ∈ (n.withPeer addr).timerMgr.heartbeats.keys ↔
      other = addr ∨ other ∈ n.timerMgr.heartbeats.keys := Table.mem_set_keys _ _
  rw [Node.Timed, request, beat, Node.Timed]
  tauto

theorem timed_deletePeer {addr other : Addr} :
    (n.deletePeer addr).Timed other ↔ other ≠ addr ∧ n.Timed other := by
  have request : other ∈ (n.deletePeer addr).timerMgr.requestVotes.keys ↔
      other ≠ addr ∧ other ∈ n.timerMgr.requestVotes.keys := Table.mem_erase_keys _
  have beat : other ∈ (n.deletePeer addr).timerMgr.heartbeats.keys ↔
      other ≠ addr ∧ other ∈ n.timerMgr.heartbeats.keys := Table.mem_erase_keys _
  rw [Node.Timed, request, beat, Node.Timed]
  tauto

/-- Peers without timers can be added. -/
theorem addPeers_ok {addrs : List Addr} (nodup : addrs.Nodup) (new : ∀ addr ∈ addrs, ¬n.Timed addr) :
    ∃ result, n.addPeers rc addrs = .ok result := by
  induction addrs generalizing n rc with
  | nil => exact ⟨_, rfl⟩
  | cons addr rest ih =>
      obtain ⟨other, nodup⟩ := List.nodup_cons.mp nodup
      have untimed := new addr List.mem_cons_self
      have added : n.addPeer addr = .ok (n.withPeer addr) :=
        addPeer_ok_iff.mpr ⟨fun mem => untimed (.inl mem), fun mem => untimed (.inr mem), rfl⟩
      rw [Node.addPeers, added, ok_bind]
      apply ih nodup
      intro later mem timed
      rcases timed_withPeer.mp timed with rfl | timed
      · exact other mem
      · exact new later (List.mem_cons_of_mem _ mem) timed

theorem timed_addPeers {addrs : List Addr} {result : Node × RaftConfig}
    (done : n.addPeers rc addrs = .ok result) {addr : Addr} (timed : result.1.Timed addr) :
    addr ∈ addrs ∨ n.Timed addr := by
  induction addrs generalizing n rc with
  | nil =>
      obtain rfl := Except.ok.inj done
      exact .inr timed
  | cons other rest ih =>
      obtain ⟨n₁, added, done⟩ := ok_of_bind_ok done
      obtain ⟨-, -, rfl⟩ := addPeer_ok_iff.mp added
      rcases ih done with mem | old
      · exact .inl (List.mem_cons_of_mem _ mem)
      · rcases timed_withPeer.mp old with rfl | old
        · exact .inl List.mem_cons_self
        · exact .inr old

theorem timed_deletePeers {addrs : List Addr} {addr : Addr}
    (timed : (n.deletePeers rc addrs).1.Timed addr) : addr ∉ addrs ∧ n.Timed addr := by
  induction addrs generalizing n rc with
  | nil => exact ⟨List.not_mem_nil, timed⟩
  | cons other rest ih =>
      obtain ⟨missing, old⟩ := ih timed
      obtain ⟨ne, old⟩ := timed_deletePeer.mp old
      refine ⟨fun mem => ?_, old⟩
      rcases List.mem_cons.mp mem with same | mem
      · exact ne same
      · exact missing mem

/-- Timers exist for members only. -/
def Node.TimesMembers (n : Node) (rc : RaftConfig) : Prop :=
  ∀ addr, n.Timed addr → addr ∈ rc.toVector

/-- A change leaves timers for members of the new configuration only. -/
theorem doConfigChange_timesMembers (times : n.TimesMembers n.configMgr.current)
    {result : Node × RaftConfig} (done : n.doConfigChange rc = .ok result) :
    result.1.TimesMembers rc := by
  intro addr timed
  rcases doConfigChange_cases done with ⟨inside, -, added⟩ | ⟨-, -, -, rfl⟩
  · rw [iamIn_iff] at inside
    rcases timed_addPeers added timed with new | old
    · exact (mem_missingFrom.mp new).1
    · exact inside (times addr old)
  · obtain ⟨kept, old⟩ := timed_deletePeers timed
    by_contra dropped
    exact kept (mem_missingFrom.mpr ⟨times addr old, dropped⟩)

/-- A configuration with more members is accepted, and one with fewer members
unless the node stands by. -/
theorem doConfigChange_ok (times : n.TimesMembers n.configMgr.current) (nodup : rc.toVector.Nodup)
    (moves : n.configMgr.current.Within rc ∨ n.standby = false ∧ rc.Within n.configMgr.current) :
    ∃ result, n.doConfigChange rc = .ok result := by
  rcases moves with ⟨sub, more⟩ | ⟨active, sub, more⟩
  · rw [← iamIn_iff] at sub more
    rw [doConfigChange_of_lt sub (by simpa using more)]
    refine addPeers_ok (nodup.filter _) fun addr mem timed => ?_
    exact (mem_missingFrom.mp mem).2 (times addr timed)
  · rw [← iamIn_iff] at sub more
    rw [doConfigChange_of_gt active (by simpa using more) sub]
    exact ⟨_, rfl⟩

/-- The new configuration has the members asked for, and the node itself. -/
theorem doConfigChange_members {result : Node × RaftConfig}
    (done : n.doConfigChange rc = .ok result) :
    result.2.me = n.me ∧ ∀ addr, addr ∈ result.2.toVector ↔ addr = n.me ∨ addr ∈ rc.toVector := by
  rcases doConfigChange_cases done with ⟨inside, -, added⟩ | ⟨-, -, around, rfl⟩
  · rw [iamIn_iff] at inside
    rw [addPeers_config added]
    refine ⟨rfl, fun addr => ?_⟩
    show addr ∈ n.configMgr.current.toVector ++ _ ↔ _
    rw [List.mem_append, mem_missingFrom]
    constructor
    · rintro (old | ⟨new, -⟩)
      · exact .inr (inside old)
      · exact .inr new
    · rintro (rfl | new)
      · exact .inl List.mem_cons_self
      · by_cases old : addr ∈ n.configMgr.current.toVector
        · exact .inl old
        · exact .inr ⟨new, old⟩
  · rw [iamIn_iff] at around
    rw [deletePeers_config]
    refine ⟨rfl, fun addr => ?_⟩
    rw [toVector, List.mem_cons, List.mem_filter, decide_eq_true_eq, mem_missingFrom]
    constructor
    · rintro (self | ⟨old, kept⟩)
      · exact .inl self
      · right
        by_contra dropped
        exact kept ⟨List.mem_cons_of_mem _ old, dropped⟩
    · rintro (self | kept)
      · exact .inl self
      · rcases List.mem_cons.mp (around kept) with self | old
        · exact .inl self
        · exact .inr ⟨old, fun dropped => dropped.2 kept⟩

/-- A change keeps the list of members free of duplicates. -/
theorem doConfigChange_nodup (old : n.configMgr.current.toVector.Nodup)
    (nodup : rc.toVector.Nodup) {result : Node × RaftConfig}
    (done : n.doConfigChange rc = .ok result) : result.2.toVector.Nodup := by
  rcases doConfigChange_cases done with ⟨-, -, added⟩ | ⟨-, -, -, rfl⟩
  · rw [addPeers_config added]
    show (n.configMgr.current.toVector ++ _).Nodup
    refine old.append (nodup.filter _) fun addr mem missing => ?_
    exact (mem_missingFrom.mp missing).2 mem
  · rw [deletePeers_config]
    exact old.sublist (List.Sublist.cons_cons _ List.filter_sublist)

end Change

end Vraft
