import Vraft.Lib.Failing
import Vraft.Raft.Server

/-!
# Changes of configuration

What `DoConfigChange` can do to a node.  It compares the members of the current
configuration with those of the new one: if the new one has more, the missing
peers are added, and if it has fewer, they are deleted; anything else fails an
assert.
-/

namespace Vraft

variable {n : Node} {rc : RaftConfig}

theorem of_check_error {site : AssertSite} {c : Prop} [Decidable c] {failure : AssertSite × Node}
    (failed : n.check site c = .error failure) : ¬c ∧ failure = (site, n) := by
  unfold Node.check at failed
  split at failed
  · contradiction
  · rename_i fails
    exact ⟨fails, (Except.error.inj failed).symm⟩

theorem of_check_ok {site : AssertSite} {c : Prop} [Decidable c] {n' : Node}
    (done : n.check site c = .ok n') : c ∧ n' = n := by
  unfold Node.check at done
  split at done
  · rename_i holds
    exact ⟨holds, (Except.ok.inj done).symm⟩
  · contradiction

/-! ## Members -/

namespace RaftConfig

variable {c1 c2 : RaftConfig}

theorem iamIn_iff : c1.iamIn c2 = true ↔ c1.toVector ⊆ c2.toVector := by
  simp [iamIn, List.subset_def]

theorem mem_missingFrom {addr : Addr} :
    addr ∈ c1.missingFrom c2 ↔ addr ∈ c2.toVector ∧ addr ∉ c1.toVector := by
  simp [missingFrom]

theorem configCompare_of_lt (inside : c1.iamIn c2 = true) (around : c2.iamIn c1 = false) :
    configCompare c1 c2 = (-1, c1.missingFrom c2) := by
  have ne : c1 ≠ c2 := by
    rintro rfl
    simp [inside] at around
  simp [configCompare, ne, inside]

theorem configCompare_of_gt (inside : c1.iamIn c2 = false) (around : c2.iamIn c1 = true) :
    configCompare c1 c2 = (1, c2.missingFrom c1) := by
  have ne : c1 ≠ c2 := by
    rintro rfl
    simp [inside] at around
  simp [configCompare, ne, inside, around]

end RaftConfig

open RaftConfig

/-! ## What a change does -/

/-- A change that ends has added the missing peers or deleted the surplus ones. -/
theorem doConfigChange_cases {result : Node × RaftConfig}
    (done : n.doConfigChange rc = .ok result) :
    (n.configMgr.current.iamIn rc = true ∧ rc.iamIn n.configMgr.current = false ∧
      n.addPeers n.configMgr.current (n.configMgr.current.missingFrom rc) = .ok result) ∨
    (n.standby = false ∧ n.configMgr.current.iamIn rc = false ∧
      rc.iamIn n.configMgr.current = true ∧
      n.deletePeers n.configMgr.current (rc.missingFrom n.configMgr.current) = result) := by
  unfold Node.doConfigChange at done
  dsimp only at done
  split at done
  · rename_i active
    obtain ⟨n₁, checked, done⟩ := ok_of_bind_ok done
    obtain ⟨direction, rfl⟩ := of_check_ok checked
    split at done
    · rename_i grows
      simp only [Bool.and_eq_true, Bool.not_eq_true'] at grows
      obtain ⟨n₂, checked, done⟩ := ok_of_bind_ok done
      obtain ⟨-, rfl⟩ := of_check_ok checked
      rw [configCompare_of_lt grows.1 grows.2] at done
      exact .inl ⟨grows.1, grows.2, done⟩
    · rename_i grows
      obtain ⟨around, inside⟩ : rc.iamIn n₁.configMgr.current = true ∧
          n₁.configMgr.current.iamIn rc = false := by
        simpa [grows] using direction
      obtain ⟨n₂, checked, done⟩ := ok_of_bind_ok done
      obtain ⟨-, rfl⟩ := of_check_ok checked
      rw [configCompare_of_gt inside around] at done
      exact .inr ⟨by simpa using active, inside, around, Except.ok.inj done⟩
  · obtain ⟨n₁, checked, done⟩ := ok_of_bind_ok done
    obtain ⟨direction, rfl⟩ := of_check_ok checked
    simp only [Bool.and_eq_true, Bool.not_eq_true'] at direction
    obtain ⟨n₂, checked, done⟩ := ok_of_bind_ok done
    obtain ⟨-, rfl⟩ := of_check_ok checked
    rw [configCompare_of_lt direction.1 direction.2] at done
    exact .inl ⟨direction.1, direction.2, done⟩

/-- A change to more members comes down to adding peers. -/
theorem doConfigChange_of_lt (inside : n.configMgr.current.iamIn rc = true)
    (around : rc.iamIn n.configMgr.current = false) :
    n.doConfigChange rc =
      n.addPeers n.configMgr.current (n.configMgr.current.missingFrom rc) := by
  unfold Node.doConfigChange
  simp only [inside, around, configCompare_of_lt inside around, Node.check]
  cases n.standby <;> rfl

/-- A change to fewer members comes down to deleting peers, unless the node
stands by. -/
theorem doConfigChange_of_gt (active : n.standby = false)
    (inside : n.configMgr.current.iamIn rc = false)
    (around : rc.iamIn n.configMgr.current = true) :
    n.doConfigChange rc =
      .ok (n.deletePeers n.configMgr.current (rc.missingFrom n.configMgr.current)) := by
  unfold Node.doConfigChange
  simp only [active, inside, around, configCompare_of_gt inside around, Node.check]
  rfl

/-- The node once it tracks a new peer. -/
def Node.withPeer (n : Node) (addr : Addr) : Node :=
  { n with
    indexMgr := n.indexMgr.set addr
      { next := if n.state = .leader then n.lastIndex + 1 else 1, match_ := 0 }
    voteMgr := n.voteMgr.set addr {}
    snapshotMgr := n.snapshotMgr.set addr {}
    timerMgr := { n.timerMgr with
      requestVotes := n.timerMgr.requestVotes.set addr false
      heartbeats := n.timerMgr.heartbeats.set addr (n.state = .leader) } }

theorem addPeer_ok_iff {addr : Addr} {n' : Node} :
    n.addPeer addr = .ok n' ↔
      addr ∉ n.timerMgr.requestVotes.keys ∧ addr ∉ n.timerMgr.heartbeats.keys ∧
        n' = n.withPeer addr := by
  by_cases request : addr ∈ n.timerMgr.requestVotes.keys
  · simp [Node.addPeer, Node.check, request, bind, Except.bind]
  · by_cases beat : addr ∈ n.timerMgr.heartbeats.keys
    · simp [Node.addPeer, Node.check, request, beat, bind, Except.bind]
    · by_cases leads : n.state = .leader
      · simp [Node.addPeer, Node.check, request, beat, leads, bind, Except.bind, Node.withPeer,
          eq_comm]
      · simp [Node.addPeer, Node.check, request, beat, leads, bind, Except.bind, Node.withPeer,
          eq_comm]

theorem addPeers_config {addrs : List Addr} {result : Node × RaftConfig}
    (done : n.addPeers rc addrs = .ok result) :
    result.2 = { rc with peers := rc.peers ++ addrs } := by
  induction addrs generalizing n rc with
  | nil =>
      obtain rfl := Except.ok.inj done
      simp
  | cons addr rest ih =>
      obtain ⟨n₁, -, done⟩ := ok_of_bind_ok done
      rw [ih done, List.append_assoc, List.singleton_append]

theorem deletePeers_config {addrs : List Addr} :
    (n.deletePeers rc addrs).2 = { rc with peers := rc.peers.filter fun peer => peer ∉ addrs } := by
  induction addrs generalizing n rc with
  | nil => simp [Node.deletePeers]
  | cons addr rest ih =>
      rw [Node.deletePeers, ih, List.filter_filter]
      congr 2
      funext peer
      simp [Bool.and_comm]

/-- Seen by the node itself, the new configuration has the members asked for. -/
theorem doConfigChange_config (fresh : n.me ∉ n.peers) {result : Node × RaftConfig}
    (done : n.doConfigChange rc = .ok result) :
    result.2.me = n.me ∧
      ∀ addr, addr ∈ result.2.peers ↔ addr ∈ rc.toVector ∧ addr ≠ n.me := by
  rcases doConfigChange_cases done with ⟨inside, -, added⟩ | ⟨-, -, around, rfl⟩
  · rw [iamIn_iff] at inside
    rw [addPeers_config added]
    refine ⟨rfl, fun addr => ?_⟩
    rw [List.mem_append, mem_missingFrom]
    constructor
    · rintro (old | ⟨new, missing⟩)
      · refine ⟨inside (List.mem_cons_of_mem _ old), ?_⟩
        rintro rfl
        exact fresh old
      · refine ⟨new, ?_⟩
        rintro rfl
        exact missing List.mem_cons_self
    · rintro ⟨new, other⟩
      by_cases old : addr ∈ n.configMgr.current.toVector
      · rcases List.mem_cons.mp old with self | old
        · exact absurd self other
        · exact .inl old
      · exact .inr ⟨new, old⟩
  · rw [iamIn_iff] at around
    rw [deletePeers_config]
    refine ⟨rfl, fun addr => ?_⟩
    rw [List.mem_filter, decide_eq_true_eq, mem_missingFrom]
    constructor
    · rintro ⟨old, kept⟩
      refine ⟨?_, ?_⟩
      · by_contra dropped
        exact kept ⟨List.mem_cons_of_mem _ old, dropped⟩
      · rintro rfl
        exact fresh old
    · rintro ⟨kept, other⟩
      refine ⟨?_, fun dropped => dropped.2 kept⟩
      rcases List.mem_cons.mp (around kept) with self | old
      · exact absurd self other
      · exact old

section Induct

variable {P : Node → Prop}
  (add : ∀ n addr n', P n → n.addPeer addr = .ok n' → P n')
  (delete : ∀ n addr, P n → P (n.deletePeer addr))

include add in
theorem addPeers_induct {addrs : List Addr} {result : Node × RaftConfig}
    (holds : P n) (done : n.addPeers rc addrs = .ok result) : P result.1 := by
  induction addrs generalizing n rc with
  | nil =>
      obtain rfl := Except.ok.inj done
      exact holds
  | cons addr rest ih =>
      rw [Node.addPeers] at done
      obtain ⟨n₁, added, done⟩ := ok_of_bind_ok done
      exact ih (add n addr n₁ holds added) done

include delete in
theorem deletePeers_induct {addrs : List Addr} (holds : P n) :
    P (n.deletePeers rc addrs).1 := by
  induction addrs generalizing n rc with
  | nil => exact holds
  | cons addr rest ih => exact ih (delete n addr holds)

include add delete in
/-- What adding and deleting one peer keeps, a change of configuration keeps. -/
theorem doConfigChange_induct {result : Node × RaftConfig} (holds : P n)
    (done : n.doConfigChange rc = .ok result) : P result.1 := by
  rcases doConfigChange_cases done with ⟨-, -, added⟩ | ⟨-, -, -, rfl⟩
  · exact addPeers_induct add holds added
  · exact deletePeers_induct delete holds

end Induct

/-- Only the managers differ. -/
def Resized (n n' : Node) : Prop :=
  n' = { n with
    indexMgr := n'.indexMgr
    voteMgr := n'.voteMgr
    snapshotMgr := n'.snapshotMgr
    timerMgr := n'.timerMgr }

theorem doConfigChange_resized {result : Node × RaftConfig}
    (done : n.doConfigChange rc = .ok result) : Resized n result.1 := by
  have start : Resized n n := rfl
  refine doConfigChange_induct ?_ ?_ start done
  · rintro n₁ addr n₂ (resized : n₁ = _) added
    obtain ⟨-, -, rfl⟩ := addPeer_ok_iff.mp added
    rw [Resized, resized]
    rfl
  · rintro n₁ addr (resized : n₁ = _)
    rw [Resized, resized]
    rfl

/-! ## Log writes -/

/-- An append that ends has written the entry, after the change of configuration
that it stands for. -/
theorem appendOne_cases {entry : AppendEntry} {n' : Node} (done : n.appendOne entry = .ok n') :
    (entry.type ≠ .config ∧
      n' = { n with effects := n.effects ++ [.appendLog entry], log := n.log.appendOne entry }) ∨
    ∃ rc n₁ config, entry.type = .config ∧ fromString entry.value = some rc ∧
      (n.emit (.appendLog entry)).doConfigChange rc = .ok (n₁, config) ∧
      n' = { n₁ with
        configMgr := n.configMgr.setCurrent config
        changingIndex := n.log.append
        log := n.log.appendOne entry } := by
  obtain ⟨n₁, written, done⟩ := ok_of_bind_ok done
  obtain rfl := Except.ok.inj done
  unfold Node.configWritten at written
  split at written
  · rename_i config
    right
    split at written
    · rename_i rc decoded
      obtain ⟨⟨n₂, config'⟩, changed, written⟩ := ok_of_bind_ok written
      have resized : n₂ = _ := doConfigChange_resized changed
      obtain rfl := Except.ok.inj written
      refine ⟨rc, n₂, config', config, decoded, changed, ?_⟩
      rw [resized]
      rfl
    · contradiction
  · rename_i plain
    obtain rfl := Except.ok.inj written
    exact .inl ⟨plain, rfl⟩

theorem configRollback_cases {index : ℕ} {n' : Node} (done : n.configRollback index = .ok n') :
    ∃ previous n₁ config, n.configMgr.previous = some previous ∧
      n.doConfigChange previous = .ok (n₁, config) ∧
      n' = { n₁ with
        configMgr := ⟨previous, none⟩
        changingIndex := if n.changingIndex = index then 0 else n.changingIndex } := by
  unfold Node.configRollback at done
  split at done
  · contradiction
  · rename_i previous found
    obtain ⟨⟨n₁, config⟩, changed, done⟩ := ok_of_bind_ok done
    have resized : n₁ = _ := doConfigChange_resized changed
    obtain rfl := Except.ok.inj done
    refine ⟨previous, n₁, config, found, changed, ?_⟩
    rw [resized]
    dsimp only
    split <;> rfl

/-- There is nothing to go back to after a rollback, so a truncation that ends
has dropped one configuration at most. -/
theorem configRollbacks_cases {indices : List ℕ} {n' : Node}
    (done : n.configRollbacks indices = .ok n') :
    (indices = [] ∧ n' = n) ∨ ∃ index, indices = [index] ∧ n.configRollback index = .ok n' := by
  match indices with
  | [] => exact .inl ⟨rfl, (Except.ok.inj done).symm⟩
  | [index] =>
      obtain ⟨n₁, rolled, done⟩ := ok_of_bind_ok done
      obtain rfl := Except.ok.inj done
      exact .inr ⟨index, rfl, rolled⟩
  | index :: second :: rest =>
      obtain ⟨n₁, rolled, done⟩ := ok_of_bind_ok done
      obtain ⟨n₂, again, done⟩ := ok_of_bind_ok done
      obtain ⟨_, _, _, -, -, rfl⟩ := configRollback_cases rolled
      obtain ⟨_, _, _, gone, -, -⟩ := configRollback_cases again
      contradiction

/-- A truncation that ends has dropped the entries, after it has gone back by
one configuration at most. -/
theorem deleteFrom_cases {from_ : ℕ} {n' : Node} (done : n.deleteFrom from_ = .ok n') :
    (n.log.NothingFrom from_ ∧ n' = n) ∨
    (¬n.log.NothingFrom from_ ∧ n.log.configsFrom from_ = [] ∧
      n' = { n with
        effects := n.effects ++ [.truncateLog from_], log := n.log.deleteFrom from_ }) ∨
    ∃ index n₁, ¬n.log.NothingFrom from_ ∧ n.log.configsFrom from_ = [index] ∧
      (n.emit (.truncateLog from_)).configRollback index = .ok n₁ ∧
      n' = { n₁ with log := n.log.deleteFrom from_ } := by
  unfold Node.deleteFrom at done
  split at done
  · rename_i nothing
    exact .inl ⟨nothing, (Except.ok.inj done).symm⟩
  · rename_i something
    obtain ⟨n₁, rolled, done⟩ := ok_of_bind_ok done
    rcases configRollbacks_cases rolled with ⟨none_, rfl⟩ | ⟨index, one, rolled⟩
    · obtain rfl := Except.ok.inj done
      exact .inr (.inl ⟨something, none_, rfl⟩)
    · have log_eq : n₁.log = n.log := by
        obtain ⟨_, n₂, _, -, changed, rfl⟩ := configRollback_cases rolled
        have resized : n₂ = _ := doConfigChange_resized changed
        rw [resized]
        rfl
      obtain rfl := Except.ok.inj done
      rw [log_eq]
      exact .inr (.inr ⟨index, n₁, something, one, rolled, rfl⟩)

end Vraft
