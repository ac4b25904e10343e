import Vraft.Members.Following
import Vraft.Members.Guard

/-!
# The identity of a node

A config entry is written from the point of view of the leader that proposes it.
A node that appends it reads it from its own point of view, but one that starts
takes over the newest configuration on record as it stands.  So a restart keeps
the identity of a node exactly if it has written that configuration itself.
-/

namespace Vraft

open RaftConfig

/-- The node sees the newest configuration in its log from its own point of view. -/
structure Owns (first : RaftConfig) (n : Node) : Prop where
  on_record : n.log.Records first
  me : n.me = first.me
  peers : ∀ addr, addr ∈ n.peers ↔ addr ∈ (n.log.newest first).toVector ∧ addr ≠ first.me
  previous : ∀ rc, n.configMgr.previous = some rc → rc.me = first.me ∧ first.me ∉ rc.peers

section Owns

variable {first : RaftConfig} {n n' : Node}

theorem Owns.congr (owns : Owns first n) (log : n'.log = n.log)
    (configMgr : n'.configMgr = n.configMgr) : Owns first n' where
  on_record := log ▸ owns.on_record
  me := (congrArg (fun mgr : ConfigManager => mgr.current.me) configMgr).trans owns.me
  peers := by
    rw [Node.peers, configMgr, log]
    exact owns.peers
  previous := configMgr ▸ owns.previous

theorem Owns.fresh (owns : Owns first n) : n.me ∉ n.peers := by
  rw [owns.me]
  intro mem
  exact ((owns.peers first.me).mp mem).2 rfl

theorem Owns.appendOne (owns : Owns first n) {entry : AppendEntry}
    (done : n.appendOne entry = .ok n') : Owns first n' := by
  rcases appendOne_cases done with ⟨plain, rfl⟩ | ⟨rc, n₁, config, proposes, decoded, changed, rfl⟩
  · refine ⟨owns.on_record.appendOne entry, owns.me, ?_, owns.previous⟩
    have silent : entry.proposal = none := if_neg plain
    show ∀ addr, addr ∈ n.peers ↔ addr ∈ ((n.log.appendOne entry).newest first).toVector ∧ _
    rw [Log.newest_appendOne, silent]
    exact owns.peers
  · obtain ⟨me, peers⟩ := doConfigChange_config (n := n.emit (.appendLog entry)) owns.fresh changed
    have me_eq : (n.emit (.appendLog entry)).me = first.me := owns.me
    have proposal : entry.proposal = some rc := by
      rw [AppendEntry.proposal, if_pos proposes, decoded]
    refine ⟨owns.on_record.appendOne entry, me.trans me_eq, ?_, ?_⟩
    · intro addr
      dsimp only
      rw [Log.newest_appendOne, proposal, ← me_eq]
      exact peers addr
    · rintro previous ⟨⟩
      refine ⟨owns.me, fun mem => ?_⟩
      exact ((owns.peers first.me).mp mem).2 rfl

theorem Owns.appendAll (owns : Owns first n) {entries : List LogEntry}
    (done : n.appendAll entries = .ok n') : Owns first n' := by
  induction entries generalizing n with
  | nil =>
      obtain rfl := Except.ok.inj done
      exact owns
  | cons entry rest ih =>
      obtain ⟨n₁, one, done⟩ := ok_of_bind_ok done
      exact ih (owns.appendOne one) done

/-- A rollback to a configuration of the right members keeps the point of view. -/
theorem Owns.deleteFrom (owns : Owns first n) {from_ : ℕ}
    (previous : n.log.configsFrom from_ ≠ [] → ∃ rc, n.configMgr.previous = some rc ∧
      rc.SameMembers ((n.log.deleteFrom from_).newest first))
    (done : n.deleteFrom from_ = .ok n') : Owns first n' := by
  rcases deleteFrom_cases done with ⟨-, rfl⟩ | ⟨-, none_, rfl⟩ | ⟨index, n₁, -, only, rolled, rfl⟩
  · exact owns
  · refine ⟨owns.on_record.deleteFrom from_, owns.me, ?_, owns.previous⟩
    obtain ⟨dropped, proposals, count⟩ := owns.on_record.proposals_deleteFrom from_
    rw [none_, List.length_nil, List.length_eq_zero_iff] at count
    rw [count, List.append_nil] at proposals
    show ∀ addr, addr ∈ n.peers ↔ addr ∈ ((n.log.deleteFrom from_).newest first).toVector ∧ _
    rw [Log.newest, ← proposals]
    exact owns.peers
  · obtain ⟨rc, found, members⟩ := previous (by simp [only])
    obtain ⟨previous', n₂, config, found', changed, rfl⟩ := configRollback_cases rolled
    obtain rfl : rc = previous' := Option.some.inj (found.symm.trans found')
    obtain ⟨me, other⟩ := owns.previous rc found
    refine ⟨owns.on_record.deleteFrom from_, me, fun addr => ?_, ?_⟩
    · dsimp only
      rw [← members addr, ← me]
      exact mem_peers_iff (me ▸ other)
    · rintro _ ⟨⟩

theorem Owns.act (owns : Owns first n) {heard : Addr → Prop} (act : Act heard False n n') :
    Owns first n' := by
  cases act with
  | aside n' same => exact owns.congr same.log same.configMgr
  | stream dest peer n' done =>
      rw [sendInstallSnapshot_same done]
      exact owns.congr rfl rfl
  | append entry n' done quiet free => exact owns.appendOne done
  | truncate from_ n' done quiet open_ comes => exact comes.elim
  | _ => exact owns.congr rfl rfl

end Owns

/-! ## Along runs -/

/-- At most one change is dropped, and the configuration before it is still at
hand. -/
def AppendEntries.Undoes (msg : AppendEntries) (first : RaftConfig) (n : Node) : Prop :=
  n.Accepts msg → msg.dropped n.log ≠ [] → ∃ rc, n.configMgr.previous = some rc ∧
    rc.SameMembers ((msg.kept n.log).newest first)

/-- A truncation needs no more than the previous configuration. -/
def Op.Undoes (first : RaftConfig) (n : Node) : Op → Prop
  | .input (.recv (.appendEntries msg) _) => msg.Undoes first n
  | _ => True

section Perform

variable {first : RaftConfig} {n n' : Node} {op : Op}

theorem Owns.acceptEntries (owns : Owns first n) {msg : AppendEntries}
    (undoes : msg.dropped n.log ≠ [] → ∃ rc, n.configMgr.previous = some rc ∧
      rc.SameMembers ((msg.kept n.log).newest first)) :
    Meets (n.acceptEntries msg.preLogIndex msg.entries) (Owns first) fun _ => True := by
  rcases Node.acceptEntries_cases (n := n) msg.preLogIndex msg.entries with
    ⟨site, -, failed⟩ | ⟨-, ran⟩
  · rw [failed]
    exact Meets.error trivial
  · rw [ran]
    refine Meets.intro_ (fun n' done => ?_) fun _ _ => trivial
    obtain ⟨n₁, cut, done⟩ := ok_of_bind_ok done
    exact (owns.deleteFrom undoes cut).appendAll done

theorem Owns.onAppendEntries (owns : Owns first n) {msg : AppendEntries} {now : ℤ}
    (undoes : msg.Undoes first n) :
    Meets (n.onAppendEntries msg now) (Owns first) fun _ => True := by
  refine Node.meets_onAppendEntries (Owns first) (Owns first) (fun _ _ => trivial) ?_ ?_ ?_ ?_
  · exact fun n₁ hears => owns.congr hears.log hears.configMgr
  · intro n₁ hears accepts
    refine (owns.congr hears.log hears.configMgr).acceptEntries ?_
    rw [hears.log, hears.configMgr]
    exact undoes accepts
  · intro n₂ owns
    exact Node.applies_learnCommit.mono
      (fun n₃ applies => owns.congr applies.log applies.configMgr) fun _ _ => trivial
  · exact fun n₃ n₄ owns hears => owns.congr hears.log hears.configMgr

theorem Owns.perform (owns : Owns first n) (undoes : op.Undoes first n)
    (done : n.perform op = .ok n') : Owns first n' := by
  by_cases lifecycle : op.Lifecycle
  · obtain ⟨log, -, -, configMgr⟩ := perform_lifecycle lifecycle done
    exact owns.congr log configMgr
  by_cases follows : op.Follows
  · unfold Op.Follows at follows
    split at follows
    · exact (owns.onAppendEntries undoes).of_ok done
    · exact follows.elim
  · have acts := perform_acts lifecycle done
    rw [eq_false follows] at acts
    exact acts.keep (fun _ _ owns act => owns.act act) owns

/-- What a restart takes over. -/
theorem Owns.boot_configMgr (owns : Owns first n) (flags : Flags) :
    (Node.boot first flags n.disk).configMgr = ⟨n.log.newest first, some first⟩ := by
  simp only [Node.boot, Node.disk, owns.on_record.lastConfig]
  rfl

theorem Owns.boot_log (owns : Owns first n) (flags : Flags) :
    (Node.boot first flags n.disk).log = n.log := by
  simp only [Node.boot, Node.disk, owns.on_record.lastConfig]

theorem Owns.first_boot (fresh : first.me ∉ first.peers) (flags : Flags) (sm : Bool) :
    Owns first (Node.boot first flags (Disk.fresh sm)) where
  on_record := rfl
  me := rfl
  peers _ := mem_peers_iff fresh
  previous := nofun

end Perform

/-- The newest configuration in the log was written by the node itself. -/
def Node.WroteNewest (first : RaftConfig) (n : Node) : Prop :=
  (n.log.newest first).me = n.me ∧ n.me ∉ (n.log.newest first).peers

/-- One step of a node: an operation that goes back by no more than the previous
configuration, or a restart on a configuration that the node has written. -/
inductive Node.OwnStep (first : RaftConfig) (n : Node) : Node → Prop
  | perform (op : Op) (armed : n.Armed op) (undoes : op.Undoes first n) (n' : Node)
      (done : n.perform op = .ok n') : OwnStep first n n'
  | restart (flags : Flags) (wrote : n.WroteNewest first) :
      OwnStep first n (Node.boot first flags n.disk)

/-- In every run whose restarts all find a configuration that the node has
written, a further restart keeps the identity and the members if and only if the
newest configuration was written by the node. -/
theorem restart_keeps_identity {first : RaftConfig} (fresh : first.me ∉ first.peers)
    {flags : Flags} {sm : Bool} {n : Node}
    (run : Relation.ReflTransGen (Node.OwnStep first)
      (Node.boot first flags (Disk.fresh sm)) n) (again : Flags) :
    ((Node.boot first again n.disk).me = n.me ∧
      (Node.boot first again n.disk).me ∉ (Node.boot first again n.disk).peers ∧
      (Node.boot first again n.disk).configMgr.current.SameMembers n.configMgr.current) ↔
    n.WroteNewest first := by
  have owns : Owns first n := by
    induction run with
    | refl => exact .first_boot fresh flags sm
    | tail _ step owns =>
        cases step with
        | perform op armed undoes n' done => exact owns.perform undoes done
        | restart flags wrote =>
            obtain ⟨me, other⟩ := wrote
            refine ⟨?_, ?_, ?_, ?_⟩
            · rw [owns.boot_log]
              exact owns.on_record
            · rw [Node.me, owns.boot_configMgr, me, owns.me]
            · rw [Node.peers, owns.boot_configMgr, owns.boot_log]
              intro addr
              rw [← owns.me, ← me]
              exact mem_peers_iff (me ▸ other)
            · rw [owns.boot_configMgr]
              rintro rc ⟨⟩
              exact ⟨rfl, fresh⟩
  have me_eq : (Node.boot first again n.disk).me = (n.log.newest first).me := by
    rw [Node.me, owns.boot_configMgr]
  have peers_eq : (Node.boot first again n.disk).peers = (n.log.newest first).peers := by
    rw [Node.peers, owns.boot_configMgr]
  rw [me_eq, peers_eq]
  constructor
  · rintro ⟨me, other, -⟩
    exact ⟨me, me ▸ other⟩
  · rintro ⟨me, other⟩
    refine ⟨me, me.symm ▸ other, fun addr => ?_⟩
    rw [owns.boot_configMgr]
    show addr ∈ (n.log.newest first).toVector ↔ addr ∈ n.me :: n.peers
    rw [List.mem_cons, owns.peers addr, ← owns.me]
    by_cases self : addr = n.me
    · simp [self, toVector, me]
    · simp [self]

instance (first : RaftConfig) (n : Node) : Decidable (n.WroteNewest first) :=
  inferInstanceAs (Decidable (_ ∧ _))

/-- A leader that has added a server restarts as itself. -/
theorem restart_keeps_identity_leader :
    ∃ n, Relation.ReflTransGen (Node.OwnStep ⟨1, [2, 3]⟩) trio n ∧ n.peers = [2, 3, 4] ∧
      (Node.boot ⟨1, [2, 3]⟩ ⟨false, false, false, {}⟩ n.disk).me = n.me ∧
      (Node.boot ⟨1, [2, 3]⟩ ⟨false, false, false, {}⟩ n.disk).configMgr.current.SameMembers
        n.configMgr.current := by
  obtain ⟨n, steps, seen⟩ := Node.operates_of_observed
    (fun n op => n.Armed op ∧ ¬op.Follows) trio (elected 2 ++ [.addServer 4])
    (fun n => n.peers = [2, 3, 4] && n.WroteNewest ⟨1, [2, 3]⟩) (by decide +kernel)
  simp only [Bool.and_eq_true, decide_eq_true_eq] at seen
  obtain ⟨peers, wrote⟩ := seen
  have run : Relation.ReflTransGen (Node.OwnStep ⟨1, [2, 3]⟩) trio n := by
    refine Relation.ReflTransGen.mono ?_ _ _ steps
    rintro n n' ⟨op, ⟨armed, plain⟩, done⟩
    refine .perform op armed ?_ n' done
    unfold Op.Undoes
    split
    · exact absurd trivial plain
    · trivial
  obtain ⟨me, -, members⟩ := (restart_keeps_identity (by decide) run
    ⟨false, false, false, {}⟩).mpr wrote
  exact ⟨n, run, peers, me, members⟩

/-- A follower that has appended the changes of leader `1` restarts as `1`. -/
theorem follower_restarts_as_leader :
    ∃ n, Relation.ReflTransGen (Node.Operates Node.Armed) follower n ∧ n.me = 2 ∧
      (Node.boot ⟨2, [1, 3]⟩ ⟨false, false, false, {}⟩ n.disk).me = 1 ∧
      2 ∈ (Node.boot ⟨2, [1, 3]⟩ ⟨false, false, false, {}⟩ n.disk).peers := by
  obtain ⟨n, steps, seen⟩ := Node.operates_of_observed Node.Armed follower
    [.input (.recv (.appendEntries addTwo) 0)]
    (fun n => n.me = 2 && (Node.boot ⟨2, [1, 3]⟩ ⟨false, false, false, {}⟩ n.disk).me = 1 &&
      (Node.boot ⟨2, [1, 3]⟩ ⟨false, false, false, {}⟩ n.disk).peers.contains 2) (by decide +kernel)
  simp only [Bool.and_eq_true, decide_eq_true_eq, List.contains_iff_mem] at seen
  obtain ⟨⟨me, taken⟩, mem⟩ := seen
  exact ⟨n, steps, me, taken, mem⟩

end Vraft
