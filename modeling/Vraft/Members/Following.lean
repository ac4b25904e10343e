import Vraft.Members.Change
import Vraft.Roles.Timers

/-!
# The active configuration follows the log

A follower that appends config entries moves to the configuration of each, and
goes back to the previous one when an entry is truncated.  It remembers a single
previous configuration, which a restart and a rollback lose.  As long as no
truncation needs more than that, the members it works with are those of the
newest configuration in its log, and no change of configuration fails.
-/

namespace Vraft

open RaftConfig

/-! ## The invariant -/

/-- The current configuration has the members of the newest one in the log. -/
structure Mirrors (first : RaftConfig) (n : Node) : Prop where
  on_record : n.log.Records first
  members : n.configMgr.current.SameMembers (n.log.newest first)
  times : n.TimesMembers n.configMgr.current
  nodup : n.configMgr.current.toVector.Nodup
  previous : ∀ rc, n.configMgr.previous = some rc → rc.toVector.Nodup

section Mirrors

variable {first : RaftConfig} {n n' : Node}

/-- Everything that bears on the configuration is as before. -/
theorem Mirrors.congr (mirrors : Mirrors first n) (log : n'.log = n.log)
    (configMgr : n'.configMgr = n.configMgr)
    (requestVotes : n'.timerMgr.requestVotes.keys = n.timerMgr.requestVotes.keys)
    (heartbeats : n'.timerMgr.heartbeats.keys = n.timerMgr.heartbeats.keys) :
    Mirrors first n' where
  on_record := log ▸ mirrors.on_record
  members := by
    rw [log, configMgr]
    exact mirrors.members
  times := by
    intro addr timed
    rw [configMgr]
    rw [Node.Timed, requestVotes, heartbeats] at timed
    exact mirrors.times addr timed
  nodup := configMgr ▸ mirrors.nodup
  previous := configMgr ▸ mirrors.previous

theorem Mirrors.hears (mirrors : Mirrors first n) (hears : Node.Hears n n') : Mirrors first n' :=
  mirrors.congr hears.log hears.configMgr hears.requestVotes hears.heartbeats

/-- A config entry whose configuration is accepted is appended. -/
theorem appendOne_ok {entry : AppendEntry}
    (accepted : entry.type = .config → ∃ rc result, fromString entry.value = some rc ∧
      (n.emit (.appendLog entry)).doConfigChange rc = .ok result) :
    ∃ n', n.appendOne entry = .ok n' := by
  unfold Node.appendOne Node.configWritten
  split
  · rename_i config
    obtain ⟨rc, result, decoded, changed⟩ := accepted config
    simp only [decoded, Node.configChange, changed, ok_bind]
    exact ⟨_, rfl⟩
  · exact ⟨_, rfl⟩

/-- What is appended to the log has to be a change that a node accepts. -/
structure Acceptable (first : RaftConfig) (me : Addr) (standby : Bool) (log : Log)
    (entry : AppendEntry) : Prop where
  decodes : entry.type = .config → entry.proposal.isSome
  nodup : ∀ rc, entry.proposal = some rc → rc.toVector.Nodup
  keepsMe : ∀ rc, entry.proposal = some rc → me ∈ rc.toVector
  moves : ∀ rc, entry.proposal = some rc →
    (log.newest first).Within rc ∨ standby = false ∧ rc.Within (log.newest first)

theorem Mirrors.appendOne (mirrors : Mirrors first n) {entry : AppendEntry}
    (acceptable : Acceptable first n.me n.standby n.log entry) :
    Meets (n.appendOne entry)
      (fun n' => Mirrors first n' ∧ n'.log = n.log.appendOne entry ∧ n'.me = n.me ∧
        n'.standby = n.standby) fun _ => False := by
  have exists_ : ∃ n', n.appendOne entry = .ok n' := by
    apply appendOne_ok
    intro config
    obtain ⟨rc, proposes⟩ := Option.isSome_iff_exists.mp (acceptable.decodes config)
    have decoded : fromString entry.value = some rc := by
      simpa [AppendEntry.proposal, config] using proposes
    obtain ⟨result, changed⟩ := doConfigChange_ok (n := n.emit (.appendLog entry))
      mirrors.times (acceptable.nodup rc proposes) (by
        rcases acceptable.moves rc proposes with grows | ⟨active, shrinks⟩
        · exact .inl (grows.congr mirrors.members (.refl rc))
        · exact .inr ⟨active, shrinks.congr (.refl rc) mirrors.members⟩)
    exact ⟨rc, result, decoded, changed⟩
  obtain ⟨n', done⟩ := exists_
  rw [done]
  refine Meets.ok ?_
  have log := (Node.writes_appendOne done).log
  rcases appendOne_cases done with ⟨plain, rfl⟩ | ⟨rc, n₁, config, proposes, decoded, changed, rfl⟩
  · have silent : entry.proposal = none := if_neg plain
    refine ⟨⟨mirrors.on_record.appendOne entry, ?_, mirrors.times, mirrors.nodup,
      mirrors.previous⟩, rfl, rfl, rfl⟩
    rw [log, Log.newest_appendOne, silent]
    exact mirrors.members
  · have proposal : entry.proposal = some rc := by
      rw [AppendEntry.proposal, if_pos proposes, decoded]
    obtain ⟨me, members⟩ := doConfigChange_members changed
    have same : config.SameMembers rc := by
      intro addr
      rw [members]
      constructor
      · rintro (rfl | mem)
        · exact acceptable.keepsMe rc proposal
        · exact mem
      · exact .inr
    have times := doConfigChange_timesMembers (n := n.emit (.appendLog entry)) mirrors.times changed
    have nodup := doConfigChange_nodup (n := n.emit (.appendLog entry)) mirrors.nodup
      (acceptable.nodup rc proposal) changed
    have resized : n₁ = _ := doConfigChange_resized changed
    refine ⟨⟨mirrors.on_record.appendOne entry, ?_, ?_, nodup, ?_⟩, rfl, me, ?_⟩
    · rw [log, Log.newest_appendOne, proposal]
      exact same
    · exact fun addr timed => (same addr).mpr (times addr timed)
    · rintro rc' ⟨⟩
      exact mirrors.nodup
    · show n₁.standby = n.standby
      rw [resized]
      rfl

/-- Every entry is acceptable in its turn. -/
def AllAcceptable (first : RaftConfig) (me : Addr) (standby : Bool) : Log → List LogEntry → Prop
  | _, [] => True
  | log, entry :: rest =>
      Acceptable first me standby log entry.appendEntry ∧
      AllAcceptable first me standby (log.appendOne entry.appendEntry) rest

theorem Mirrors.appendAll (mirrors : Mirrors first n) {entries : List LogEntry}
    (acceptable : AllAcceptable first n.me n.standby n.log entries) :
    Meets (n.appendAll entries)
      (fun n' => Mirrors first n' ∧ n'.log = n.log.appendAll entries ∧ n'.me = n.me ∧
        n'.standby = n.standby) fun _ => False := by
  induction entries generalizing n with
  | nil => exact Meets.ok ⟨mirrors, rfl, rfl, rfl⟩
  | cons entry rest ih =>
      obtain ⟨one, others⟩ := acceptable
      refine Meets.bind (mirrors.appendOne one) ?_
      rintro n₁ ⟨mirrors₁, log, me, standby⟩
      rw [← log, ← me, ← standby] at others
      refine (ih mirrors₁ others).mono ?_ fun _ => id
      rintro n' ⟨mirrors', log', me', standby'⟩
      rw [log', log, me', me, standby', standby]
      exact ⟨mirrors', rfl, rfl, rfl⟩

end Mirrors

/-! ## Going back -/

/-- The configuration that a node goes on from once the given changes have been
rolled back. -/
def ConfigManager.reverted (mgr : ConfigManager) : List ℕ → Option RaftConfig
  | [] => some mgr.current
  | [_] => mgr.previous
  | _ => none

section Rollback

variable {first : RaftConfig} {n n' : Node}

theorem Mirrors.deleteFrom (mirrors : Mirrors first n) (active : n.standby = false) {from_ : ℕ}
    (one : (n.log.configsFrom from_).length ≤ 1)
    (previous : n.log.configsFrom from_ ≠ [] → ∃ rc, n.configMgr.previous = some rc ∧
      rc.SameMembers ((n.log.deleteFrom from_).newest first))
    (moves : n.log.configsFrom from_ ≠ [] →
      (n.log.newest first).Within ((n.log.deleteFrom from_).newest first) ∨
      ((n.log.deleteFrom from_).newest first).Within (n.log.newest first)) :
    Meets (n.deleteFrom from_)
      (fun n' => Mirrors first n' ∧ n'.log = n.log.deleteFrom from_ ∧ n'.standby = n.standby ∧
        n.configMgr.reverted (n.log.configsFrom from_) = some n'.configMgr.current)
      fun _ => False := by
  obtain ⟨dropped, proposals, count⟩ := mirrors.on_record.proposals_deleteFrom from_
  unfold Node.deleteFrom
  split
  · rename_i nothing
    refine Meets.ok ⟨mirrors, ?_, rfl, ?_⟩
    · rw [Log.deleteFrom, if_pos nothing]
    · rw [Log.configsFrom, if_pos nothing]
      rfl
  · dsimp only
    rcases indices : n.log.configsFrom from_ with _ | ⟨index, _ | ⟨second, rest⟩⟩
    · rw [indices, List.length_nil, List.length_eq_zero_iff] at count
      rw [count, List.append_nil] at proposals
      refine Meets.ok ⟨⟨mirrors.on_record.deleteFrom from_, ?_, mirrors.times, mirrors.nodup,
        mirrors.previous⟩, rfl, rfl, rfl⟩
      show n.configMgr.current.SameMembers ((n.log.deleteFrom from_).newest first)
      rw [Log.newest, ← proposals]
      exact mirrors.members
    · obtain ⟨rc, found, members⟩ := previous (by simp [indices])
      obtain ⟨result, changed⟩ := doConfigChange_ok (n := n.emit (.truncateLog from_))
        mirrors.times (mirrors.previous rc found) (by
          rcases moves (by simp [indices]) with grows | shrinks
          · exact .inl (grows.congr mirrors.members members)
          · exact .inr ⟨active, shrinks.congr members mirrors.members⟩)
      have times := doConfigChange_timesMembers (n := n.emit (.truncateLog from_))
        mirrors.times changed
      have resized : result.1 = _ := doConfigChange_resized changed
      have rolled : ∃ n₁, (n.emit (.truncateLog from_)).configRollbacks [index] = .ok n₁ ∧
          n₁.log = n.log ∧ n₁.configMgr = ⟨rc, none⟩ ∧ n₁.standby = n.standby ∧
          n₁.timerMgr = result.1.timerMgr := by
        have found' : (n.emit (.truncateLog from_)).configMgr.previous = some rc := found
        simp only [Node.configRollbacks, Node.configRollback, found', changed, ok_bind]
        refine ⟨_, rfl, ?_⟩
        split
        all_goals
          rw [resized]
          exact ⟨rfl, rfl, rfl, rfl⟩
      obtain ⟨n₁, done, log, configMgr, standby, timerMgr⟩ := rolled
      rw [done, ok_bind]
      refine Meets.ok ⟨⟨?_, ?_, ?_, ?_, ?_⟩, ?_, standby, ?_⟩
      · dsimp only
        rw [log]
        exact mirrors.on_record.deleteFrom from_
      · dsimp only
        rw [log, configMgr]
        exact members
      · intro addr timed
        rw [Node.Timed] at timed
        dsimp only at timed ⊢
        rw [timerMgr] at timed
        rw [configMgr]
        exact times addr timed
      · dsimp only
        rw [configMgr]
        exact mirrors.previous rc found
      · dsimp only
        rw [configMgr]
        rintro _ ⟨⟩
      · dsimp only
        rw [log]
      · dsimp only
        rw [configMgr]
        exact found
    · rw [indices] at one
      simp at one

end Rollback

/-! ## Histories of changes -/

/-- `b` has one server more than `a`, or one fewer. -/
def RaftConfig.OneServer (a b : RaftConfig) : Prop :=
  ∃ addr, (addr ∉ a.toVector ∧ ∀ x, x ∈ b.toVector ↔ x = addr ∨ x ∈ a.toVector) ∨
    (addr ∈ a.toVector ∧ ∀ x, x ∈ b.toVector ↔ x ≠ addr ∧ x ∈ a.toVector)

theorem RaftConfig.OneServer.comparable {a b : RaftConfig} (one : a.OneServer b) :
    a.Within b ∨ b.Within a := by
  obtain ⟨addr, ⟨new, members⟩ | ⟨old, members⟩⟩ := one
  · left
    refine ⟨fun x mem => (members x).mpr (.inr mem), fun back => new (back ?_)⟩
    exact (members addr).mpr (.inl rfl)
  · right
    refine ⟨fun x mem => ((members x).mp mem).2, fun back => ?_⟩
    exact ((members addr).mp (back old)).1 rfl

/-- Every proposal in the log is related to the configuration before it. -/
def Log.Steps (R : RaftConfig → RaftConfig → Prop) (first : RaftConfig) (log : Log) : Prop :=
  ∀ before rc after, log.proposals = before ++ rc :: after → R (before.getLast?.getD first) rc

/-- One server at a time, none listed twice, and `own` among them. -/
def KeepsOwn (own : Addr) (a b : RaftConfig) : Prop :=
  a.OneServer b ∧ b.toVector.Nodup ∧ own ∈ b.toVector

section Steps

variable {R : RaftConfig → RaftConfig → Prop} {first : RaftConfig} {log : Log}

theorem Log.Steps.front {log' : Log} (steps : log.Steps R first) {dropped : List RaftConfig}
    (proposals : log.proposals = log'.proposals ++ dropped) : log'.Steps R first := by
  intro before rc after split_
  refine steps before rc (after ++ dropped) ?_
  rw [proposals, split_, List.append_assoc, List.cons_append]

/-- Entries that continue a history of acceptable changes are acceptable. -/
theorem allAcceptable_of_steps {me : Addr} {standby : Bool} {entries : List LogEntry}
    (steps : (log.appendAll entries).Steps R first)
    (sound : ∀ a b, R a b →
      b.toVector.Nodup ∧ (a.Within b ∨ standby = false ∧ b.Within a))
    (decodes : ∀ entry ∈ entries, entry.appendEntry.type = .config →
      entry.appendEntry.proposal.isSome)
    (keepsMe : ∀ entry ∈ entries, ∀ rc, entry.appendEntry.proposal = some rc →
      me ∈ rc.toVector) :
    AllAcceptable first me standby log entries := by
  induction entries generalizing log with
  | nil => trivial
  | cons entry rest ih =>
      have next : ∀ rc, entry.appendEntry.proposal = some rc → R (log.newest first) rc := by
        intro rc proposes
        refine steps log.proposals rc (rest.filterMap fun entry => entry.appendEntry.proposal) ?_
        rw [Log.proposals_appendAll, List.filterMap_cons, proposes]
      refine ⟨⟨decodes entry List.mem_cons_self, ?_, keepsMe entry List.mem_cons_self, ?_⟩, ?_⟩
      · exact fun rc proposes => (sound _ _ (next rc proposes)).1
      · exact fun rc proposes => (sound _ _ (next rc proposes)).2
      · apply ih steps
        · exact fun later mem => decodes later (List.mem_cons_of_mem _ mem)
        · exact fun later mem => keepsMe later (List.mem_cons_of_mem _ mem)

theorem KeepsOwn.sound {own : Addr} {a b : RaftConfig} (keeps : KeepsOwn own a b) :
    b.toVector.Nodup ∧ (a.Within b ∨ false = false ∧ b.Within a) :=
  ⟨keeps.2.1, keeps.1.comparable.imp_right fun shrinks => ⟨rfl, shrinks⟩⟩

/-- The configurations before and after the last one differ by one server. -/
theorem newest_comparable {own : Addr} (steps : log.Steps (KeepsOwn own) first) {log' : Log}
    {last : RaftConfig} (proposals : log.proposals = log'.proposals ++ [last]) :
    (log.newest first).Within (log'.newest first) ∨
      (log'.newest first).Within (log.newest first) := by
  have newest : log.newest first = last := by
    rw [Log.newest, proposals, List.getLast?_concat, Option.getD_some]
  rw [newest]
  exact (steps log'.proposals last [] proposals).1.comparable.symm

theorem newest_nodup {own : Addr} (nodup : first.toVector.Nodup)
    (steps : log.Steps (KeepsOwn own) first) : (log.newest first).toVector.Nodup := by
  rcases List.eq_nil_or_concat log.proposals with empty | ⟨before, last, split_⟩
  · rw [Log.newest, empty]
    exact nodup
  · rw [List.concat_eq_append] at split_
    rw [Log.newest, split_, List.getLast?_concat, Option.getD_some]
    exact (steps before last [] split_).2.1

end Steps

/-! ## Messages -/

namespace AppendEntries

/-- The entries that the message adds to the log of a node. -/
def tail (msg : AppendEntries) (log : Log) : List LogEntry :=
  (log.divide msg.preLogIndex msg.entries).2

/-- The changes that the message drops from the log. -/
def dropped (msg : AppendEntries) (log : Log) : List ℕ :=
  log.configsFrom (log.divide msg.preLogIndex msg.entries).1

/-- The log before the entries are added. -/
def kept (msg : AppendEntries) (log : Log) : Log :=
  log.deleteFrom (log.divide msg.preLogIndex msg.entries).1

/-- The message makes the log a history of changes of one server each, with the
node among the members throughout. -/
structure Evolves (msg : AppendEntries) (first : RaftConfig) (log : Log) : Prop where
  decodes : ∀ entry ∈ msg.tail log, entry.appendEntry.type = .config →
    entry.appendEntry.proposal.isSome
  steps : (log.accept msg.preLogIndex msg.entries).Steps (KeepsOwn first.me) first

/-- At most one change is dropped, the configuration before it is still at hand,
and the server that the node takes itself for stays a member. -/
structure Reversible (msg : AppendEntries) (first : RaftConfig) (n : Node) : Prop where
  one : (msg.dropped n.log).length ≤ 1
  previous : msg.dropped n.log ≠ [] → ∃ rc, n.configMgr.previous = some rc ∧
    rc.SameMembers ((msg.kept n.log).newest first)
  keepsMe : ∀ rc, n.configMgr.reverted (msg.dropped n.log) = some rc →
    ∀ entry ∈ msg.tail n.log, ∀ new, entry.appendEntry.proposal = some new → rc.me ∈ new.toVector

end AppendEntries

/-- The asserts on changes of configuration. -/
def AssertSite.OfConfig (site : AssertSite) : Prop :=
  site = .configDecode ∨ site = .configDirection ∨ site = .configCompare ∨ site = .configTimer ∨
    site = .configPrevious

theorem AssertSite.OfHead.not_ofConfig {site : AssertSite} (head : site.OfHead) :
    ¬site.OfConfig := by
  rcases head with rfl | rfl | rfl <;> simp [OfConfig]

theorem AssertSite.OfWalk.not_ofConfig {site : AssertSite} (walk : site.OfWalk) :
    ¬site.OfConfig := by
  rcases walk with rfl | rfl | rfl <;> simp [OfConfig]

theorem AssertSite.OfApply.not_ofConfig {site : AssertSite} (apply : site.OfApply) :
    ¬site.OfConfig := by
  rcases apply with rfl | rfl <;> simp [OfConfig]

/-- A follower in action: its configuration mirrors a history of changes. -/
structure Following (first : RaftConfig) (n : Node) : Prop where
  mirrors : Mirrors first n
  active : n.standby = false
  steps : n.log.Steps (KeepsOwn first.me) first

section Deliver

variable {first : RaftConfig} {n n' : Node} {msg : AppendEntries} {now : ℤ}

theorem Following.hears (following : Following first n) (hears : Node.Hears n n') :
    Following first n' :=
  ⟨following.mirrors.hears hears, hears.standby.trans following.active,
    hears.log ▸ following.steps⟩

theorem Following.acceptEntries (following : Following first n)
    (evolves : msg.Evolves first n.log) (reversible : msg.Reversible first n) :
    Meets (n.acceptEntries msg.preLogIndex msg.entries) (Following first)
      fun failed => ¬failed.1.OfConfig := by
  obtain ⟨mirrors, active, steps⟩ := following
  rcases Node.acceptEntries_cases (n := n) msg.preLogIndex msg.entries with
    ⟨site, walk, failed⟩ | ⟨-, ran⟩
  · rw [failed]
    exact Meets.error walk.not_ofConfig
  rw [ran]
  have moves : msg.dropped n.log ≠ [] →
      (n.log.newest first).Within ((msg.kept n.log).newest first) ∨
      ((msg.kept n.log).newest first).Within (n.log.newest first) := by
    intro some_
    obtain ⟨dropped, proposals, count⟩ := mirrors.on_record.proposals_deleteFrom
      (n.log.divide msg.preLogIndex msg.entries).1
    have one := reversible.one
    have positive := List.length_pos_iff.mpr some_
    rw [AppendEntries.dropped, ← count] at one positive
    obtain ⟨last, rfl⟩ := List.length_eq_one_iff.mp (show dropped.length = 1 by omega)
    exact newest_comparable steps proposals
  refine Meets.bind ((mirrors.deleteFrom active reversible.one reversible.previous moves).mono
    (fun _ => id) fun _ => False.elim) ?_
  rintro n₁ ⟨mirrors₁, log, standby, reverted⟩
  refine (mirrors₁.appendAll ?_).mono ?_ fun _ => False.elim
  · rw [log, standby, active]
    exact allAcceptable_of_steps evolves.steps (fun _ _ => KeepsOwn.sound) evolves.decodes
      (reversible.keepsMe n₁.configMgr.current reverted)
  · rintro n₂ ⟨mirrors₂, log₂, -, standby₂⟩
    refine ⟨mirrors₂, by rw [standby₂, standby, active], ?_⟩
    rw [log₂, log]
    exact evolves.steps

/-- A message that needs no more than the previous configuration is handled
without failing a change, and the configuration follows the log. -/
theorem Following.onAppendEntries (following : Following first n)
    (evolves : n.Accepts msg → msg.Evolves first n.log)
    (reversible : n.Accepts msg → msg.Reversible first n) :
    Meets (n.onAppendEntries msg now) (Following first) fun failed => ¬failed.1.OfConfig := by
  refine Node.meets_onAppendEntries (Following first) (Following first)
    (fun failed head => head.not_ofConfig) ?_ ?_ ?_ ?_
  · exact fun n₁ hears => following.hears hears
  · intro n₁ hears accepts
    refine (following.hears hears).acceptEntries ?_ ?_
    · rw [hears.log]
      exact evolves accepts
    · obtain ⟨one, previous, keepsMe⟩ := reversible accepts
      rw [← hears.log] at one previous keepsMe
      rw [← hears.configMgr] at previous keepsMe
      exact ⟨one, previous, keepsMe⟩
  · intro n₂ following
    refine Node.applies_learnCommit.mono (fun n₃ applies => ?_) fun failed site => ?_
    · refine ⟨following.mirrors.congr applies.log applies.configMgr ?_ ?_, ?_, ?_⟩
      · rw [applies.timerMgr]
      · rw [applies.timerMgr]
      · rcases applies.settles with ⟨-, standby⟩ | ⟨-, -, standby⟩
        · exact standby.trans following.active
        · exact standby
      · rw [applies.log]
        exact following.steps
    · rcases site with site | site
      · simp [site, AssertSite.OfConfig]
      · exact site.not_ofConfig
  · exact fun n₃ n₄ following hears => following.hears hears

/-- A node starts with timers for its peers. -/
theorem boot_timesMembers (rc : RaftConfig) (flags : Flags) (disk : Disk) :
    (Node.boot rc flags disk).TimesMembers (Node.boot rc flags disk).configMgr.current := by
  rintro addr (mem | mem)
  · exact List.mem_cons_of_mem _ ((Table.mem_ofKeys_keys _ _ _).mp mem)
  · exact List.mem_cons_of_mem _ ((Table.mem_ofKeys_keys _ _ _).mp mem)

theorem Following.fresh (nodup : first.toVector.Nodup) {flags : Flags}
    (active : flags.standby = false) (sm : Bool) :
    Following first (Node.boot first flags (Disk.fresh sm)) where
  mirrors := ⟨rfl, .refl _, boot_timesMembers _ _ _, nodup, nofun⟩
  active := active
  steps before rc after none_ := by
    have empty : ([] : List RaftConfig) = before ++ rc :: after := none_
    simp at empty

theorem Following.boot (following : Following first n) (nodup : first.toVector.Nodup)
    {flags : Flags} (active : flags.standby = false) :
    Following first (Node.boot first flags n.disk) := by
  have found := following.mirrors.on_record.lastConfig
  have configMgr : (Node.boot first flags n.disk).configMgr =
      ⟨n.log.newest first, some first⟩ := by
    simp only [Node.boot, Node.disk, found]
    rfl
  have log : (Node.boot first flags n.disk).log = n.log := by
    simp only [Node.boot, Node.disk, found]
  refine ⟨⟨?_, ?_, ?_, ?_, ?_⟩, active, ?_⟩
  · rw [log]
    exact following.mirrors.on_record
  · rw [configMgr, log]
    exact .refl _
  · exact boot_timesMembers _ _ _
  · rw [configMgr]
    exact newest_nodup nodup following.steps
  · rw [configMgr]
    rintro rc ⟨⟩
    exact nodup
  · rw [log]
    exact following.steps

end Deliver

/-! ## Along runs -/

theorem Log.Steps.appendOne {R : RaftConfig → RaftConfig → Prop} {first : RaftConfig} {log : Log}
    (steps : log.Steps R first) {entry : AppendEntry}
    (next : ∀ rc, entry.proposal = some rc → R (log.newest first) rc) :
    (log.appendOne entry).Steps R first := by
  intro before rc after split_
  rw [Log.proposals_appendOne] at split_
  cases found : entry.proposal with
  | none =>
      rw [found, Option.toList_none, List.append_nil] at split_
      exact steps before rc after split_
  | some last =>
      rw [found, Option.toList_some] at split_
      rcases List.eq_nil_or_concat after with rfl | ⟨rest, last', rfl⟩
      · obtain ⟨rfl, same⟩ := List.append_inj' split_ rfl
        obtain rfl := List.singleton_inj.mp same
        exact next last found
      · rw [List.concat_eq_append, ← List.cons_append, ← List.append_assoc] at split_
        exact steps before rc rest (List.append_inj' split_ rfl).1

/-- A follower of three members. -/
def follower : Node :=
  Node.boot ⟨2, [1, 3]⟩ ⟨false, false, false, {}⟩ (Disk.fresh true)

/-- The leader adds `4` and `5`. -/
def addTwo : AppendEntries where
  src := 1
  dest := 2
  term := 2
  preLogIndex := 0
  preLogTerm := 0
  commitIndex := 0
  entries := [⟨1, 2, .config, RaftConfig.toString ⟨1, [2, 3, 4]⟩⟩,
    ⟨2, 2, .config, RaftConfig.toString ⟨1, [2, 3, 4, 5]⟩⟩]

/-- The follower with both servers added. -/
def grown : Node :=
  (follower.onAppendEntries addTwo 0).node

end Vraft
