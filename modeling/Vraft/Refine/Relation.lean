import Vraft.Consensus.Safety
import Vraft.Lib.Majority
import Vraft.Raft.Cluster

/-!
# Relating a cluster to the abstract protocol

The abstract state of `Vraft.Consensus` shadows a cluster: it has the same terms,
votes and logs, and remembers the history that no node can see.  `Stored` says
what the disk of a node has to do with it, `Live` adds the volatile part of a
running node, and `EffectOk` says what every message ever sent still tells about
the history.  None of the three is disturbed when another node moves.
-/

namespace Vraft

open Consensus (Chosen Committed Extends Inv Solicited Steps)

/-- The abstract state that shadows a cluster. -/
abbrev Ghost := Consensus.State Addr AppendEntry

/-! ## Quorums -/

namespace Membership

/-- Cluster sizes for which any two sets of `(n + 1) / 2` votes, or of two
votes, meet. -/
def Intersecting (m : Membership) : Prop :=
  Odd m.size ∨ m.size = 2

theorem card_members (m : Membership) : m.members.toFinset.card = m.size :=
  List.toFinset_card_of_nodup m.nodup

/-- The quorums of the code.  A candidate with peers never wins before one of
them has granted its vote, so it has at least two votes by then. -/
def quorums (m : Membership) (meets : m.Intersecting) : Consensus.Quorums Addr where
  vote voters := voters ⊆ m.members.toFinset ∧ (m.size + 1) / 2 ≤ voters.card ∧
    (2 ≤ voters.card ∨ m.size ≤ 1)
  ack holders := holders ⊆ m.members.toFinset ∧ m.size < 2 * holders.card
  vote_meets_vote := by
    rintro first second ⟨sub₁, le₁, two₁⟩ ⟨sub₂, le₂, two₂⟩
    refine Majority.exists_mem_of_card_lt sub₁ sub₂ ?_
    rw [m.card_members]
    rcases meets with ⟨k, odd⟩ | two <;> omega
  vote_meets_ack := by
    rintro voters holders ⟨sub₁, le₁, two₁⟩ ⟨sub₂, le₂⟩
    refine Majority.exists_mem_of_card_lt sub₁ sub₂ ?_
    rw [m.card_members]
    rcases meets with ⟨k, odd⟩ | two <;> omega

/-- The other members. -/
abbrev peersOf (m : Membership) (p : Addr) : List Addr :=
  (m.config p).peers

theorem mem_peersOf {m : Membership} {p q : Addr} :
    q ∈ m.peersOf p ↔ q ∈ m.members ∧ q ≠ p := by
  simp [peersOf, config]

theorem peersOf_nodup (m : Membership) (p : Addr) : (m.peersOf p).Nodup :=
  m.nodup.filter _

theorem length_peersOf {m : Membership} {p : Addr} (mem : p ∈ m.members) :
    (m.peersOf p).length + 1 = m.size := by
  have erased : m.peersOf p = m.members.erase p := by
    rw [m.nodup.erase_eq_filter]
    simp [peersOf, config, bne, BEq.beq]
  rw [erased, List.length_erase_of_mem mem, size]
  have := List.length_pos_of_mem mem
  omega

theorem ne_zero_of_mem {m : Membership} {p : Addr} (mem : p ∈ m.members) : p ≠ 0 := by
  rintro rfl
  exact m.null_not_mem mem

end Membership

/-! ## Application -/

/-- Entries numbered from `index` on. -/
def indexed (index : ℕ) : List AppendEntry → List LogEntry
  | [] => []
  | entry :: rest => ⟨index, entry⟩ :: indexed (index + 1) rest

theorem indexed_append (index : ℕ) (first second : List AppendEntry) :
    indexed index (first ++ second) =
      indexed index first ++ indexed (index + first.length) second := by
  induction first generalizing index with
  | nil => simp [indexed]
  | cons entry first ih =>
      simp only [List.cons_append, indexed, ih, List.length_cons]
      rw [Nat.add_right_comm, Nat.add_assoc]

/-- The data entries among the first `count` entries of a log, in index order. -/
def dataEntries (log : List AppendEntry) (count : ℕ) : List LogEntry :=
  (indexed 1 (log.take count)).filter fun entry => entry.appendEntry.type = .data

theorem dataEntries_succ {log : List AppendEntry} {count : ℕ} {entry : AppendEntry}
    (at_count : log[count]? = some entry) :
    dataEntries log (count + 1) =
      dataEntries log count ++ if entry.type = .data then [⟨count + 1, entry⟩] else [] := by
  have lt := (List.getElem?_eq_some_iff.mp at_count).1
  rw [dataEntries, dataEntries, List.take_add_one, at_count, indexed_append, List.filter_append,
    List.length_take, min_eq_left lt.le]
  simp only [Option.toList_some, indexed, Nat.add_comm 1]
  by_cases data : entry.type = .data <;> simp [data]

/-- The entries that a history hands to the state machine. -/
def appliedEntries (hist : List Effect) : List LogEntry :=
  hist.filterMap fun
    | .apply entry => some entry
    | _ => none

theorem appliedEntries_append (first second : List Effect) :
    appliedEntries (first ++ second) = appliedEntries first ++ appliedEntries second :=
  List.filterMap_append

/-! ## Messages -/

/-- The entry kinds of a cluster without membership changes. -/
def AppendEntry.Plain (entry : AppendEntry) : Prop :=
  entry.type = .data ∨ entry.type = .noop

/-- The term of the entry at an index, zero in front of the first. -/
def termAt (log : List AppendEntry) (index : ℕ) : ℕ :=
  if index = 0 then 0 else (log[index - 1]?).elim 0 AppendEntry.term

/-- The entries are those of `log` from `index` on. -/
def SliceAt (log : List AppendEntry) : ℕ → List LogEntry → Prop
  | _, [] => True
  | index, entry :: rest =>
      entry.index = index + 1 ∧ log[index]? = some entry.appendEntry ∧
        SliceAt log (index + 1) rest

section Relation

variable (m : Membership) (meets : m.Intersecting) (a : Ghost)

/-- The first `count` entries are chosen in a term no later than `term`. -/
def Backed (term count : ℕ) : Prop :=
  count = 0 ∨ ∃ t chosen, Chosen AppendEntry.term (m.quorums meets) a t chosen ∧
    count ≤ chosen ∧ t ≤ term

/-- What an append request says about the log of its term. -/
structure AppendOk (msg : AppendEntries) : Prop where
  src_ne : msg.src ≠ msg.dest
  leads : a.leader msg.term = some msg.src
  pre_le : msg.preLogIndex ≤ (a.tlog msg.term).length
  preTerm : msg.preLogTerm = termAt (a.tlog msg.term) msg.preLogIndex
  slice : SliceAt (a.tlog msg.term) msg.preLogIndex msg.entries
  plain : ∀ entry ∈ msg.entries, entry.appendEntry.Plain
  commit_le : msg.commitIndex ≤ msg.preLogIndex + msg.entries.length
  backed : Backed m meets a msg.term msg.commitIndex

/-- What a message says about the history.  Without compaction nobody sends
snapshots. -/
def MessageOk : Message → Prop
  | .requestVote msg => msg.src ≠ msg.dest ∧
      (msg.preVote = false →
        Solicited AppendEntry.term a msg.term msg.src msg.lastLogIndex msg.lastLogTerm)
  | .requestVoteReply msg => msg.src ≠ msg.dest ∧
      (msg.granted = true → msg.preVote = false →
        ∃ log, a.ballot msg.reqTerm msg.src = some (msg.dest, log))
  | .appendEntries msg => AppendOk m meets a msg
  | .appendEntriesReply msg => msg.src ≠ msg.dest ∧
      (msg.success = true → msg.reqPreIndex + msg.reqNumEntries ≤ a.acked msg.reqTerm msg.src)
  | .timeoutNow _ => True
  | .installSnapshot _ => False
  | .installSnapshotReply _ => False

/-- What an effect of `p` says about the history. -/
def EffectOk (p : Addr) : Effect → Prop
  | .send msg => msg.src = p ∧ MessageOk m meets a msg
  | .becomeLeader term => a.leader term = some p
  | _ => True

/-! ## Nodes -/

/-- The persistent state of `p`, after the effects `hist`. -/
structure Stored (p : Addr) (hist : List Effect) (disk : Disk) : Prop where
  term : disk.term = a.term p
  vote : a.vote p = if disk.vote = 0 then none else some disk.vote
  base : disk.log.base = 0
  entries : disk.log.entries = a.log p
  configs : disk.log.configs = [(0, m.config p)]
  plain : ∀ entry ∈ a.log p, entry.Plain
  hasSm : disk.sm.isSome = m.hasSm p
  settled : Committed AppendEntry.term (m.quorums meets) a p disk.smLast
  applied : appliedEntries hist = dataEntries (a.log p) disk.smLast
  effects : ∀ effect ∈ hist, EffectOk m meets a p effect

/-- The part of a node that the protocol is about. -/
structure View where
  disk : Disk
  started : Bool
  state : State
  commit : ℕ
  lastApply : ℕ
  leader : Addr
  config : RaftConfig
  voteMgr : VoteManager
  indexMgr : IndexManager
  preVoting : Bool

/-- Forget timers, timestamps and flags. -/
def Node.view (n : Node) : View where
  disk := n.disk
  started := n.started
  state := n.state
  commit := n.commit
  lastApply := n.lastApply
  leader := n.leader
  config := n.configMgr.current
  voteMgr := n.voteMgr
  indexMgr := n.indexMgr
  preVoting := n.preVoting

/-- A running node `p`, after the effects `hist`. -/
structure Live (p : Addr) (hist : List Effect) (v : View) : Prop
    extends Stored m meets a p hist v.disk where
  started : v.started = true
  config : v.config = m.config p
  votesOf : v.voteMgr.keys = m.peersOf p
  indicesOf : v.indexMgr.keys = m.peersOf p
  leads : v.state = .leader → a.leader (a.term p) = some p
  owns : v.state = .leader → (a.log p).length ≤ a.acked (a.term p) p
  stands : v.state = .candidate → v.preVoting = false → a.vote p = some p
  follows : v.leader ≠ 0 → a.leader (a.term p) = some v.leader
  grants : v.state = .candidate → ∀ q ∈ m.peersOf p, (v.voteMgr.val q).grant = true →
    ∃ log, a.ballot (a.term p) q = some (p, log)
  match_le : v.state = .leader → ∀ q ∈ m.peersOf p,
    v.indexMgr.getMatch q ≤ a.acked (a.term p) q
  next_pos : v.state = .leader → ∀ q ∈ m.peersOf p, 1 ≤ v.indexMgr.getNext q
  next_le : v.state = .leader → ∀ q ∈ m.peersOf p, v.indexMgr.getNext q ≤ (a.log p).length + 1
  commits : Committed AppendEntry.term (m.quorums meets) a p v.commit
  applies : Committed AppendEntry.term (m.quorums meets) a p v.lastApply
  sm_le : v.disk.smLast ≤ v.lastApply
  sm_eq : v.disk.sm.isSome = true →
    dataEntries (a.log p) v.lastApply = dataEntries (a.log p) v.disk.smLast

end Relation

/-! ## Moves of other nodes -/

/-- The state of `p` itself is the same. -/
structure Same (p : Addr) (a a' : Ghost) : Prop where
  term : a'.term p = a.term p
  vote : a'.vote p = a.vote p
  log : a'.log p = a.log p

theorem Same.refl (p : Addr) (a : Ghost) : Same p a a :=
  ⟨rfl, rfl, rfl⟩

theorem Same.trans {p : Addr} {a a' a'' : Ghost} (first : Same p a a') (second : Same p a' a'') :
    Same p a a'' :=
  ⟨second.term.trans first.term, second.vote.trans first.vote, second.log.trans first.log⟩

section Mono

variable {m : Membership} {meets : m.Intersecting} {a a' : Ghost}

theorem termAt_of_le {first second : List AppendEntry} {index : ℕ} (longer : first <+: second)
    (bound : index ≤ first.length) : termAt second index = termAt first index := by
  obtain ⟨rest, rfl⟩ := longer
  unfold termAt
  split
  · rfl
  · rw [List.getElem?_append_left (by omega)]

theorem SliceAt.mono {first second : List AppendEntry} (longer : first <+: second)
    {index : ℕ} {entries : List LogEntry} (slice : SliceAt first index entries) :
    SliceAt second index entries := by
  induction entries generalizing index with
  | nil => trivial
  | cons entry rest ih =>
      obtain ⟨index_eq, at_index, slice⟩ := slice
      refine ⟨index_eq, ?_, ih slice⟩
      obtain ⟨tail, rfl⟩ := longer
      rw [List.getElem?_append_left (List.getElem?_eq_some_iff.mp at_index).1]
      exact at_index

theorem Backed.mono (inv : Inv AppendEntry.term (m.quorums meets) a) (ext : Extends a a')
    {term count : ℕ} (backed : Backed m meets a term count) : Backed m meets a' term count := by
  rcases backed with rfl | ⟨t, chosen, isChosen, le, before⟩
  · exact Or.inl rfl
  · exact Or.inr ⟨t, chosen, isChosen.mono inv ext, le, before⟩

theorem AppendOk.mono (inv : Inv AppendEntry.term (m.quorums meets) a) (ext : Extends a a')
    {msg : AppendEntries} (ok : AppendOk m meets a msg) : AppendOk m meets a' msg := by
  have led : a.leader msg.term ≠ none := by simp [ok.leads]
  have longer := ext.tlog led
  exact {
    src_ne := ok.src_ne
    leads := ext.leader ok.leads
    pre_le := ok.pre_le.trans longer.length_le
    preTerm := by rw [termAt_of_le longer ok.pre_le, ok.preTerm]
    slice := ok.slice.mono longer
    plain := ok.plain
    commit_le := ok.commit_le
    backed := ok.backed.mono inv ext }

theorem solicited_mono (ext : Extends a a') {term : ℕ} {c : Addr} {index lastTerm : ℕ}
    (solicited : Solicited AppendEntry.term a term c index lastTerm) :
    Solicited AppendEntry.term a' term c index lastTerm := by
  obtain ⟨log, cast, position⟩ := solicited
  refine ⟨log, ext.ballot cast, fun vacant => position ?_⟩
  by_contra led
  exact ext.leader_ne led vacant

theorem MessageOk.mono (inv : Inv AppendEntry.term (m.quorums meets) a) (ext : Extends a a')
    {msg : Message} (ok : MessageOk m meets a msg) : MessageOk m meets a' msg := by
  cases msg with
  | requestVote msg => exact ⟨ok.1, fun real => solicited_mono ext (ok.2 real)⟩
  | requestVoteReply msg =>
      refine ⟨ok.1, fun granted real => ?_⟩
      obtain ⟨log, cast⟩ := ok.2 granted real
      exact ⟨log, ext.ballot cast⟩
  | appendEntries msg => exact AppendOk.mono inv ext ok
  | appendEntriesReply msg => exact ⟨ok.1, fun success => (ok.2 success).trans ext.acked⟩
  | timeoutNow msg => trivial
  | installSnapshot msg => exact ok
  | installSnapshotReply msg => exact ok

theorem EffectOk.mono (inv : Inv AppendEntry.term (m.quorums meets) a) (ext : Extends a a')
    {p : Addr} {effect : Effect} (ok : EffectOk m meets a p effect) :
    EffectOk m meets a' p effect := by
  cases effect with
  | send msg => exact ⟨ok.1, MessageOk.mono inv ext ok.2⟩
  | becomeLeader term => exact ext.leader ok
  | _ => trivial

section Renew

variable {p : Addr} {hist : List Effect} {disk disk' : Disk} {v : View}

/-- The data entries of a committed prefix never change. -/
theorem dataEntries_steps (inv : Inv AppendEntry.term (m.quorums meets) a)
    (steps : Steps AppendEntry.term (m.quorums meets) a a') {count : ℕ}
    (committed : Committed AppendEntry.term (m.quorums meets) a p count) :
    dataEntries (a'.log p) count = dataEntries (a.log p) count := by
  rw [dataEntries, dataEntries, committed.agree inv (inv.steps steps) (Extends.of_steps inv steps)
    (committed.steps inv steps)]

/-- After moves of the protocol, a disk that has written the new term, vote and
log but applied nothing. -/
theorem Stored.renew (stored : Stored m meets a p hist disk)
    (inv : Inv AppendEntry.term (m.quorums meets) a)
    (steps : Steps AppendEntry.term (m.quorums meets) a a')
    (term : disk'.term = a'.term p)
    (vote : a'.vote p = if disk'.vote = 0 then none else some disk'.vote)
    (base : disk'.log.base = 0) (entries : disk'.log.entries = a'.log p)
    (configs : disk'.log.configs = disk.log.configs)
    (plain : ∀ entry ∈ a'.log p, entry.Plain) (sm : disk'.sm = disk.sm) :
    Stored m meets a' p hist disk' where
  term := term
  vote := vote
  base := base
  entries := entries
  configs := configs.trans stored.configs
  plain := plain
  hasSm := sm ▸ stored.hasSm
  settled := by
    rw [Disk.smLast, sm]
    exact stored.settled.steps inv steps
  applied := by
    rw [Disk.smLast, sm, stored.applied]
    exact (dataEntries_steps inv steps stored.settled).symm
  effects effect mem := (stored.effects effect mem).mono inv (Extends.of_steps inv steps)

/-- The term and the vote are written. -/
theorem Stored.revote (stored : Stored m meets a p hist disk)
    (inv : Inv AppendEntry.term (m.quorums meets) a)
    (steps : Steps AppendEntry.term (m.quorums meets) a a') {term : ℕ} {vote : Addr}
    (term_eq : a'.term p = term) (vote_eq : a'.vote p = if vote = 0 then none else some vote)
    (log_eq : a'.log p = a.log p) :
    Stored m meets a' p hist { disk with term := term, vote := vote } :=
  stored.renew inv steps term_eq.symm vote_eq stored.base (stored.entries.trans log_eq.symm) rfl
    (by simpa only [log_eq] using stored.plain) rfl

/-- The log is written. -/
theorem Stored.relog (stored : Stored m meets a p hist disk)
    (inv : Inv AppendEntry.term (m.quorums meets) a)
    (steps : Steps AppendEntry.term (m.quorums meets) a a')
    (term_eq : a'.term p = a.term p) (vote_eq : a'.vote p = a.vote p) {log : Log}
    (base : log.base = 0) (entries : log.entries = a'.log p)
    (configs : log.configs = disk.log.configs) (plain : ∀ entry ∈ a'.log p, entry.Plain) :
    Stored m meets a' p hist { disk with log := log } :=
  stored.renew inv steps (stored.term.trans term_eq.symm) (vote_eq.trans stored.vote) base entries
    configs plain rfl

/-- A node that becomes or stays a follower, with a new disk. -/
theorem Live.follower (live : Live m meets a p hist v)
    (inv : Inv AppendEntry.term (m.quorums meets) a)
    (steps : Steps AppendEntry.term (m.quorums meets) a a')
    (stored : Stored m meets a' p hist disk') (sm : disk'.sm = v.disk.sm) (leader : Addr)
    (follows : leader ≠ 0 → a'.leader (a'.term p) = some leader) :
    Live m meets a' p hist { v with disk := disk', state := .follower, leader := leader } where
  toStored := stored
  started := live.started
  config := live.config
  votesOf := live.votesOf
  indicesOf := live.indicesOf
  leads := by simp
  owns := by simp
  stands := by simp
  follows := follows
  grants := by simp
  match_le := by simp
  next_pos := by simp
  next_le := by simp
  commits := live.commits.steps inv steps
  applies := live.applies.steps inv steps
  sm_le := by
    show disk'.smLast ≤ v.lastApply
    rw [Disk.smLast, sm]
    exact live.sm_le
  sm_eq running := by
    show dataEntries _ v.lastApply = dataEntries _ disk'.smLast
    rw [Disk.smLast, sm]
    rw [dataEntries_steps inv steps live.applies, live.sm_eq (sm ▸ running)]
    exact (dataEntries_steps inv steps live.settled).symm

/-- A node that becomes a candidate, with a new disk and an empty tally. -/
theorem Live.candidate (live : Live m meets a p hist v)
    (inv : Inv AppendEntry.term (m.quorums meets) a)
    (steps : Steps AppendEntry.term (m.quorums meets) a a')
    (stored : Stored m meets a' p hist disk') (sm : disk'.sm = v.disk.sm) (preVoting : Bool)
    (stands : preVoting = false → a'.vote p = some p) :
    Live m meets a' p hist { v with
      disk := disk'
      state := .candidate
      leader := 0
      voteMgr := v.voteMgr.clear
      preVoting := preVoting } :=
  { live.follower inv steps stored sm 0 (by simp) with
    votesOf := live.votesOf
    leads := by simp
    owns := by simp
    stands := fun _ real => stands real
    grants := fun _ q mem granted => by
      have keys : q ∈ v.voteMgr.keys := by simpa only [live.votesOf] using mem
      simp [VoteManager.clear, Table.mapValues_val_of_mem _ _ keys] at granted
    match_le := by simp
    next_pos := by simp
    next_le := by simp }

/-- The log changes in the current term.  A leader's log only grows, and the
leader has acknowledged all of it. -/
theorem Live.relog (live : Live m meets a p hist v)
    (inv : Inv AppendEntry.term (m.quorums meets) a)
    (steps : Steps AppendEntry.term (m.quorums meets) a a')
    (term_eq : a'.term p = a.term p) (vote_eq : a'.vote p = a.vote p) {log : Log}
    (base : log.base = 0) (entries : log.entries = a'.log p)
    (configs : log.configs = v.disk.log.configs) (plain : ∀ entry ∈ a'.log p, entry.Plain)
    (owns : v.state = .leader → (a'.log p).length ≤ a'.acked (a'.term p) p)
    (grows : v.state = .leader → (a.log p).length ≤ (a'.log p).length) :
    Live m meets a' p hist { v with disk := { v.disk with log := log } } := by
  have ext := Extends.of_steps inv steps
  exact {
    live.follower inv steps (live.toStored.relog inv steps term_eq vote_eq base entries configs
      plain) rfl 0 (by simp) with
    leads := fun leader => by
      rw [term_eq]
      exact ext.leader (live.leads leader)
    owns := owns
    stands := fun candidate real => vote_eq.trans (live.stands candidate real)
    follows := fun known => by
      rw [term_eq]
      exact ext.leader (live.follows known)
    grants := fun candidate q mem granted => by
      obtain ⟨cast, isCast⟩ := live.grants candidate q mem granted
      rw [term_eq]
      exact ⟨cast, ext.ballot isCast⟩
    match_le := fun leader q mem => by
      rw [term_eq]
      exact (live.match_le leader q mem).trans ext.acked
    next_pos := live.next_pos
    next_le := fun leader q mem =>
      (live.next_le leader q mem).trans (Nat.succ_le_succ (grows leader)) }

/-- A node is not disturbed by moves that leave its own state alone. -/
theorem Live.mono (live : Live m meets a p hist v)
    (inv : Inv AppendEntry.term (m.quorums meets) a)
    (steps : Steps AppendEntry.term (m.quorums meets) a a') (same : Same p a a') :
    Live m meets a' p hist v := by
  refine live.relog inv steps same.term same.vote live.base (live.entries.trans same.log.symm) rfl
    (by simpa only [same.log] using live.plain) (fun leader => ?_) (fun _ => by rw [same.log])
  rw [same.term, same.log]
  exact (live.owns leader).trans (Extends.of_steps inv steps).acked

end Renew

end Mono

end Vraft
