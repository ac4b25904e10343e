import Vraft.Raft.Follow
import Vraft.Refine.LogWrites
import Vraft.Votes.Trace

/-!
# What an operation does to a candidacy

Elections read and write a few fields of a node, its `Seat`.  In a cluster whose
membership is fixed every handler, on any log and with any snapshots, makes a
few kinds of moves there, and it is quiet otherwise: what it sends as a leader
carries its own term, and what it grants is its vote on record.
-/

namespace Vraft

/-- What elections read and write of a node. -/
structure Seat where
  config : RaftConfig
  term : ℕ
  vote : Addr
  leader : Addr
  state : State
  preVoting : Bool
  enablePreVote : Bool
  voteMgr : VoteManager

/-- The part of a node that elections depend on. -/
def Node.seat (n : Node) : Seat where
  config := n.configMgr.current
  term := n.solid.term
  vote := n.solid.vote
  leader := n.leader
  state := n.state
  preVoting := n.preVoting
  enablePreVote := n.enablePreVote
  voteMgr := n.voteMgr

/-- Effects that leave a seat alone: leaders send in their own term, and the vote
that is granted or counted is the one on record. -/
def Effect.Quiet (s : Seat) : Effect → Prop
  | .persistTerm _ => False
  | .persistVote _ => False
  | .becomeLeader _ => False
  | .countSelf term addr => term = s.term ∧ addr = s.config.me ∧ s.vote = addr
  | .send (.requestVote msg) => msg.src = s.config.me ∧ msg.dest ≠ s.config.me
  | .send (.requestVoteReply msg) =>
      msg.src = s.config.me ∧ msg.dest ≠ s.config.me ∧
        (msg.granted = true → msg.reqTerm = s.term ∧ msg.dest = s.vote ∧ msg.dest ≠ 0)
  | .send (.appendEntries msg) => msg.src = s.config.me ∧ msg.term = s.term ∧
      s.state = .leader ∧ ∀ entry ∈ msg.entries, entry.appendEntry.Plain
  | .send (.installSnapshot msg) =>
      msg.src = s.config.me ∧ msg.term = s.term ∧ s.state = .leader
  | _ => True

namespace Input

/-- The input is a message of a leader. -/
def Leads : Input → Addr → ℕ → Prop
  | .recv (.appendEntries msg) _, src, term => msg.src = src ∧ msg.term = term
  | .recv (.installSnapshot msg) _, src, term => msg.src = src ∧ msg.term = term
  | _, _, _ => False

/-- Vote requests come from other nodes and go to them, and entries bring no
configuration. -/
def Sane (me : Addr) : Input → Prop
  | .requestVoteTimer dest => dest ≠ me
  | .recv (.requestVote msg) _ => msg.dest = me ∧ msg.src ≠ me ∧ msg.src ≠ 0
  | .recv (.appendEntries msg) _ => ∀ entry ∈ msg.entries, entry.appendEntry.Plain
  | _ => True

end Input

/-- One move. -/
inductive Turn (input : Input) (s : Seat) : List Effect → Seat → Prop
  | quiet (effects : List Effect) (quiet : ∀ effect ∈ effects, effect.Quiet s) :
      Turn input s effects s
  | flags (enable : Bool) (flags : Flags) (set : input = .setFlags flags)
      (enables : enable = flags.enablePreVote) :
      Turn input s [] { s with enablePreVote := enable }
  | adopt (term : ℕ) (later : s.term < term) :
      Turn input s [.persistTerm term, .persistVote 0]
        { s with term := term, vote := 0, leader := 0, state := .follower }
  | follow : Turn input s [] { s with state := .follower }
  | hear (src : Addr) (unknown : s.leader = 0) (heard : input.Leads src s.term) :
      Turn input s [] { s with leader := src }
  | vote (candidate : Addr) (free : s.vote = 0) (other : candidate ≠ s.config.me)
      (nonnull : candidate ≠ 0) :
      Turn input s [.persistVote candidate] { s with vote := candidate }
  | mark (msg : RequestVoteReply) (now : ℤ) (came : input = .recv (.requestVoteReply msg) now)
      (current : msg.term = s.term ∧ msg.reqTerm = s.term) (item : VoteItem)
      (given : item.grant = true →
        (s.voteMgr.val msg.src).grant = true ∨ msg.granted = true ∧ msg.preVote = false) :
      Turn input s [] { s with voteMgr := s.voteMgr.set msg.src item }
  | poll (timer : input = .electionTimer) :
      Turn input s [] { s with
        leader := 0, state := .candidate, preVoting := true, voteMgr := s.voteMgr.clear }
  | stand (moved : input = .electionTimer ∨
        ∃ msg now, input = .recv (.requestVoteReply msg) now) :
      Turn input s
        [.persistTerm (s.term + 1), .persistVote s.config.me, .countSelf (s.term + 1) s.config.me]
        { s with
          term := s.term + 1, vote := s.config.me, leader := 0, state := .candidate
          preVoting := false, voteMgr := s.voteMgr.clear }
  | lead (candidate : s.state = .candidate)
      (majority : s.voteMgr.majority (s.vote = s.config.me) = true) :
      Turn input s [.becomeLeader s.term] { s with state := .leader, leader := s.config.me }

/-- Moves one after the other. -/
inductive Turns (input : Input) (s : Seat) : List Effect → Seat → Prop
  | nil : Turns input s [] s
  | snoc {s₁ s₂ : Seat} {done more : List Effect} (before : Turns input s done s₁)
      (turn : Turn input s₁ more s₂) : Turns input s (done ++ more) s₂

theorem Turns.trans {input : Input} {s s₁ s₂ : Seat} {first second : List Effect}
    (before : Turns input s first s₁) (after : Turns input s₁ second s₂) :
    Turns input s (first ++ second) s₂ := by
  induction after with
  | nil => rwa [List.append_nil]
  | snoc _ turn ih =>
      rw [← List.append_assoc]
      exact .snoc ih turn

theorem Turns.single {input : Input} {s s' : Seat} {effects : List Effect}
    (turn : Turn input s effects s') : Turns input s effects s' :=
  .snoc .nil turn

/-- The node has always had the configuration `rc`. -/
structure Fixed (rc : RaftConfig) (n : Node) : Prop where
  current : n.configMgr.current = rc
  configs : n.log.configs = [(0, rc)]
  plain : ∀ entry ∈ n.log.entries, entry.Plain

/-- The node has moved, and it still has the configuration `rc`. -/
structure Turned (rc : RaftConfig) (input : Input) (n n' : Node) : Prop where
  fixed : Fixed rc n'
  turns : ∃ effects, n'.effects = n.effects ++ effects ∧ Turns input n.seat effects n'.seat

/-- The seat is as before, and what was done is quiet. -/
structure Still (rc : RaftConfig) (n n' : Node) : Prop where
  fixed : Fixed rc n'
  seat : n'.seat = n.seat
  effects : ∃ effects, n'.effects = n.effects ++ effects ∧ ∀ effect ∈ effects, effect.Quiet n.seat

/-- If the senders are `trusted`, the assert is not the one about the leader. -/
abbrev Calm (trusted : Prop) (failed : AssertSite × Node) : Prop :=
  trusted → failed.1 ≠ .leaderCache

section Moves

variable {rc : RaftConfig} {input : Input} {n n₁ n' : Node} {trusted : Prop}

theorem Fixed.congr (fixed : Fixed rc n) (config : n'.configMgr = n.configMgr)
    (log : n'.log = n.log) : Fixed rc n' where
  current := by rw [config, fixed.current]
  configs := by rw [log, fixed.configs]
  plain := by
    rw [log]
    exact fixed.plain

theorem Fixed.me (fixed : Fixed rc n) : n.me = rc.me := by
  rw [Node.me, fixed.current]

theorem Still.refl (fixed : Fixed rc n) : Still rc n n :=
  ⟨fixed, rfl, [], by simp, by simp⟩

theorem Still.trans (first : Still rc n n₁) (second : Still rc n₁ n') : Still rc n n' := by
  obtain ⟨-, seat, early, early_eq, early_quiet⟩ := first
  obtain ⟨fixed, seat', late, late_eq, late_quiet⟩ := second
  refine ⟨fixed, seat'.trans seat, early ++ late, ?_, fun effect mem => ?_⟩
  · rw [late_eq, early_eq, List.append_assoc]
  · rcases List.mem_append.mp mem with mem | mem
    · exact early_quiet effect mem
    · rw [← seat]
      exact late_quiet effect mem

/-- Fields outside of the seat have changed. -/
theorem Still.of_seat (fixed : Fixed rc n) (config : n'.configMgr = n.configMgr)
    (log : n'.log = n.log) (seat : n'.seat = n.seat) (effects : n'.effects = n.effects) :
    Still rc n n' :=
  ⟨fixed.congr config log, seat, [], by rw [effects, List.append_nil], by simp⟩

/-- One effect. -/
theorem Still.emit (fixed : Fixed rc n) (effect : Effect) (quiet : effect.Quiet n.seat)
    (config : n'.configMgr = n.configMgr) (log : n'.log = n.log) (seat : n'.seat = n.seat)
    (effects : n'.effects = n.effects ++ [effect]) : Still rc n n' := by
  refine ⟨fixed.congr config log, seat, [effect], effects, fun other mem => ?_⟩
  obtain rfl := List.mem_singleton.mp mem
  exact quiet

theorem Still.turned (still : Still rc n n') : Turned rc input n n' := by
  obtain ⟨fixed, seat, effects, effects_eq, quiet⟩ := still
  refine ⟨fixed, effects, effects_eq, ?_⟩
  rw [seat]
  exact .single (.quiet effects quiet)

theorem Turned.refl (fixed : Fixed rc n) : Turned rc input n n :=
  (Still.refl fixed).turned

theorem Turned.trans (first : Turned rc input n n₁) (second : Turned rc input n₁ n') :
    Turned rc input n n' := by
  obtain ⟨-, early, early_eq, early_turns⟩ := first
  obtain ⟨fixed, late, late_eq, late_turns⟩ := second
  exact ⟨fixed, early ++ late, by rw [late_eq, early_eq, List.append_assoc],
    early_turns.trans late_turns⟩

/-- One move. -/
theorem Turned.single (fixed : Fixed rc n) {effects : List Effect} {s : Seat}
    (turn : Turn input n.seat effects s) (config : n'.configMgr = n.configMgr)
    (log : n'.log = n.log) (seat : n'.seat = s) (effects_eq : n'.effects = n.effects ++ effects) :
    Turned rc input n n' := by
  refine ⟨fixed.congr config log, effects, effects_eq, ?_⟩
  rw [seat]
  exact .single turn

/-! ## Commitment -/

theorem check_calm {site : AssertSite} {c : Prop} [Decidable c] (other : site ≠ .leaderCache) :
    Meets (n.check site c) (fun n' => c ∧ n = n') (Calm trusted) := by
  unfold Node.check
  split
  · rename_i holds
    exact Meets.ok ⟨holds, rfl⟩
  · exact Meets.error fun _ => other

theorem applyOne_still (fixed : Fixed rc n) (index : ℕ) :
    Meets (n.applyOne index) (Still rc n) (Calm trusted) := by
  unfold Node.applyOne
  split
  · exact Meets.error fun _ => by simp
  · split
    · split
      · exact Meets.ok (.emit fixed (.apply _) trivial rfl rfl rfl rfl)
      · exact Meets.ok (.refl fixed)
    · refine Meets.ok ?_
      split
      · exact .of_seat fixed rfl rfl rfl rfl
      · exact .refl fixed
    · exact Meets.ok (.refl fixed)
    · exact Meets.error fun _ => by simp

theorem applyFrom_still (fixed : Fixed rc n) (index count : ℕ) :
    Meets (n.applyFrom index count) (Still rc n) (Calm trusted) := by
  induction count generalizing n index with
  | zero => exact Meets.ok (.refl fixed)
  | succ count ih =>
      refine Meets.bind (applyOne_still fixed index) fun n₁ still => ?_
      exact (ih still.fixed (index + 1)).mono (fun _ => still.trans) fun _ => id

theorem stateMachineApply_still (fixed : Fixed rc n) :
    Meets n.stateMachineApply (Still rc n) (Calm trusted) := by
  unfold Node.stateMachineApply
  split
  · refine Meets.bind (applyFrom_still fixed _ _) fun n₁ still => Meets.ok ?_
    exact still.trans (.of_seat still.fixed rfl rfl rfl rfl)
  · exact Meets.ok (.refl fixed)

theorem maybeCommit_still (fixed : Fixed rc n) : Meets n.maybeCommit (Still rc n) (Calm trusted) := by
  unfold Node.maybeCommit
  refine Meets.bind (check_calm (by simp)) ?_
  rintro _ ⟨-, rfl⟩
  dsimp only
  split
  · exact Meets.ok (.refl fixed)
  refine Meets.bind (check_calm (by simp)) ?_
  rintro _ ⟨-, rfl⟩
  split
  · exact Meets.error fun _ => by simp
  · split
    · exact Meets.ok (.refl fixed)
    · have still : Still rc n { n with commit := n.indexMgr.majorityMax n.lastIndex } :=
        .of_seat fixed rfl rfl rfl rfl
      refine Meets.bind (check_calm (by simp)) ?_
      rintro _ ⟨-, rfl⟩
      exact (stateMachineApply_still still.fixed).mono (fun _ => still.trans) fun _ => id

theorem learnCommit_still (fixed : Fixed rc n) (index : ℕ) :
    Meets (n.learnCommit index) (Still rc n) (Calm trusted) := by
  unfold Node.learnCommit
  split
  · dsimp only
    have still : Still rc n { n with commit := index } := .of_seat fixed rfl rfl rfl rfl
    refine Meets.bind (check_calm (by simp)) ?_
    rintro _ ⟨-, rfl⟩
    exact (stateMachineApply_still still.fixed).mono (fun _ => still.trans) fun _ => id
  · exact Meets.ok (.refl fixed)

/-! ## Writes to the log -/

theorem appendOne_still (fixed : Fixed rc n) {entry : AppendEntry} (plain : entry.Plain) :
    Meets (n.appendOne entry) (Still rc n) (Calm trusted) := by
  rw [Node.appendOne_eq plain]
  refine Meets.ok ⟨⟨fixed.current, ?_, fun other mem => ?_⟩, rfl, [.appendLog entry], rfl, ?_⟩
  · exact (Log.appendOne_configs plain n.log).trans fixed.configs
  · rcases List.mem_append.mp mem with mem | mem
    · exact fixed.plain other mem
    · obtain rfl := List.mem_singleton.mp mem
      exact plain
  · intro effect mem
    obtain rfl := List.mem_singleton.mp mem
    trivial

theorem appendAll_still (fixed : Fixed rc n) {entries : List LogEntry}
    (plain : ∀ entry ∈ entries, entry.appendEntry.Plain) :
    Meets (n.appendAll entries) (Still rc n) (Calm trusted) := by
  induction entries generalizing n with
  | nil => exact Meets.ok (.refl fixed)
  | cons entry rest ih =>
      refine Meets.bind (appendOne_still fixed (plain entry List.mem_cons_self)) fun n₁ still => ?_
      exact (ih still.fixed fun other mem => plain other (List.mem_cons_of_mem _ mem)).mono
        (fun _ => still.trans) fun _ => id

theorem deleteFrom_still (fixed : Fixed rc n) (from_ : ℕ) :
    Meets (n.deleteFrom from_) (Still rc n) (Calm trusted) := by
  unfold Node.deleteFrom
  split
  · exact Meets.ok (.refl fixed)
  rename_i something
  have nonempty : n.log.entries ≠ [] := fun empty => something (.inl empty)
  have first : n.log.first = n.log.base + 1 := if_neg nonempty
  have dropped : n.log.configsFrom from_ = [] := by
    rw [Log.configsFrom, if_neg something, fixed.configs]
    simp [first]
  rw [dropped]
  refine Meets.ok ⟨⟨fixed.current, ?_, fun entry mem => ?_⟩, rfl, [.truncateLog from_], rfl, ?_⟩
  · show (n.log.deleteFrom from_).configs = _
    rw [Log.deleteFrom, if_neg something]
    simp [fixed.configs, first]
  · replace mem : entry ∈ (n.log.deleteFrom from_).entries := mem
    rw [Log.deleteFrom, if_neg something] at mem
    exact fixed.plain entry (List.mem_of_mem_take mem)
  · intro effect mem
    obtain rfl := List.mem_singleton.mp mem
    trivial

theorem acceptEntries_still (fixed : Fixed rc n) {index : ℕ} {entries : List LogEntry}
    (plain : ∀ entry ∈ entries, entry.appendEntry.Plain) :
    Meets (n.acceptEntries index entries) (Still rc n) (Calm trusted) := by
  induction entries generalizing index with
  | nil => exact Meets.ok (.refl fixed)
  | cons entry rest ih =>
      have onward : Meets (n.acceptEntries (index + 1) rest) (Still rc n) (Calm trusted) :=
        ih fun other mem => plain other (List.mem_cons_of_mem _ mem)
      unfold Node.acceptEntries
      refine Meets.bind (check_calm (by simp)) ?_
      rintro _ ⟨-, rfl⟩
      split
      · exact onward
      split
      · split
        · exact Meets.error fun _ => by simp
        · split
          · exact onward
          · refine Meets.bind (check_calm (by simp)) ?_
            rintro _ ⟨-, rfl⟩
            refine Meets.bind (deleteFrom_still fixed _) fun n₁ still => ?_
            exact (appendAll_still still.fixed plain).mono (fun _ => still.trans) fun _ => id
      · exact appendAll_still fixed plain

/-! ## Sends of a leader -/

theorem sendInstallSnapshot_still (fixed : Fixed rc n) (leader : n.state = .leader)
    (dest : Addr) : Meets (n.sendInstallSnapshot dest) (Still rc n) (Calm trusted) := by
  unfold Node.sendInstallSnapshot
  have opened : Still rc n (n.openReader dest) := by
    unfold Node.openReader
    dsimp only
    split <;> exact .of_seat fixed rfl rfl rfl rfl
  dsimp only
  split
  · exact Meets.error fun _ => by simp
  · refine Meets.ok (opened.trans ?_)
    have leads : (n.openReader dest).state = .leader :=
      (congrArg Seat.state opened.seat).trans leader
    exact .emit opened.fixed (.send (.installSnapshot _)) ⟨rfl, rfl, leads⟩ rfl rfl rfl rfl

theorem entriesAt_plain (fixed : Fixed rc n) (index : ℕ) :
    Meets (n.entriesAt index) (fun entries => ∀ entry ∈ entries, entry.appendEntry.Plain) (Calm trusted) := by
  unfold Node.entriesAt
  split
  · split
    · rename_i entry found
      refine Meets.ok fun other mem => ?_
      obtain rfl := List.mem_singleton.mp mem
      obtain ⟨appended, at_index, rfl⟩ := Option.map_eq_some_iff.mp found
      unfold Log.entryAt at at_index
      split at at_index
      · contradiction
      · exact fixed.plain appended (List.mem_of_getElem? at_index)
    · exact Meets.error fun _ => by simp
  · exact Meets.ok (by simp)

theorem sendAppendEntries_still (fixed : Fixed rc n) (leader : n.state = .leader) (dest : Addr) :
    Meets (n.sendAppendEntries dest) (Still rc n) (Calm trusted) := by
  unfold Node.sendAppendEntries
  dsimp only
  have touched : Still rc n { n with indexMgr := n.indexMgr.touch dest } :=
    .of_seat fixed rfl rfl rfl rfl
  refine Meets.bind (check_calm (by simp)) ?_
  rintro _ ⟨-, rfl⟩
  split
  · exact (sendInstallSnapshot_still touched.fixed leader dest).mono (fun _ => touched.trans)
      fun _ => id
  · have term : Meets (Node.preTermOf { n with indexMgr := n.indexMgr.touch dest }
        (Node.preIndexOf (IndexManager.getNext (n.indexMgr.touch dest) dest)))
        (fun _ => True) (Calm trusted) := by
      unfold Node.preTermOf
      split
      · split
        · exact Meets.ok trivial
        · exact Meets.error fun _ => by simp
      · split
        · exact Meets.ok trivial
        · split <;> exact Meets.ok trivial
    refine Meets.bind term fun preTerm _ => ?_
    split
    · exact (sendInstallSnapshot_still touched.fixed leader dest).mono (fun _ => touched.trans)
        fun _ => id
    · refine Meets.bind (entriesAt_plain touched.fixed _) fun entries plain => Meets.ok ?_
      exact touched.trans (.emit touched.fixed (.send (.appendEntries _)) ⟨rfl, rfl, leader, plain⟩
        rfl rfl rfl rfl)

theorem Still.leader (still : Still rc n n') (leader : n.state = .leader) : n'.state = .leader :=
  (congrArg Seat.state still.seat).trans leader

theorem sendAndBeat_still (fixed : Fixed rc n) (leader : n.state = .leader) (dest : Addr) :
    Meets (do
      let n ← n.sendAppendEntries dest
      Except.ok { n with timerMgr := n.timerMgr.againHeartBeatOf dest }) (Still rc n) (Calm trusted) := by
  refine Meets.bind (sendAppendEntries_still fixed leader dest) fun n₁ still => Meets.ok ?_
  exact still.trans (.of_seat still.fixed rfl rfl rfl rfl)

theorem replicate_still (fixed : Fixed rc n) (leader : n.state = .leader) (dests : List Addr) :
    Meets (n.replicate dests) (Still rc n) (Calm trusted) := by
  induction dests generalizing n with
  | nil => exact Meets.ok (.refl fixed)
  | cons dest rest ih =>
      refine Meets.bind (sendAppendEntries_still fixed leader dest) fun n₁ still => ?_
      have beaten : Still rc n₁ { n₁ with timerMgr := n₁.timerMgr.againHeartBeatOf dest } :=
        .of_seat still.fixed rfl rfl rfl rfl
      exact (ih beaten.fixed (beaten.leader (still.leader leader))).mono
        (fun _ => (still.trans beaten).trans) fun _ => id

theorem doPropose_still (fixed : Fixed rc n) (leader : n.state = .leader) (value : Bytes) :
    Meets (n.doPropose value .data) (Still rc n) (Calm trusted) := by
  unfold Node.doPropose
  refine Meets.bind (appendOne_still fixed (.inl rfl)) fun n₁ appended => ?_
  refine Meets.bind (maybeCommit_still appended.fixed) fun n₂ committed => ?_
  have still := appended.trans committed
  exact (replicate_still still.fixed (still.leader leader) _).mono (fun _ => still.trans)
    fun _ => id

/-! ## Changing role -/

/-- The node has stepped down into a term. -/
structure Down (rc : RaftConfig) (input : Input) (newTerm : ℕ) (n n' : Node) : Prop where
  turned : Turned rc input n n'
  follower : n'.state = .follower
  term : n'.solid.term = newTerm
  le : n.solid.term ≤ newTerm
  leader : n'.leader = if n.solid.term < newTerm then 0 else n.leader
  vote : n'.solid.vote = if n.solid.term < newTerm then 0 else n.solid.vote
  preVoting : n'.preVoting = n.preVoting

theorem stepDown_down (input : Input) (fixed : Fixed rc n) (newTerm : ℕ) :
    Meets (n.stepDown newTerm) (Down rc input newTerm n) (Calm trusted) := by
  unfold Node.stepDown
  refine Meets.bind (check_calm (by simp)) ?_
  rintro _ ⟨le, rfl⟩
  dsimp only
  split
  · rename_i later
    exact Meets.ok ⟨.single fixed (.adopt newTerm later) rfl rfl rfl
      (by simp [Node.setVote, Node.setTerm, Node.emit]), rfl, rfl, le, (if_pos later).symm,
      (if_pos later).symm, rfl⟩
  · rename_i same
    have term : n.solid.term = newTerm := by omega
    exact Meets.ok ⟨.single fixed .follow rfl rfl rfl (List.append_nil _).symm, rfl, term, le,
      (if_neg same).symm, (if_neg same).symm, rfl⟩

theorem maybeStepDown_turned (input : Input) (fixed : Fixed rc n) (newTerm : ℕ) :
    Meets (n.maybeStepDown newTerm) (Turned rc input n) (Calm trusted) := by
  unfold Node.maybeStepDown
  split
  · exact (stepDown_down input fixed newTerm).mono (fun _ down => down.turned) fun _ => id
  · exact Meets.ok (.refl fixed)

/-- A candidate with enough votes becomes leader. -/
theorem becomeLeader_turned (fixed : Fixed rc n) (candidate : n.state = .candidate)
    (majority : n.voteMgr.majority (n.solid.vote = n.me) = true) :
    Meets n.becomeLeader (Turned rc input n) (Calm trusted) := by
  unfold Node.becomeLeader
  refine Meets.bind (check_calm (by simp)) ?_
  rintro _ ⟨-, rfl⟩
  dsimp only
  have leads : Turned rc input n { n with
      leaderTransfer := false
      state := .leader
      leader := n.me
      lastHeartbeatTimestamp := int64Max
      timerMgr := n.timerMgr.stopElection.stopRequestVote.startHeartBeat
      indexMgr := (n.indexMgr.resetNext (n.lastIndex + 1)).resetMatch 0
      effects := n.effects ++ [.becomeLeader n.solid.term] } :=
    .single fixed (.lead candidate majority) rfl rfl rfl rfl
  exact (appendOne_still leads.fixed (.inr rfl)).mono (fun _ still => leads.trans still.turned)
    fun _ => id

/-- All peers make a majority. -/
theorem majority_of_quorumAll {votes : VoteManager} {myVote : Bool}
    (all : votes.quorumAll myVote = true) : votes.majority myVote = true := by
  rw [VoteManager.quorumAll, Bool.and_eq_true, List.all_eq_true] at all
  obtain ⟨mine, granted⟩ := all
  have count : votes.count (fun item => item.grant) = votes.keys.length :=
    List.countP_eq_length.mpr granted
  simp only [VoteManager.majority, VoteManager.reaches, mine, if_true, count, decide_eq_true_eq]
  omega

theorem doRequestVote_turned (fixed : Fixed rc n)
    (moved : input = .electionTimer ∨ ∃ msg now, input = .recv (.requestVoteReply msg) now) :
    Meets (Node.doRequestVote { n with preVoting := false }) (Turned rc input n) (Calm trusted) := by
  unfold Node.doRequestVote
  set standing := (Node.becomeCandidate (Node.incrTerm { n with preVoting := false })) with standing_eq
  have me : standing.me = n.me := rfl
  have own : (standing.setVote standing.me).ifSelfVote = true := decide_eq_true rfl
  have stood : Turned rc input n (standing.setVote standing.me).countSelf := by
    rw [Node.countSelf, if_pos own]
    refine .single fixed (.stand moved) rfl rfl rfl ?_
    simp [standing_eq, Node.setVote, Node.becomeCandidate, Node.incrTerm, Node.setTerm, Node.emit,
      Node.me, Node.seat]
  have candidate : (standing.setVote standing.me).countSelf.state = .candidate := by
    rw [Node.countSelf, if_pos own]
    rfl
  dsimp only
  split
  · rename_i all
    exact (becomeLeader_turned stood.fixed candidate (majority_of_quorumAll all)).mono
      (fun _ => stood.trans) fun _ => id
  · exact Meets.ok (stood.trans (Still.turned (.of_seat stood.fixed rfl rfl rfl rfl)))

theorem elect_turned (fixed : Fixed rc n) :
    Meets n.elect (Turned rc .electionTimer n) (Calm trusted) := by
  unfold Node.elect
  refine Meets.bind (check_calm (by simp)) ?_
  rintro _ ⟨-, rfl⟩
  split
  · exact Meets.ok (Still.turned (.of_seat fixed rfl rfl rfl rfl))
  split
  · exact Meets.ok (.single fixed (.poll rfl) rfl rfl rfl (List.append_nil _).symm)
  · exact doRequestVote_turned fixed (.inl rfl)

theorem sendRequestVote_still (fixed : Fixed rc n) {dest : Addr} (other : dest ≠ rc.me) :
    Still rc n (n.sendRequestVote dest) := by
  have away : dest ≠ n.configMgr.current.me := by
    rw [fixed.current]
    exact other
  unfold Node.sendRequestVote
  dsimp only
  split <;> exact .emit fixed (.send (.requestVote _)) ⟨rfl, away⟩ rfl rfl rfl rfl

/-! ## Votes -/

theorem maybeVote_turned (input : Input) (fixed : Fixed rc n) {msg : RequestVote} {ok : Bool}
    (other : msg.src ≠ rc.me) (nonnull : msg.src ≠ 0) :
    Meets (n.maybeVote msg ok) (Turned rc input n) (Calm trusted) := by
  unfold Node.maybeVote
  split
  · split
    · rename_i free
      refine Meets.bind (stepDown_down input fixed n.solid.term) fun n₁ down => ?_
      have vote : n₁.solid.vote = 0 := by
        rw [down.vote, if_neg (lt_irrefl _), free.2]
      have away : msg.src ≠ n₁.configMgr.current.me := by
        rw [down.turned.fixed.current]
        exact other
      dsimp only
      split
      · exact Meets.ok (down.turned.trans (Still.turned (.of_seat down.turned.fixed rfl rfl rfl rfl)))
      · exact Meets.ok (down.turned.trans
          (.single down.turned.fixed (.vote msg.src vote away nonnull) rfl rfl rfl rfl))
    · exact Meets.ok (.refl fixed)
  · exact Meets.ok (.refl fixed)

theorem onRequestVote_turned (fixed : Fixed rc n) {msg : RequestVote} (now : ℤ)
    (dest : msg.dest = rc.me) (other : msg.src ≠ rc.me) (nonnull : msg.src ≠ 0) :
    Meets (n.onRequestVote msg now) (Turned rc input n) (Calm trusted) := by
  have own {n' : Node} (fixed : Fixed rc n') :
      msg.dest = n'.seat.config.me ∧ msg.src ≠ n'.seat.config.me := by
    rw [show n'.seat.config = rc from fixed.current]
    exact ⟨dest, other⟩
  unfold Node.onRequestVote
  split
  · exact Meets.ok (.refl fixed)
  dsimp only
  split
  · refine Meets.bind (maybeStepDown_turned input fixed msg.term) fun n₁ turned => ?_
    refine Meets.bind (check_calm (by simp)) ?_
    rintro _ ⟨-, rfl⟩
    refine Meets.bind (maybeVote_turned input turned.fixed other nonnull) fun n₂ voted => Meets.ok ?_
    refine (turned.trans voted).trans (Still.turned ?_)
    refine .emit voted.fixed (.send (.requestVoteReply _)) ?_ rfl rfl rfl rfl
    refine ⟨(own voted.fixed).1, (own voted.fixed).2, fun granted => ?_⟩
    obtain ⟨term, vote⟩ := of_decide_eq_true granted
    exact ⟨term, vote.symm, nonnull⟩
  · exact Meets.ok (Still.turned (.emit fixed (.send (.requestVoteReply _))
      ⟨(own fixed).1, (own fixed).2, fun granted => absurd granted Bool.false_ne_true⟩
      rfl rfl rfl rfl))

theorem countSelf_still (fixed : Fixed rc n) : Still rc n n.countSelf := by
  unfold Node.countSelf
  split
  · rename_i own
    exact .emit fixed (.countSelf _ _) ⟨rfl, rfl, of_decide_eq_true own⟩ rfl rfl rfl rfl
  · exact .refl fixed

theorem onRealVote_turned (fixed : Fixed rc n) {msg : RequestVoteReply} {now : ℤ}
    (current : msg.term = n.solid.term ∧ msg.reqTerm = n.solid.term) (real : msg.preVote = false) :
    Meets (n.onRealVote msg) (Turned rc (.recv (.requestVoteReply msg) now) n) (Calm trusted) := by
  unfold Node.onRealVote
  dsimp only
  have done : Turned rc (.recv (.requestVoteReply msg) now) n { n with
      voteMgr := n.voteMgr.done msg.src
      timerMgr := n.timerMgr.stopRequestVoteOf msg.src } :=
    .single fixed (.mark msg now rfl current { n.voteMgr.val msg.src with done := true }
      .inl) rfl rfl rfl (List.append_nil _).symm
  split
  · rename_i granted
    have marked : Turned rc (.recv (.requestVoteReply msg) now) n { n with
        voteMgr := VoteManager.getVote (n.voteMgr.done msg.src) msg.src
        timerMgr := n.timerMgr.stopRequestVoteOf msg.src } :=
      done.trans (.single done.fixed (.mark msg now rfl current
        { (n.voteMgr.done msg.src).val msg.src with grant := true }
        fun _ => .inr ⟨granted, real⟩) rfl rfl rfl (List.append_nil _).symm)
    have counted := countSelf_still marked.fixed
    have turned := marked.trans counted.turned
    split
    · rename_i won
      exact (becomeLeader_turned counted.fixed won.2 won.1).mono (fun _ => turned.trans) fun _ => id
    · exact Meets.ok turned
  · exact Meets.ok done

theorem onPreVote_turned (fixed : Fixed rc n) {msg : RequestVoteReply} {now : ℤ}
    (current : msg.term = n.solid.term ∧ msg.reqTerm = n.solid.term) :
    Meets (n.onPreVote msg) (Turned rc (.recv (.requestVoteReply msg) now) n) (Calm trusted) := by
  unfold Node.onPreVote
  dsimp only
  set stopped := { n with timerMgr := n.timerMgr.stopRequestVoteOf msg.src } with stopped_eq
  set logged := if msg.logOk = true then
    { stopped with voteMgr := stopped.voteMgr.logOK msg.src } else stopped with logged_eq
  set noted := if msg.intervalOk = true then
    { logged with voteMgr := logged.voteMgr.intervalOK msg.src } else logged with noted_eq
  have same : Turned rc (.recv (.requestVoteReply msg) now) n stopped :=
    Still.turned (.of_seat fixed rfl rfl rfl rfl)
  have first : Turned rc (.recv (.requestVoteReply msg) now) n logged := by
    rw [logged_eq]
    split
    · exact same.trans (.single same.fixed (.mark msg now rfl current
        { n.voteMgr.val msg.src with logok := true } .inl) rfl rfl rfl (List.append_nil _).symm)
    · exact same
  have logged_term : logged.solid = n.solid := by
    rw [logged_eq]
    split <;> rfl
  have second : Turned rc (.recv (.requestVoteReply msg) now) n noted := by
    rw [noted_eq]
    split
    · refine first.trans (.single first.fixed (.mark msg now rfl ?_
        { logged.voteMgr.val msg.src with intervalOk := true } .inl) rfl rfl rfl
        (List.append_nil _).symm)
      show msg.term = logged.solid.term ∧ msg.reqTerm = logged.solid.term
      rwa [logged_term]
    · exact first
  split
  · exact (doRequestVote_turned second.fixed (.inr ⟨msg, now, rfl⟩)).mono
      (fun _ => second.trans) fun _ => id
  · exact Meets.ok second

theorem onRequestVoteReply_turned (fixed : Fixed rc n) (msg : RequestVoteReply) (now : ℤ) :
    Meets (n.onRequestVoteReply msg) (Turned rc (.recv (.requestVoteReply msg) now) n) (Calm trusted) := by
  unfold Node.onRequestVoteReply
  split
  · exact Meets.ok (.refl fixed)
  split
  · exact Meets.ok (.refl fixed)
  split
  · exact Meets.ok (.refl fixed)
  rename_i asked
  split
  · exact (stepDown_down _ fixed msg.term).mono (fun _ down => down.turned) fun _ => id
  refine Meets.bind (check_calm (by simp)) ?_
  rintro _ ⟨same, rfl⟩
  have current : msg.term = n.solid.term ∧ msg.reqTerm = n.solid.term := ⟨same, not_not.mp asked⟩
  split
  · exact onPreVote_turned fixed current
  · rename_i real
    exact onRealVote_turned fixed current (Bool.eq_false_iff.mpr real)

/-! ## Messages of a leader -/

/-- The leader of the term is unknown, or it is the sender. -/
def Node.Trusts (n : Node) (src : Addr) (term : ℕ) : Prop :=
  n.solid.term = term → n.leader ≠ 0 → n.leader = src

theorem hearLeader_turned (fixed : Fixed rc n) {src : Addr} {term : ℕ} (now : ℤ)
    (heard : input.Leads src term) (trusts : trusted → n.Trusts src term) :
    Meets (n.hearLeader src term now)
      (fun n' => Turned rc input n n' ∧ n'.state = .follower ∧ n'.solid.term = term) (Calm trusted) := by
  unfold Node.hearLeader
  refine Meets.bind (stepDown_down input fixed term) fun n₁ down => ?_
  dsimp only
  have noted : Turned rc input n { n₁ with
      timerMgr := n₁.timerMgr.stopRequestVote.againElection
      lastHeartbeatTimestamp := now } :=
    down.turned.trans (Still.turned (.of_seat down.turned.fixed rfl rfl rfl rfl))
  split
  · rename_i unknown
    have heard : input.Leads src n₁.solid.term := by rwa [down.term]
    exact Meets.ok ⟨noted.trans (.single noted.fixed (.hear src unknown heard) rfl rfl rfl
      (List.append_nil _).symm), down.follower, down.term⟩
  · rename_i known
    unfold Node.check
    split
    · exact Meets.ok ⟨noted, down.follower, down.term⟩
    · rename_i other
      refine Meets.error fun holds => absurd ?_ other
      have leader := down.leader
      have le := down.le
      split at leader
      · exact absurd leader known
      · show n₁.leader = src
        rw [leader] at known ⊢
        exact trusts holds (by omega) known

theorem preLogMismatch_calm (msg : AppendEntries) :
    Meets (n.preLogMismatch msg) (fun _ => True) (Calm trusted) := by
  unfold Node.preLogMismatch
  split
  · exact Meets.ok trivial
  · split
    · split
      · exact Meets.ok trivial
      · exact Meets.error fun _ => by simp
    · exact Meets.ok trivial

theorem onAppendEntries_turned (fixed : Fixed rc n) {msg : AppendEntries} {now : ℤ}
    (plain : ∀ entry ∈ msg.entries, entry.appendEntry.Plain)
    (trusts : trusted → n.Trusts msg.src msg.term) :
    Meets (n.onAppendEntries msg now) (Turned rc (.recv (.appendEntries msg) now) n) (Calm trusted) := by
  unfold Node.onAppendEntries
  split
  · exact Meets.ok (.refl fixed)
  dsimp only
  split
  · exact Meets.ok (Still.turned (.emit fixed (.send (.appendEntriesReply _)) trivial rfl rfl rfl rfl))
  have leads : Input.Leads (.recv (.appendEntries msg) now) msg.src msg.term := ⟨rfl, rfl⟩
  refine Meets.bind (hearLeader_turned fixed now leads trusts) ?_
  rintro n₁ ⟨heard, -, -⟩
  refine Meets.bind (preLogMismatch_calm msg) fun mismatch _ => ?_
  split
  · exact Meets.ok (heard.trans (Still.turned (.emit heard.fixed (.send (.appendEntriesReply _))
      trivial rfl rfl rfl rfl)))
  refine Meets.bind (acceptEntries_still heard.fixed plain) fun n₂ accepted => ?_
  refine Meets.bind (learnCommit_still accepted.fixed _) fun n₃ learned => Meets.ok ?_
  have still := accepted.trans learned
  exact heard.trans (Still.turned (still.trans
    (.emit still.fixed (.send (.appendEntriesReply _)) trivial rfl rfl rfl rfl)))

theorem openWriter_still (fixed : Fixed rc n) (msg : InstallSnapshot) :
    Still rc n (n.openWriter msg) :=
  .of_seat fixed rfl rfl rfl rfl

theorem finishSnapshot_still (fixed : Fixed rc n) (msg : InstallSnapshot)
    (writer : SnapshotWriter) : Still rc n (n.finishSnapshot msg writer) := by
  unfold Node.finishSnapshot
  dsimp only
  split
  · exact .of_seat fixed rfl rfl rfl rfl
  · exact .emit fixed (.swapStateMachine _ _ _) trivial rfl rfl rfl rfl

theorem snapshotReply_still (fixed : Fixed rc n) (msg : InstallSnapshot) (now : ℤ) (term : ℕ)
    (stored : ℤ) : Still rc n (n.snapshotReply msg now term stored) :=
  .emit fixed (.send (.installSnapshotReply _)) trivial rfl rfl rfl rfl

theorem onInstallSnapshot_turned (fixed : Fixed rc n) {msg : InstallSnapshot} {now : ℤ}
    (trusts : trusted → n.Trusts msg.src msg.term) :
    Meets (n.onInstallSnapshot msg now) (Turned rc (.recv (.installSnapshot msg) now) n) (Calm trusted) := by
  unfold Node.onInstallSnapshot
  split
  · exact Meets.ok (.refl fixed)
  split
  · exact Meets.ok (snapshotReply_still fixed msg now _ _).turned
  have leads : Input.Leads (.recv (.installSnapshot msg) now) msg.src msg.term := ⟨rfl, rfl⟩
  refine Meets.bind (hearLeader_turned fixed now leads trusts) ?_
  rintro n₁ ⟨heard, -, -⟩
  dsimp only
  have opened := openWriter_still heard.fixed msg
  split
  · exact Meets.error fun _ => by simp
  rename_i writer _
  split
  · exact Meets.ok (heard.trans
      (opened.trans (snapshotReply_still opened.fixed msg now _ _)).turned)
  refine Meets.bind (check_calm (by simp)) ?_
  rintro _ ⟨-, rfl⟩
  have written : Still rc n₁ { n₁.openWriter msg with
      snapshotMgr := (n₁.openWriter msg).snapshotMgr.setWriter msg.src (some (writer.write msg.data))
      timerMgr := (n₁.openWriter msg).timerMgr.stopRequestVote.againElection } :=
    opened.trans (.of_seat opened.fixed rfl rfl rfl rfl)
  split
  · have finished := written.trans (finishSnapshot_still written.fixed msg (writer.write msg.data))
    exact Meets.ok (heard.trans
      (finished.trans (snapshotReply_still finished.fixed msg now _ _)).turned)
  · exact Meets.ok (heard.trans
      (written.trans (snapshotReply_still written.fixed msg now _ _)).turned)

/-! ## Replies to a leader -/

theorem raiseMatch_still (fixed : Fixed rc n) (src : Addr) (acked : ℕ) :
    Meets (n.raiseMatch src acked) (Still rc n) (Calm trusted) := by
  unfold Node.raiseMatch
  dsimp only
  split
  · exact Meets.ok (.of_seat fixed rfl rfl rfl rfl)
  · have raised : Still rc n { n with
        indexMgr := IndexManager.setMatch (n.indexMgr.touch src) src acked } :=
      .of_seat fixed rfl rfl rfl rfl
    exact (maybeCommit_still raised.fixed).mono (fun _ => raised.trans) fun _ => id

theorem onIndexReply_still (fixed : Fixed rc n) (msg : AppendEntriesReply) :
    Meets (n.onIndexReply msg) (Still rc n) (Calm trusted) := by
  unfold Node.onIndexReply
  split
  · refine Meets.bind (raiseMatch_still fixed _ _) fun n₁ still => Meets.ok ?_
    exact still.trans (.of_seat still.fixed rfl rfl rfl rfl)
  · exact Meets.ok (.of_seat fixed rfl rfl rfl rfl)

theorem onAppendEntriesReply_turned (fixed : Fixed rc n) (msg : AppendEntriesReply) :
    Meets (n.onAppendEntriesReply msg) (Turned rc input n) (Calm trusted) := by
  unfold Node.onAppendEntriesReply
  split
  · exact Meets.ok (.refl fixed)
  split
  · exact Meets.ok (.refl fixed)
  split
  · exact Meets.ok (.refl fixed)
  refine Meets.bind (check_calm (by simp)) ?_
  rintro _ ⟨leader, rfl⟩
  split
  · exact (stepDown_down input fixed msg.term).mono (fun _ down => down.turned) fun _ => id
  refine Meets.bind (check_calm (by simp)) ?_
  rintro _ ⟨-, rfl⟩
  refine Meets.bind (onIndexReply_still fixed msg) fun n₁ still => ?_
  split
  · exact (sendAndBeat_still still.fixed (still.leader leader) msg.src).mono
      (fun _ sent => (still.trans sent).turned) fun _ => id
  · exact Meets.ok still.turned

theorem onSnapshotStored_still (fixed : Fixed rc n) (msg : InstallSnapshotReply)
    (reader : SnapshotReader) : Meets (n.onSnapshotStored msg reader) (Still rc n) (Calm trusted) := by
  unfold Node.onSnapshotStored
  split
  · dsimp only
    have raised : Still rc n { n with
        indexMgr := IndexManager.setNext (n.indexMgr.setMatch msg.src reader.lastIndex) msg.src
          (IndexManager.getMatch (n.indexMgr.setMatch msg.src reader.lastIndex) msg.src + 1) } :=
      .of_seat fixed rfl rfl rfl rfl
    refine Meets.bind (maybeCommit_still raised.fixed) fun n₁ committed => Meets.ok ?_
    exact (raised.trans committed).trans (.of_seat committed.fixed rfl rfl rfl rfl)
  · exact Meets.ok (.refl fixed)

theorem onInstallSnapshotReply_turned (fixed : Fixed rc n) (msg : InstallSnapshotReply) :
    Meets (n.onInstallSnapshotReply msg) (Turned rc input n) (Calm trusted) := by
  unfold Node.onInstallSnapshotReply
  split
  · exact Meets.ok (.refl fixed)
  dsimp only
  have touched : Still rc n { n with snapshotMgr := n.snapshotMgr.touch msg.src } :=
    .of_seat fixed rfl rfl rfl rfl
  split
  · exact Meets.error fun _ => by simp
  rename_i reader _
  split
  · exact Meets.ok touched.turned
  split
  · exact Meets.ok touched.turned
  refine Meets.bind (check_calm (by simp)) ?_
  rintro _ ⟨leader, rfl⟩
  split
  · exact (stepDown_down input touched.fixed msg.term).mono
      (fun _ down => touched.turned.trans down.turned) fun _ => id
  refine Meets.bind (check_calm (by simp)) ?_
  rintro _ ⟨-, rfl⟩
  refine Meets.bind (onSnapshotStored_still touched.fixed msg reader) fun n₁ stored => ?_
  have still := touched.trans stored
  unfold Node.sendNext
  dsimp only
  have looked : Still rc n₁ { n₁ with indexMgr := n₁.indexMgr.touch msg.src } :=
    .of_seat still.fixed rfl rfl rfl rfl
  split
  · exact (sendAndBeat_still looked.fixed (looked.leader (still.leader leader)) msg.src).mono
      (fun _ sent => ((still.trans looked).trans sent).turned) fun _ => id
  · exact Meets.ok (still.trans looked).turned

theorem onTimeoutNow_turned (fixed : Fixed rc n) (msg : TimeoutNow) :
    Meets (n.onTimeoutNow msg) (Turned rc input n) (Calm trusted) := by
  unfold Node.onTimeoutNow
  split
  · exact Meets.ok (.refl fixed)
  dsimp only
  have transfers : Still rc n { n with
      leaderTransfer := true, transferMaxTerm := n.solid.term + Node.maxTransferTerm } :=
    .of_seat fixed rfl rfl rfl rfl
  refine Meets.bind (maybeStepDown_turned input transfers.fixed msg.term) fun n₁ turned => ?_
  have turned := transfers.turned.trans turned
  refine Meets.bind (check_calm (by simp)) ?_
  rintro _ ⟨-, rfl⟩
  split
  · exact Meets.ok turned
  split
  · exact Meets.ok (turned.trans (Still.turned (.of_seat turned.fixed rfl rfl rfl rfl)))
  · exact Meets.ok turned

/-! ## All inputs -/

/-- The leaders that the input speaks of are trusted. -/
def Node.TrustsInput (n : Node) (input : Input) : Prop :=
  ∀ src term, input.Leads src term → n.Trusts src term

/-- A handler makes moves, and only the assert about the leader depends on who
the leader is. -/
theorem handle_turned (fixed : Fixed rc n) (sane : input.Sane rc.me) :
    Meets (n.handle input) (Turned rc input n) (Calm (n.TrustsInput input)) := by
  cases input with
  | electionTimer => exact elect_turned fixed
  | requestVoteTimer dest =>
      refine Meets.bind (check_calm (by simp)) ?_
      rintro _ ⟨-, rfl⟩
      exact Meets.ok (sendRequestVote_still fixed sane).turned
  | heartbeatTimer dest =>
      refine Meets.bind (check_calm (by simp)) ?_
      rintro _ ⟨leader, rfl⟩
      exact (sendAppendEntries_still fixed leader dest).mono (fun _ still => still.turned) fun _ => id
  | propose value =>
      show Meets (n.propose value) _ _
      unfold Node.propose
      split
      · exact Meets.ok (.refl fixed)
      · rename_i leads
        have leader : n.state = .leader := by
          by_contra other
          exact leads (.inl other)
        exact (doPropose_still fixed leader value).mono (fun _ still => still.turned) fun _ => id
  | leaderTransfer dest =>
      show Meets (n.leaderTransferTo dest) _ _
      unfold Node.leaderTransferTo
      split
      · exact Meets.ok (.refl fixed)
      · exact Meets.ok (Still.turned (.emit fixed (.send (.timeoutNow _)) trivial rfl rfl rfl rfl))
  | setFlags flags =>
      exact Meets.ok (.single fixed (.flags _ flags rfl rfl) rfl rfl rfl (List.append_nil _).symm)
  | recv msg now =>
      cases msg with
      | requestVote msg => exact onRequestVote_turned fixed now sane.1 sane.2.1 sane.2.2
      | requestVoteReply msg => exact onRequestVoteReply_turned fixed msg now
      | appendEntries msg => exact onAppendEntries_turned fixed sane fun trusts => trusts _ _ ⟨rfl, rfl⟩
      | appendEntriesReply msg => exact onAppendEntriesReply_turned fixed msg
      | timeoutNow msg => exact onTimeoutNow_turned fixed msg
      | installSnapshot msg => exact onInstallSnapshot_turned fixed fun trusts => trusts _ _ ⟨rfl, rfl⟩
      | installSnapshotReply msg => exact onInstallSnapshotReply_turned fixed msg

end Moves

end Vraft
