import Vraft.Raft.Reconfigure

/-!
# What an operation does to a node

Every operation of a running node is a sequence of a few kinds of actions: a
change of role together with its timers, an update of one of the managers, a
write to the log with the change of configuration it brings, an advance of the
commit index.  Invariants of a node are proved once for each kind of action.
-/

namespace Vraft

/-- The effect sends a piece of a snapshot. -/
def Effect.Streams : Effect → Prop
  | .send (.installSnapshot _) => True
  | _ => False

/-- Term, vote and leader, flags and the state machine may change, and anything
but pieces of a snapshot may be sent. -/
structure Aside (n n' : Node) : Prop where
  started : n'.started = n.started
  state : n'.state = n.state
  commit : n'.commit = n.commit
  log : n'.log = n.log
  configMgr : n'.configMgr = n.configMgr
  voteMgr : n'.voteMgr = n.voteMgr
  indexMgr : n'.indexMgr = n.indexMgr
  snapshotMgr : n'.snapshotMgr = n.snapshotMgr
  timerMgr : n'.timerMgr = n.timerMgr
  hooks : n'.hooks = n.hooks
  changingIndex : n'.changingIndex = n.changingIndex
  effects : ∃ more, n'.effects = n.effects ++ more ∧ ∀ effect ∈ more, ¬effect.Streams

/-- One action.  `heard` are the addresses that the operation was called with,
and `follows` says that entries may come from a leader. -/
inductive Act (heard : Addr → Prop) (follows : Prop) (n : Node) : Node → Prop
  | aside (n' : Node) (same : Aside n n') : Act heard follows n n'
  | vote (addr : Addr) (item : VoteItem) (known : heard addr) :
      Act heard follows n { n with voteMgr := n.voteMgr.set addr item }
  | clearVotes : Act heard follows n { n with voteMgr := n.voteMgr.clear }
  | index (addr : Addr) (item : IndexItem) (known : heard addr ∨ addr ∈ n.peers)
      (next_pos : 0 < item.next ∨ item.next = (n.indexMgr.val addr).next) :
      Act heard follows n { n with indexMgr := n.indexMgr.set addr item }
  | resetIndices (next : ℕ) (next_pos : 0 < next) :
      Act heard follows n { n with indexMgr := (n.indexMgr.resetNext next).resetMatch 0 }
  | touchSnapshot (addr : Addr) (known : heard addr) :
      Act heard follows n { n with snapshotMgr := n.snapshotMgr.touch addr }
  | writer (addr : Addr) (writer : Option SnapshotWriter) (known : heard addr) :
      Act heard follows n { n with snapshotMgr := n.snapshotMgr.setWriter addr writer }
  | closeReader (addr : Addr) (known : heard addr) :
      Act heard follows n { n with snapshotMgr := n.snapshotMgr.setReader addr none }
  | stream (dest : Addr) (known : heard dest ∨ dest ∈ n.peers) (n' : Node)
      (done : n.sendInstallSnapshot dest = .ok n') : Act heard follows n n'
  | stepDown :
      Act heard follows n { n with
        state := .follower
        timerMgr := n.timerMgr.stopHeartBeat.stopRequestVote.againElection }
  | campaign (stands : n.state = .follower ∨ n.state = .candidate) :
      Act heard follows n { n with
        state := .candidate
        timerMgr := n.timerMgr.startRequestVote.againElection }
  | lead :
      Act heard follows n { n with
        state := .leader
        timerMgr := n.timerMgr.stopElection.stopRequestVote.startHeartBeat }
  | rearm (follower : n.state = .follower) :
      Act heard follows n { n with timerMgr := n.timerMgr.stopRequestVote.againElection }
  | again (stands : n.state = .follower ∨ n.state = .candidate) :
      Act heard follows n { n with timerMgr := n.timerMgr.againElection }
  | start (follower : n.state = .follower) :
      Act heard follows n { n with timerMgr := n.timerMgr.startElection }
  | stopRequestVoteOf (addr : Addr) :
      Act heard follows n { n with timerMgr := n.timerMgr.stopRequestVoteOf addr }
  | beat (addr : Addr) (leads : n.state = .leader) :
      Act heard follows n { n with timerMgr := n.timerMgr.againHeartBeatOf addr }
  | commit (index : ℕ) (le : n.commit ≤ index) :
      Act heard follows n { n with commit := index }
  | settle (le : n.changingIndex ≤ n.commit) :
      Act heard follows n { n with changingIndex := 0, standby := false }
  | append (entry : AppendEntry) (n' : Node) (done : n.appendOne entry = .ok n')
      (quiet : entry.type = .config → ∀ addr, ¬heard addr)
      (free : entry.type = .config → follows ∨ n.changingIndex = 0) : Act heard follows n n'
  | truncate (from_ : ℕ) (n' : Node) (done : n.deleteFrom from_ = .ok n')
      (quiet : ∀ addr, ¬heard addr) (open_ : n.commit < from_) (comes : follows) :
      Act heard follows n n'

/-- Several of these actions in a row. -/
abbrev Acts (heard : Addr → Prop) (follows : Prop) : Node → Node → Prop :=
  Relation.ReflTransGen (Act heard follows)

/-- What every action keeps, actions keep. -/
theorem Acts.keep {heard : Addr → Prop} {follows : Prop} {P : Node → Prop} {n n' : Node}
    (step : ∀ n n', P n → Act heard follows n n' → P n') (holds : P n)
    (acts : Acts heard follows n n') : P n' := by
  induction acts with
  | refl => exact holds
  | tail _ act ih => exact step _ _ ih act

/-- The addresses that the node looks up in its managers because of an
operation: those of the sender of a message that is not stale. -/
def Op.Heard (n : Node) : Op → Addr → Prop
  | .input (.heartbeatTimer dest), addr => addr = dest
  | .input (.recv (.requestVoteReply msg) _), addr =>
      addr = msg.src ∧ n.started = true ∧ msg.term = n.solid.term ∧ msg.reqTerm = n.solid.term ∧
        (msg.preVote = true → msg.logOk = true ∨ msg.intervalOk = true)
  | .input (.recv (.appendEntriesReply msg) _), addr =>
      addr = msg.src ∧ n.started = true ∧ msg.term = n.solid.term ∧ msg.reqTerm = n.solid.term
  | .input (.recv (.installSnapshot msg) _), addr =>
      addr = msg.src ∧ n.started = true ∧ n.solid.term ≤ msg.term
  | .input (.recv (.installSnapshotReply msg) _), addr => addr = msg.src ∧ n.started = true
  | _, _ => False

/-- Entries come from a leader. -/
def Op.Follows : Op → Prop
  | .input (.recv (.appendEntries _) _) => True
  | _ => False

/-- `Stop` and `Start`. -/
def Op.Lifecycle : Op → Prop
  | .stop => True
  | .start _ => True
  | _ => False

section Does

variable {heard : Addr → Prop} {follows : Prop} {n₀ n : Node} {post : Node → Prop}

/-- If the code ends, it has performed actions and `post` holds. -/
def Does (heard : Addr → Prop) (follows : Prop) (n : Node) (out : Outcome)
    (post : Node → Prop) : Prop :=
  ∀ n', out = .ok n' → Acts heard follows n n' ∧ post n'

theorem Does.ok (acts : Acts heard follows n₀ n) (holds : post n) :
    Does heard follows n₀ (.ok n) post := by
  rintro n' ⟨⟩
  exact ⟨acts, holds⟩

theorem Does.error (failed : AssertSite × Node) : Does heard follows n₀ (.error failed) post := by
  rintro n' ⟨⟩

theorem Does.bind {out : Outcome} {next : Node → Outcome} {m : Node → Prop}
    (first : Does heard follows n₀ out m)
    (rest : ∀ n₁, m n₁ → Does heard follows n₁ (next n₁) post) :
    Does heard follows n₀ (out >>= next) post := by
  intro n' ended
  cases out with
  | error failed => contradiction
  | ok n₁ =>
      obtain ⟨acts, holds⟩ := first n₁ rfl
      obtain ⟨more, ends⟩ := rest n₁ holds n' ended
      exact ⟨acts.trans more, ends⟩

/-- Computing a value changes nothing. -/
theorem Does.compute {α : Type} {out : Except (AssertSite × Node) α} {next : α → Outcome}
    (rest : ∀ value, Does heard follows n₀ (next value) post) :
    Does heard follows n₀ (out >>= next) post := by
  intro n' ended
  cases out with
  | error failed => contradiction
  | ok value => exact rest value n' ended

theorem Does.check {site : AssertSite} {c : Prop} [Decidable c] {next : Node → Outcome}
    (rest : c → Does heard follows n₀ (next n) post) :
    Does heard follows n₀ (n.check site c >>= next) post := by
  unfold Node.check
  split
  · rename_i holds
    exact rest holds
  · rintro n' ⟨⟩

theorem Does.after (acts : Acts heard follows n₀ n) {out : Outcome}
    (does : Does heard follows n out post) : Does heard follows n₀ out post := by
  intro n' ended
  obtain ⟨more, holds⟩ := does n' ended
  exact ⟨acts.trans more, holds⟩

theorem Does.weaken {out : Outcome} {mid : Node → Prop} (does : Does heard follows n out mid)
    (weaker : ∀ n', mid n' → post n') : Does heard follows n out post := by
  intro n' ended
  obtain ⟨acts, holds⟩ := does n' ended
  exact ⟨acts, weaker n' holds⟩

/-- Role and configuration stay as they are. -/
structure Steady (n n' : Node) : Prop where
  state : n'.state = n.state
  configMgr : n'.configMgr = n.configMgr

theorem Steady.trans {n₁ n₂ : Node} (first : Steady n n₁) (second : Steady n₁ n₂) :
    Steady n n₂ :=
  ⟨second.state.trans first.state, second.configMgr.trans first.configMgr⟩

theorem Steady.peers {n' : Node} (steady : Steady n n') : n'.peers = n.peers := by
  rw [Node.peers, Node.peers, steady.configMgr]

/-- Everything that is kept by `Aside` is as before, and `more` has happened. -/
theorem Acts.aside {n' : Node} (more : List Effect) (same : n' = { n with
      lastApply := n'.lastApply, solid := n'.solid, leader := n'.leader, sm := n'.sm,
      enablePreVote := n'.enablePreVote, preVoting := n'.preVoting,
      leaderTransfer := n'.leaderTransfer, transferMaxTerm := n'.transferMaxTerm,
      intervalCheck := n'.intervalCheck, lastHeartbeatTimestamp := n'.lastHeartbeatTimestamp,
      standby := n'.standby, effects := n.effects ++ more })
    (plain : ∀ effect ∈ more, ¬effect.Streams) : Acts heard follows n n' := by
  refine .single (.aside n' ?_)
  rw [same]
  constructor
  case effects => exact ⟨more, rfl, plain⟩
  all_goals rfl

/-- Nothing has happened outside. -/
theorem Acts.silent {n' : Node} (same : n' = { n with
      lastApply := n'.lastApply, solid := n'.solid, leader := n'.leader, sm := n'.sm,
      enablePreVote := n'.enablePreVote, preVoting := n'.preVoting,
      leaderTransfer := n'.leaderTransfer, transferMaxTerm := n'.transferMaxTerm,
      intervalCheck := n'.intervalCheck, lastHeartbeatTimestamp := n'.lastHeartbeatTimestamp,
      standby := n'.standby }) : Acts heard follows n n' := by
  refine Acts.aside [] ?_ (by simp)
  rw [List.append_nil]
  exact same

/-- Actions that leave role and configuration alone, followed by such code. -/
theorem Does.steadily {n : Node} (acts : Acts heard follows n₀ n) (steady : Steady n₀ n)
    {out : Outcome} (does : Does heard follows n out (Steady n)) :
    Does heard follows n₀ out (Steady n₀) :=
  Does.after acts (does.weaken fun _ => steady.trans)

/-! ## Commitment -/

theorem applyOne_does {index : ℕ} (le : index ≤ n.commit) :
    Does heard follows n (n.applyOne index) fun n' => Steady n n' ∧ n'.commit = n.commit := by
  unfold Node.applyOne
  split
  · exact Does.error _
  · rename_i entry found
    split
    · split
      · exact Does.ok (Acts.aside [.apply entry] rfl (by simp [Effect.Streams])) ⟨⟨rfl, rfl⟩, rfl⟩
      · exact Does.ok .refl ⟨⟨rfl, rfl⟩, rfl⟩
    · split
      · rename_i changing
        have index_eq : entry.index = index := by
          obtain ⟨_, _, rfl⟩ := Option.map_eq_some_iff.mp found
          rfl
        exact Does.ok (.single (.settle (by omega))) ⟨⟨rfl, rfl⟩, rfl⟩
      · exact Does.ok .refl ⟨⟨rfl, rfl⟩, rfl⟩
    · exact Does.ok .refl ⟨⟨rfl, rfl⟩, rfl⟩
    · exact Does.error _

theorem applyFrom_does {index count : ℕ} (le : index + count ≤ n.commit + 1) :
    Does heard follows n (n.applyFrom index count) (Steady n) := by
  induction count generalizing n index with
  | zero => exact Does.ok .refl ⟨rfl, rfl⟩
  | succ count ih =>
      refine Does.bind (applyOne_does (by omega)) ?_
      rintro n₁ ⟨steady, commit_eq⟩
      exact (ih (by omega)).weaken fun _ => steady.trans

theorem stateMachineApply_does : Does heard follows n n.stateMachineApply (Steady n) := by
  unfold Node.stateMachineApply
  split
  · refine Does.bind (applyFrom_does (by omega)) fun n₁ steady => ?_
    exact Does.ok (Acts.silent rfl) ⟨steady.state, steady.configMgr⟩
  · exact Does.ok .refl ⟨rfl, rfl⟩

theorem maybeCommit_does : Does heard follows n n.maybeCommit (Steady n) := by
  unfold Node.maybeCommit
  refine Does.check fun _ => ?_
  dsimp only
  split
  · exact Does.ok .refl ⟨rfl, rfl⟩
  · refine Does.check fun _ => ?_
    split
    · exact Does.error _
    · split
      · exact Does.ok .refl ⟨rfl, rfl⟩
      · refine Does.check fun _ => ?_
        have later : n.commit ≤ n.indexMgr.majorityMax n.lastIndex := by omega
        exact Does.steadily (.single (.commit _ later)) ⟨rfl, rfl⟩ stateMachineApply_does

/-! ## Sends -/

/-- Sending a piece of a snapshot moves its reader. -/
theorem sendInstallSnapshot_same {dest : Addr} {n' : Node}
    (done : n.sendInstallSnapshot dest = .ok n') :
    n' = { n with snapshotMgr := n'.snapshotMgr, effects := n'.effects } := by
  have opened : n.openReader dest = { n with snapshotMgr := (n.openReader dest).snapshotMgr } := by
    unfold Node.openReader
    dsimp only
    split <;> rfl
  unfold Node.sendInstallSnapshot at done
  dsimp only at done
  split at done
  · contradiction
  · obtain rfl := Except.ok.inj done
    rw [opened]
    rfl

theorem sendInstallSnapshot_does {dest : Addr} (known : heard dest ∨ dest ∈ n.peers) :
    Does heard follows n (n.sendInstallSnapshot dest) (Steady n) := by
  intro n' done
  have same := sendInstallSnapshot_same done
  refine ⟨.single (.stream dest known n' done), ?_⟩
  rw [same]
  exact ⟨rfl, rfl⟩

theorem sendAppendEntries_does {dest : Addr} (known : heard dest ∨ dest ∈ n.peers) :
    Does heard follows n (n.sendAppendEntries dest) (Steady n) := by
  unfold Node.sendAppendEntries
  dsimp only
  have touched : Acts heard follows n { n with indexMgr := n.indexMgr.touch dest } :=
    .single (.index dest _ known (.inr rfl))
  have streamed : Does heard follows n
      (Node.sendInstallSnapshot { n with indexMgr := n.indexMgr.touch dest } dest) (Steady n) := by
    refine Does.steadily touched ⟨rfl, rfl⟩ (sendInstallSnapshot_does ?_)
    exact known
  refine Does.check fun _ => ?_
  split
  · exact streamed
  · refine Does.compute fun preTerm => ?_
    split
    · exact streamed
    · refine Does.compute fun entries => ?_
      exact Does.ok (touched.trans (Acts.aside [_] rfl (by simp [Effect.Streams]))) ⟨rfl, rfl⟩

/-- Send to a peer and push its heartbeat back. -/
theorem sendAndBeat_does {dest : Addr} (known : heard dest ∨ dest ∈ n.peers)
    (leads : n.state = .leader) :
    Does heard follows n (n.sendAppendEntries dest >>= fun n =>
      .ok { n with timerMgr := n.timerMgr.againHeartBeatOf dest }) (Steady n) := by
  refine Does.bind (sendAppendEntries_does known) fun n₁ steady => ?_
  exact Does.ok (.single (.beat dest (steady.state.trans leads))) ⟨steady.state, steady.configMgr⟩

theorem replicate_does {dests : List Addr} (known : ∀ dest ∈ dests, dest ∈ n.peers)
    (leads : n.state = .leader) : Does heard follows n (n.replicate dests) (Steady n) := by
  induction dests generalizing n with
  | nil => exact Does.ok .refl ⟨rfl, rfl⟩
  | cons dest rest ih =>
      rw [List.forall_mem_cons] at known
      refine Does.bind (sendAppendEntries_does (.inr known.1)) fun n₁ steady => ?_
      have leads₁ := steady.state.trans leads
      refine Does.after (.single (.beat dest leads₁)) ?_
      refine Does.weaken (ih ?_ ?_) fun n' more => steady.trans ⟨more.state, more.configMgr⟩
      · intro d mem
        show d ∈ n₁.peers
        rw [steady.peers]
        exact known.2 d mem
      · exact leads₁

/-! ## Log writes -/

theorem appendOne_state {entry : AppendEntry} {n' : Node} (done : n.appendOne entry = .ok n') :
    n'.state = n.state := by
  rcases appendOne_cases done with ⟨-, rfl⟩ | ⟨rc, n₁, config, -, -, changed, rfl⟩
  · rfl
  · have resized : n₁ = _ := doConfigChange_resized changed
    rw [resized]
    rfl

theorem appendOne_does {entry : AppendEntry} (quiet : entry.type = .config → ∀ addr, ¬heard addr)
    (free : entry.type = .config → follows ∨ n.changingIndex = 0) :
    Does heard follows n (n.appendOne entry) fun n' => n'.state = n.state :=
  fun n' done => ⟨.single (.append entry n' done quiet free), appendOne_state done⟩

theorem deleteFrom_state {from_ : ℕ} {n' : Node} (done : n.deleteFrom from_ = .ok n') :
    n'.state = n.state := by
  rcases deleteFrom_cases done with ⟨-, rfl⟩ | ⟨-, -, rfl⟩ | ⟨index, n₁, -, -, rolled, rfl⟩
  · rfl
  · rfl
  · obtain ⟨_, n₂, _, -, changed, rfl⟩ := configRollback_cases rolled
    have resized : n₂ = _ := doConfigChange_resized changed
    rw [resized]
    rfl

theorem deleteFrom_does {from_ : ℕ} (quiet : ∀ addr, ¬heard addr) (open_ : n.commit < from_)
    (comes : follows) : Does heard follows n (n.deleteFrom from_) fun n' => n'.state = n.state :=
  fun n' done => ⟨.single (.truncate from_ n' done quiet open_ comes), deleteFrom_state done⟩

/-! ## Roles -/

theorem stepDown_does (term : ℕ) :
    Does heard follows n (n.stepDown term) fun n' =>
      n'.state = .follower ∧ n'.configMgr = n.configMgr := by
  unfold Node.stepDown
  refine Does.check fun _ => ?_
  dsimp only
  split
  · refine Does.ok ?_ ⟨rfl, rfl⟩
    refine .head .stepDown (Acts.aside [.persistTerm term, .persistVote 0] ?_ ?_)
    · simp [Node.setVote, Node.setTerm, Node.emit]
    · simp [Effect.Streams]
  · refine Does.ok ?_ ⟨rfl, rfl⟩
    exact .head .stepDown (Acts.silent rfl)

theorem maybeStepDown_does (term : ℕ) :
    Does heard follows n (n.maybeStepDown term) fun n' => n'.configMgr = n.configMgr := by
  unfold Node.maybeStepDown
  split
  · exact (stepDown_does term).weaken fun _ post => post.2
  · exact Does.ok .refl rfl

/-- The node before it stands for election: its role and whether its election
timer is armed make no difference to what follows. -/
def Node.before (n : Node) (state : State) (armed due : Bool) : Node :=
  { n with state := state, timerMgr := { n.timerMgr with election := armed, due := due } }

theorem becomeLeader_does (state : State) (armed due : Bool) :
    Does heard follows (n.before state armed due) n.becomeLeader fun _ => True := by
  unfold Node.becomeLeader
  dsimp only
  refine Does.check fun _ => ?_
  refine Does.after ?_ ((appendOne_does (by intro; contradiction) (by intro; contradiction)).weaken
    fun _ _ => trivial)
  refine .head .lead (.head (.resetIndices (n.lastIndex + 1) (by omega)) ?_)
  exact Acts.aside [.becomeLeader n.solid.term] rfl (by simp [Effect.Streams])

theorem doRequestVote_does {state : State} (stands : state = .follower ∨ state = .candidate)
    (armed due : Bool) :
    Does heard follows (n.before state armed due) n.doRequestVote fun _ => True := by
  unfold Node.doRequestVote
  dsimp only
  set voted : Node := (n.incrTerm.becomeCandidate.setVote n.incrTerm.becomeCandidate.me).countSelf
    with voted_eq
  have acts : Acts heard follows (n.before state armed due) (voted.before state armed due) := by
    refine .head .clearVotes ?_
    by_cases self : (n.incrTerm.becomeCandidate.setVote n.incrTerm.becomeCandidate.me).ifSelfVote
    · refine Acts.aside [.persistTerm (n.solid.term + 1), .persistVote n.me,
        .countSelf (n.solid.term + 1) n.me] ?_ (by simp [Effect.Streams])
      rw [voted_eq, Node.countSelf, if_pos self]
      simp [Node.before, Node.incrTerm, Node.setTerm, Node.setVote, Node.becomeCandidate, Node.emit,
        Node.me]
    · refine Acts.aside [.persistTerm (n.solid.term + 1), .persistVote n.me] ?_
        (by simp [Effect.Streams])
      rw [voted_eq, Node.countSelf, if_neg self]
      simp [Node.before, Node.incrTerm, Node.setTerm, Node.setVote, Node.becomeCandidate, Node.emit,
        Node.me]
  have candidate : voted.state = .candidate := by
    rw [voted_eq, Node.countSelf]
    split <;> rfl
  split
  · exact Does.after acts (becomeLeader_does state armed due)
  · refine Does.ok (acts.trans (.trans (.single (.campaign stands)) (Acts.silent ?_))) trivial
    rw [← candidate]
    rfl

/-- The election timer fires. -/
theorem elect_does : Does heard follows n n.electionExpired.elect fun _ => True := by
  unfold Node.elect
  refine Does.check fun stands => ?_
  split
  · exact Does.ok (.single (.again stands)) trivial
  · split
    · refine Does.ok ?_ trivial
      exact .head .clearVotes (.head (.campaign stands) (Acts.silent rfl))
    · refine Does.after (n := Node.before { n.electionExpired with preVoting := false }
        n.state n.timerMgr.election n.timerMgr.due) (Acts.silent rfl) ?_
      exact doRequestVote_does stands n.timerMgr.election n.timerMgr.due

/-! ## Votes -/

theorem onRequestVote_does {msg : RequestVote} {now : ℤ} :
    Does heard follows n (n.onRequestVote msg now) fun _ => True := by
  unfold Node.onRequestVote
  split
  · exact Does.ok .refl trivial
  dsimp only
  split
  · refine Does.bind (maybeStepDown_does msg.term) fun n₁ _ => ?_
    refine Does.check fun _ => ?_
    refine Does.bind (m := fun _ => True) ?_ fun n₂ _ => ?_
    · unfold Node.maybeVote
      split
      · split
        · refine Does.bind (stepDown_does _) fun n₂ post => ?_
          refine Does.ok (.head (.rearm post.1) ?_) trivial
          split
          · exact .refl
          · exact Acts.aside [.persistVote msg.src] rfl (by simp [Effect.Streams])
        · exact Does.ok .refl trivial
      · exact Does.ok .refl trivial
    · exact Does.ok (Acts.aside [_] rfl (by simp [Effect.Streams])) trivial
  · exact Does.ok (Acts.aside [_] rfl (by simp [Effect.Streams])) trivial

theorem countSelf_acts : Acts heard follows n n.countSelf := by
  unfold Node.countSelf
  split
  · exact Acts.aside [_] rfl (by simp [Effect.Streams])
  · exact .refl

theorem onRealVote_does {msg : RequestVoteReply} (known : heard msg.src) :
    Does heard follows n (n.onRealVote msg) fun _ => True := by
  unfold Node.onRealVote
  dsimp only
  have stopped : Acts heard follows n { n with
      voteMgr := n.voteMgr.done msg.src
      timerMgr := n.timerMgr.stopRequestVoteOf msg.src } :=
    .head (.vote msg.src _ known) (.single (.stopRequestVoteOf msg.src))
  split
  · have granted : Acts heard follows n { n with
        voteMgr := (n.voteMgr.done msg.src).getVote msg.src
        timerMgr := n.timerMgr.stopRequestVoteOf msg.src } :=
      stopped.tail (.vote msg.src _ known)
    have counted := granted.trans countSelf_acts
    split
    · exact Does.after counted (becomeLeader_does _ _ _)
    · exact Does.ok counted trivial
  · exact Does.ok stopped trivial

theorem onPreVote_does {msg : RequestVoteReply}
    (known : msg.logOk = true ∨ msg.intervalOk = true → heard msg.src) :
    Does heard follows n (n.onPreVote msg) fun _ => True := by
  unfold Node.onPreVote
  dsimp only
  set stopped : Node := { n with timerMgr := n.timerMgr.stopRequestVoteOf msg.src }
  set logged : Node :=
    if msg.logOk then { stopped with voteMgr := stopped.voteMgr.logOK msg.src } else stopped
    with logged_eq
  have acts₁ : Acts heard follows n logged := by
    rw [logged_eq]
    split
    · rename_i ok
      exact .head (.stopRequestVoteOf msg.src) (.single (.vote msg.src _ (known (.inl ok))))
    · exact .single (.stopRequestVoteOf msg.src)
  set timed : Node :=
    if msg.intervalOk then { logged with voteMgr := logged.voteMgr.intervalOK msg.src } else logged
    with timed_eq
  have acts₂ : Acts heard follows n timed := by
    rw [timed_eq]
    split
    · rename_i ok
      exact acts₁.tail (.vote msg.src _ (known (.inr ok)))
    · exact acts₁
  split
  · rename_i enough
    have plain : Acts heard follows timed { timed with preVoting := false } := Acts.silent rfl
    refine Does.after (acts₂.trans plain) ?_
    exact doRequestVote_does (.inr enough.2.2.1) timed.timerMgr.election timed.timerMgr.due
  · exact Does.ok acts₂ trivial

/-- A sender is looked up once its reply is not stale. -/
theorem onRequestVoteReply_does {msg : RequestVoteReply} {now : ℤ}
    (known : ∀ addr, (Op.input (.recv (.requestVoteReply msg) now)).Heard n addr → heard addr) :
    Does heard follows n (n.onRequestVoteReply msg) fun _ => True := by
  unfold Node.onRequestVoteReply
  split
  · exact Does.ok .refl trivial
  split
  · exact Does.ok .refl trivial
  split
  · exact Does.ok .refl trivial
  split
  · exact (stepDown_does _).weaken fun _ _ => trivial
  rename_i running stale reqTerm _
  refine Does.check fun same => ?_
  simp only [Bool.not_eq_true', Bool.not_eq_false] at running
  rw [not_not] at reqTerm
  split
  · exact onPreVote_does fun ok => known _ ⟨rfl, running, same, reqTerm, fun _ => ok⟩
  · rename_i real
    exact onRealVote_does (known _ ⟨rfl, running, same, reqTerm, fun pre => absurd pre real⟩)

/-! ## Replication -/

theorem appendAll_does {entries : List LogEntry} (quiet : ∀ addr, ¬heard addr) (comes : follows) :
    Does heard follows n (n.appendAll entries) fun n' => n'.state = n.state := by
  induction entries generalizing n with
  | nil => exact Does.ok .refl rfl
  | cons entry rest ih =>
      refine Does.bind (appendOne_does (fun _ => quiet) fun _ => .inl comes) fun n₁ same => ?_
      exact ih.weaken fun _ => (Eq.trans · same)

theorem acceptEntries_does {index : ℕ} {entries : List LogEntry} (quiet : ∀ addr, ¬heard addr)
    (comes : follows) :
    Does heard follows n (n.acceptEntries index entries) fun n' => n'.state = n.state := by
  induction entries generalizing n index with
  | nil => exact Does.ok .refl rfl
  | cons entry rest ih =>
      rw [Node.acceptEntries]
      refine Does.check fun _ => ?_
      split
      · exact ih
      split
      · split
        · exact Does.error _
        · split
          · exact ih
          · refine Does.check fun open_ => ?_
            refine Does.bind (deleteFrom_does quiet open_ comes) fun n₁ same => ?_
            exact (appendAll_does quiet comes).weaken fun _ => (Eq.trans · same)
      · exact appendAll_does quiet comes

theorem hearLeader_does {src : Addr} {term : ℕ} {now : ℤ} :
    Does heard follows n (n.hearLeader src term now) fun n' =>
      n'.state = .follower ∧ n'.configMgr = n.configMgr := by
  unfold Node.hearLeader
  refine Does.bind (stepDown_does term) fun n₁ post => ?_
  have acts : Acts heard follows n₁ { n₁ with
      timerMgr := n₁.timerMgr.stopRequestVote.againElection
      lastHeartbeatTimestamp := now } :=
    .head (.rearm post.1) (Acts.silent rfl)
  dsimp only
  split
  · exact Does.ok (acts.trans (Acts.silent rfl)) post
  · intro n' done
    obtain ⟨-, rfl⟩ := of_check_ok done
    exact ⟨acts, post⟩

theorem learnCommit_does {commitIndex : ℕ} :
    Does heard follows n (n.learnCommit commitIndex) (Steady n) := by
  unfold Node.learnCommit
  split
  · rename_i later
    refine Does.check fun _ => ?_
    exact Does.steadily (.single (.commit commitIndex later.le)) ⟨rfl, rfl⟩ stateMachineApply_does
  · exact Does.ok .refl ⟨rfl, rfl⟩

theorem onAppendEntries_does {msg : AppendEntries} {now : ℤ} (quiet : ∀ addr, ¬heard addr)
    (comes : follows) : Does heard follows n (n.onAppendEntries msg now) fun _ => True := by
  unfold Node.onAppendEntries
  split
  · exact Does.ok .refl trivial
  dsimp only
  split
  · exact Does.ok (Acts.aside [_] rfl (by simp [Effect.Streams])) trivial
  refine Does.bind hearLeader_does fun n₁ post => ?_
  refine Does.compute fun mismatch => ?_
  split
  · exact Does.ok (Acts.aside [_] rfl (by simp [Effect.Streams])) trivial
  refine Does.bind (acceptEntries_does quiet comes) fun n₂ same => ?_
  refine Does.bind learnCommit_does fun n₃ steady => ?_
  have follower : n₃.state = .follower := steady.state.trans (same.trans post.1)
  exact Does.ok (.head (.rearm follower) (Acts.aside [_] rfl (by simp [Effect.Streams]))) trivial

theorem raiseMatch_does {src : Addr} {acked : ℕ} (known : heard src) :
    Does heard follows n (n.raiseMatch src acked) (Steady n) := by
  unfold Node.raiseMatch
  dsimp only
  have touched : Acts heard follows n { n with indexMgr := n.indexMgr.touch src } :=
    .single (.index src _ (.inl known) (.inr rfl))
  split
  · exact Does.ok touched ⟨rfl, rfl⟩
  · have raised : Acts heard follows n { n with
        indexMgr := IndexManager.setMatch (n.indexMgr.touch src) src acked } :=
      touched.tail (.index src _ (.inl known) (.inr rfl))
    exact Does.steadily raised ⟨rfl, rfl⟩ maybeCommit_does

theorem setNext_acts {indices : IndexManager} {src : Addr} {next : ℕ} (known : heard src)
    (next_pos : 0 < next) (acts : Acts heard follows n { n with indexMgr := indices }) :
    Acts heard follows n { n with indexMgr := indices.setNext src next } :=
  acts.tail (.index src _ (.inl known) (.inl next_pos))

theorem maybeSetNext_acts {indices : IndexManager} {src : Addr} {next : ℕ} {c : Prop}
    [Decidable c] (known : heard src) (next_pos : c → 0 < next)
    (acts : Acts heard follows n { n with indexMgr := indices }) :
    Acts heard follows n { n with indexMgr := if c then indices.setNext src next else indices } := by
  split
  · rename_i lower
    exact setNext_acts known (next_pos lower) acts
  · exact acts

theorem onMismatch_acts {msg : AppendEntriesReply} (known : heard msg.src) :
    Acts heard follows n (n.onMismatch msg) := by
  have touched : Acts heard follows n { n with indexMgr := n.indexMgr.touch msg.src } :=
    .single (.index msg.src _ (.inl known) (.inr rfl))
  refine maybeSetNext_acts known (by omega) (maybeSetNext_acts known (fun lower => ?_) touched)
  exact Nat.sub_pos_of_lt lower

theorem onIndexReply_does {msg : AppendEntriesReply} (known : heard msg.src) :
    Does heard follows n (n.onIndexReply msg) (Steady n) := by
  unfold Node.onIndexReply
  split
  · refine Does.bind (raiseMatch_does known) fun n₁ steady => ?_
    exact Does.ok (.single (.index msg.src _ (.inl known) (.inl (by simp))))
      ⟨steady.state, steady.configMgr⟩
  · exact Does.ok (onMismatch_acts known) ⟨rfl, rfl⟩

theorem onAppendEntriesReply_does {msg : AppendEntriesReply} {now : ℤ}
    (known : ∀ addr, (Op.input (.recv (.appendEntriesReply msg) now)).Heard n addr → heard addr) :
    Does heard follows n (n.onAppendEntriesReply msg) fun _ => True := by
  unfold Node.onAppendEntriesReply
  split
  · exact Does.ok .refl trivial
  split
  · exact Does.ok .refl trivial
  split
  · exact Does.ok .refl trivial
  rename_i running stale reqTerm
  simp only [Bool.not_eq_true', Bool.not_eq_false] at running
  rw [not_not] at reqTerm
  refine Does.check fun leads => ?_
  split
  · exact (stepDown_does _).weaken fun _ _ => trivial
  refine Does.check fun same => ?_
  have src := known msg.src ⟨rfl, running, same.1, reqTerm⟩
  refine Does.bind (onIndexReply_does src) fun n₁ steady => ?_
  split
  · exact (sendAndBeat_does (.inl src) (steady.state.trans leads)).weaken fun _ _ => trivial
  · exact Does.ok .refl trivial

/-! ## Snapshots -/

theorem finishSnapshot_acts {msg : InstallSnapshot} {writer : SnapshotWriter}
    (known : heard msg.src) : Acts heard follows n (n.finishSnapshot msg writer) := by
  unfold Node.finishSnapshot
  dsimp only
  refine .head (.writer msg.src none known) ?_
  split
  · exact .refl
  · exact Acts.aside [_] rfl (by simp [Effect.Streams])

theorem onInstallSnapshot_does {msg : InstallSnapshot} {now : ℤ}
    (known : ∀ addr, (Op.input (.recv (.installSnapshot msg) now)).Heard n addr → heard addr) :
    Does heard follows n (n.onInstallSnapshot msg now) fun _ => True := by
  unfold Node.onInstallSnapshot
  split
  · exact Does.ok .refl trivial
  split
  · exact Does.ok (Acts.aside [_] rfl (by simp [Effect.Streams])) trivial
  rename_i running current
  have src := known msg.src ⟨rfl, by simpa using running, not_lt.mp current⟩
  refine Does.bind hearLeader_does fun n₁ post => ?_
  dsimp only
  have opened : Acts heard follows n₁ (n₁.openWriter msg) :=
    .head (.touchSnapshot msg.src src) (.single (.writer msg.src _ src))
  split
  · exact Does.error _
  rename_i writer _
  split
  · exact Does.ok (opened.trans (Acts.aside [_] rfl (by simp [Effect.Streams]))) trivial
  refine Does.check fun _ => ?_
  have written : Acts heard follows n₁ { n₁.openWriter msg with
      snapshotMgr := (n₁.openWriter msg).snapshotMgr.setWriter msg.src (some (writer.write msg.data))
      timerMgr := (n₁.openWriter msg).timerMgr.stopRequestVote.againElection } :=
    (opened.tail (.writer msg.src _ src)).tail (.rearm post.1)
  split
  · exact Does.ok ((written.trans (finishSnapshot_acts src)).trans
      (Acts.aside [_] rfl (by simp [Effect.Streams]))) trivial
  · exact Does.ok (written.trans (Acts.aside [_] rfl (by simp [Effect.Streams]))) trivial

theorem onSnapshotStored_does {msg : InstallSnapshotReply} {reader : SnapshotReader}
    (known : heard msg.src) : Does heard follows n (n.onSnapshotStored msg reader) (Steady n) := by
  unfold Node.onSnapshotStored
  split
  · have matched : Acts heard follows n { n with
        indexMgr := n.indexMgr.setMatch msg.src reader.lastIndex } :=
      .single (.index msg.src _ (.inl known) (.inr rfl))
    refine Does.bind (Does.steadily (setNext_acts known (Nat.succ_pos _) matched) ⟨rfl, rfl⟩
      maybeCommit_does) fun n₁ steady => ?_
    exact Does.ok (.single (.closeReader msg.src known)) ⟨steady.state, steady.configMgr⟩
  · exact Does.ok .refl ⟨rfl, rfl⟩

theorem onInstallSnapshotReply_does {msg : InstallSnapshotReply} {now : ℤ}
    (known : ∀ addr, (Op.input (.recv (.installSnapshotReply msg) now)).Heard n addr → heard addr) :
    Does heard follows n (n.onInstallSnapshotReply msg) fun _ => True := by
  unfold Node.onInstallSnapshotReply
  split
  · exact Does.ok .refl trivial
  rename_i running
  have src := known msg.src ⟨rfl, by simpa using running⟩
  refine Does.after (.single (.touchSnapshot msg.src src)) ?_
  dsimp only
  split
  · exact Does.error _
  split
  · exact Does.ok .refl trivial
  split
  · exact Does.ok .refl trivial
  refine Does.check fun leads => ?_
  split
  · exact (stepDown_does _).weaken fun _ _ => trivial
  refine Does.check fun _ => ?_
  refine Does.bind (onSnapshotStored_does src) fun n₁ steady => ?_
  unfold Node.sendNext
  dsimp only
  refine Does.after (.single (.index msg.src _ (.inl src) (.inr rfl))) ?_
  split
  · refine Does.weaken (sendAndBeat_does (.inl src) ?_) fun _ _ => trivial
    exact steady.state.trans leads
  · exact Does.ok .refl trivial

/-! ## The rest -/

theorem onTimeoutNow_does {msg : TimeoutNow} :
    Does heard follows n (n.onTimeoutNow msg) fun _ => True := by
  unfold Node.onTimeoutNow
  split
  · exact Does.ok .refl trivial
  refine Does.after (Acts.silent rfl) (Does.bind (maybeStepDown_does msg.term) fun n₁ _ => ?_)
  refine Does.check fun _ => ?_
  split
  · exact Does.ok .refl trivial
  · split
    · rename_i follower
      exact Does.ok (.single (.start follower)) trivial
    · exact Does.ok .refl trivial

theorem doPropose_does {value : Bytes} {type : EntryType}
    (quiet : type = .config → ∀ addr, ¬heard addr)
    (free : type = .config → follows ∨ n.changingIndex = 0) (leads : n.state = .leader) :
    Does heard follows n (n.doPropose value type) fun _ => True := by
  unfold Node.doPropose
  refine Does.bind (appendOne_does quiet free) fun n₁ same => ?_
  refine Does.bind maybeCommit_does fun n₂ steady => ?_
  refine (replicate_does (fun _ mem => mem) ?_).weaken fun _ _ => trivial
  exact steady.state.trans (same.trans leads)

theorem proposeConfig_does {rc : RaftConfig} (quiet : ∀ addr, ¬heard addr)
    (free : n.changingIndex = 0) :
    Does heard follows n (n.proposeConfig rc) fun _ => True := by
  unfold Node.proposeConfig
  split
  · exact Does.ok .refl trivial
  · rename_i accepted
    push Not at accepted
    exact doPropose_does (fun _ => quiet) (fun _ => .inr free) accepted.1

end Does

/-- Whatever an operation does, it does through actions. -/
theorem perform_acts {n n' : Node} {op : Op} (running : ¬op.Lifecycle)
    (done : n.perform op = .ok n') : Acts (op.Heard n) op.Follows n n' := by
  suffices does : Does (op.Heard n) op.Follows n (n.perform op) fun _ => True from (does n' done).1
  cases op with
  | stop => exact absurd trivial running
  | start sm => exact absurd trivial running
  | addServer addr =>
      show Does _ _ n (n.addServer addr) _
      unfold Node.addServer
      split
      · exact Does.ok .refl trivial
      split
      · exact Does.ok .refl trivial
      · exact proposeConfig_does (fun _ heard => heard) (by omega)
  | removeServer addr =>
      show Does _ _ n (n.removeServer addr) _
      unfold Node.removeServer
      split
      · exact Does.ok .refl trivial
      split
      · exact Does.ok .refl trivial
      split
      · exact Does.ok .refl trivial
      · exact proposeConfig_does (fun _ heard => heard) (by omega)
  | input input =>
      cases input with
      | electionTimer => exact elect_does
      | requestVoteTimer dest =>
          refine Does.check fun _ => ?_
          unfold Node.sendRequestVote
          dsimp only
          split
          · exact Does.ok (Acts.aside [_] rfl (by simp [Effect.Streams])) trivial
          · exact Does.ok (Acts.aside [_] rfl (by simp [Effect.Streams])) trivial
      | heartbeatTimer dest =>
          refine Does.check fun _ => ?_
          have known : (Op.input (.heartbeatTimer dest)).Heard n dest := rfl
          exact (sendAppendEntries_does (.inl known)).weaken fun _ _ => trivial
      | propose value =>
          show Does _ _ n (n.propose value) _
          unfold Node.propose
          split
          · exact Does.ok .refl trivial
          · rename_i accepted
            push Not at accepted
            exact doPropose_does (by intro; contradiction) (by intro; contradiction) accepted.1
      | leaderTransfer dest =>
          show Does _ _ n (n.leaderTransferTo dest) _
          unfold Node.leaderTransferTo
          split
          · exact Does.ok .refl trivial
          · exact Does.ok (Acts.aside [_] rfl (by simp [Effect.Streams])) trivial
      | setFlags flags => exact Does.ok (Acts.silent rfl) trivial
      | recv msg now =>
          cases msg with
          | requestVote msg => exact onRequestVote_does
          | requestVoteReply msg => exact onRequestVoteReply_does fun _ heard => heard
          | appendEntries msg => exact onAppendEntries_does (fun _ heard => heard) trivial
          | appendEntriesReply msg => exact onAppendEntriesReply_does fun _ heard => heard
          | timeoutNow msg => exact onTimeoutNow_does
          | installSnapshot msg => exact onInstallSnapshot_does fun _ heard => heard
          | installSnapshotReply msg => exact onInstallSnapshotReply_does fun _ heard => heard

end Vraft
