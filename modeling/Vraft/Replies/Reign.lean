import Vraft.Replies.Sent

/-!
# How long a leader leads

A leader has given itself its vote and knows of itself.  It leads until it hears
of a later term or restarts, whatever is delivered to it.  What has been sent says
as much about those it came from: a vote in a real election goes to a node that has
voted for itself, and entries are acknowledged to a node that led in the term of
the reply.
-/

namespace Vraft

/-! ## Seats -/

namespace Seat

/-- The node leads, and knows it. -/
structure Crowned (s : Seat) : Prop where
  state : s.state = .leader
  leader : s.leader = s.config.me
  vote : s.vote = s.config.me

/-- Who leads or stands has its own vote. -/
structure Own (s : Seat) : Prop where
  leads : s.state = .leader → s.Crowned
  stands : s.state = .candidate → s.preVoting = false → s.vote = s.config.me

end Seat

/-- Who is given a vote has given it to itself. -/
def SelfGiven (m : Membership) (hist : Addr → List Effect) : Prop :=
  ∀ q ∈ m.members, ∀ term candidate, Gave hist q term candidate →
    Gave hist candidate term candidate

section Seats

variable {m : Membership} {hist : Addr → List Effect} {p : Addr} {s s' : Seat}
variable {effects : List Effect} {input : Input} {rc : RaftConfig} {n n' : Node}

theorem Turn.term_le (turn : Turn input s effects s') : s.term ≤ s'.term := by
  cases turn with
  | adopt term later => exact later.le
  | stand moved => exact Nat.le_succ _
  | _ => exact le_rfl

theorem Turns.term_le (turns : Turns input s effects s') : s.term ≤ s'.term := by
  induction turns with
  | nil => exact le_rfl
  | snoc before turn ih => exact ih.trans turn.term_le

theorem Turned.term_le (turned : Turned rc input n n') : n.solid.term ≤ n'.solid.term := by
  obtain ⟨effects, -, turns⟩ := turned.turns
  exact turns.term_le

/-- Leadership comes with its effect. -/
theorem Turns.led (turns : Turns input s effects s') (leader : s'.state = .leader) :
    s.state = .leader ∧ s'.term = s.term ∨ Effect.becomeLeader s'.term ∈ effects := by
  induction turns with
  | nil => exact .inl ⟨leader, rfl⟩
  | @snoc s₁ s₂ done more before turn ih =>
      have kept (state : s₁.state = .leader) (term : s₂.term = s₁.term) :
          s.state = .leader ∧ s₂.term = s.term ∨ Effect.becomeLeader s₂.term ∈ done ++ more := by
        rw [term]
        exact (ih state).imp id (List.mem_append_left _)
      cases turn with
      | quiet => exact kept leader rfl
      | flags => exact kept leader rfl
      | adopt => contradiction
      | follow => contradiction
      | hear => exact kept leader rfl
      | vote => exact kept leader rfl
      | mark => exact kept leader rfl
      | poll => contradiction
      | stand => contradiction
      | lead => exact .inr (by simp)

/-- A candidate that wins has voted for itself. -/
theorem Seated.own_vote (mem : p ∈ m.members) (seated : Seated m (extend hist p effects) p s)
    (backed : SelfGiven m hist) (candidate : s.state = .candidate)
    (majority : s.voteMgr.majority (s.vote = s.config.me) = true) : s.vote = s.config.me := by
  have me : s.config.me = p := by
    rw [seated.config]
    rfl
  obtain ⟨voters, inside, enough, given⟩ := seated.voters mem candidate majority
  have positive : 0 < m.size := List.length_pos_of_mem mem
  obtain ⟨q, memQ⟩ : voters.Nonempty := Finset.card_pos.mp (by omega)
  have gave : Gave (extend hist p effects) p s.term p := by
    by_cases same : q = p
    · rw [← same]
      have := given q memQ
      rwa [← same] at this
    · obtain ⟨effect, memE, grants⟩ := given q memQ
      rw [extend_of_ne same] at memE
      exact (backed q (List.mem_toFinset.mp (inside memQ)) s.term p ⟨effect, memE, grants⟩).extend
  rw [me]
  exact ((seated.past s.term p gave).2.2 rfl).symm

theorem Seat.Own.turn (mem : p ∈ m.members) (own : s.Own)
    (seated : Seated m (extend hist p effects) p s) (backed : SelfGiven m hist) {more : List Effect}
    (turn : Turn input s more s') : s'.Own := by
  have nonnull : s.config.me ≠ 0 := by
    rw [seated.config]
    exact Membership.ne_zero_of_mem mem
  cases turn with
  | quiet => exact own
  | flags enable flags set enables =>
      exact ⟨fun leader => ⟨leader, (own.leads leader).leader, (own.leads leader).vote⟩, own.stands⟩
  | adopt => exact ⟨nofun, nofun⟩
  | follow => exact ⟨nofun, nofun⟩
  | hear src unknown heard =>
      refine ⟨fun leader => ?_, own.stands⟩
      exact absurd ((own.leads leader).leader.symm.trans unknown) nonnull
  | vote candidate free other _ =>
      refine ⟨fun leader => ?_, fun stands real => ?_⟩
      · exact absurd ((own.leads leader).vote.symm.trans free) nonnull
      · exact absurd ((own.stands stands real).symm.trans free) nonnull
  | mark msg now came current item given =>
      exact ⟨fun leader => ⟨leader, (own.leads leader).leader, (own.leads leader).vote⟩, own.stands⟩
  | poll => exact ⟨nofun, fun _ real => absurd real (by simp)⟩
  | stand => exact ⟨nofun, fun _ _ => rfl⟩
  | lead candidate majority =>
      have vote := seated.own_vote mem backed candidate majority
      exact ⟨fun _ => ⟨rfl, rfl, vote⟩, nofun⟩

theorem Seat.Own.turns (mem : p ∈ m.members) (own : s.Own) (seated : Seated m hist p s)
    (backed : SelfGiven m hist) (arrives : Arrives m hist p input) (turns : Turns input s effects s') :
    s'.Own := by
  induction turns with
  | nil => exact own
  | snoc before turn ih => exact ih.turn mem (seated.turns mem arrives before) backed turn

end Seats

/-! ## A leader handles an input -/

section Leads

variable {rc : RaftConfig} {input : Input} {n n₁ n' : Node}

/-- The messages of leaders come from others. -/
def Input.Foreign (me : Addr) : Input → Prop
  | .recv (.appendEntries msg) _ => msg.src ≠ me
  | .recv (.installSnapshot msg) _ => msg.src ≠ me
  | _ => True

/-- The node still leads, or it is in a later term. -/
def LeadsOn (n n' : Node) : Prop :=
  n'.state = .leader ∨ n.solid.term < n'.solid.term

theorem Still.leadsOn (still : Still rc n n') (leader : n.state = .leader) : LeadsOn n n' :=
  .inl (still.leader leader)

theorem countSelf_state (n : Node) : n.countSelf.state = n.state := by
  unfold Node.countSelf
  split
  · rfl
  · rfl

theorem maybeStepDown_leadsOn (fixed : Fixed rc n) (newTerm : ℕ) :
    Meets (n.maybeStepDown newTerm)
      (fun n' => Fixed rc n' ∧ (n' = n ∨ n.solid.term < n'.solid.term)) Fails := by
  unfold Node.maybeStepDown
  split
  · rename_i later
    have down := @stepDown_down rc n True .electionTimer fixed newTerm
    refine down.mono (fun n' down => ?_) fun _ _ => trivial
    refine ⟨down.turned.fixed, .inr ?_⟩
    rwa [down.term]
  · exact Meets.ok ⟨fixed, .inl rfl⟩

/-- The sender of a leader's message is believed if it is the one known of, or its
term is later. -/
theorem hearLeader_later (fixed : Fixed rc n) {src : Addr} {term : ℕ} (now : ℤ)
    (known : n.leader ≠ 0) (other : n.leader ≠ src) :
    Meets (n.hearLeader src term now) (fun n' => Fixed rc n' ∧ n.solid.term < n'.solid.term)
      Fails := by
  unfold Node.hearLeader
  have down := @stepDown_down rc n True .electionTimer fixed term
  refine Meets.bind (down.mono (fun _ => id) fun _ _ => trivial) fun n₁ down => ?_
  have leader := down.leader
  dsimp only
  by_cases later : n.solid.term < term
  · have after : Fixed rc n₁ ∧ n.solid.term < n₁.solid.term :=
      ⟨down.turned.fixed, by rwa [down.term]⟩
    split
    · exact Meets.ok ⟨after.1.congr rfl rfl, after.2⟩
    · refine check_conveys.mono ?_ fun _ => id
      rintro _ ⟨-, rfl⟩
      exact ⟨after.1.congr rfl rfl, after.2⟩
  · rw [if_neg later] at leader
    split
    · rename_i unknown
      exact absurd (leader.symm.trans unknown) known
    · unfold Node.check
      split
      · rename_i same
        exact absurd (leader.symm.trans same) other
      · exact Meets.error trivial

variable (fixed : Fixed rc n) (crowned : n.seat.Crowned)

include fixed crowned

theorem onRequestVote_leadsOn {msg : RequestVote} (now : ℤ)
    (other : msg.src ≠ rc.me) (nonnull : msg.src ≠ 0) (me : rc.me ≠ 0) :
    Meets (n.onRequestVote msg now) (LeadsOn n) Fails := by
  unfold Node.onRequestVote
  split
  · exact Meets.ok (.inl crowned.state)
  dsimp only
  split
  · refine Meets.bind (maybeStepDown_leadsOn fixed msg.term) ?_
    rintro n₁ ⟨fixed₁, down⟩
    refine Meets.bind check_conveys ?_
    rintro _ ⟨-, rfl⟩
    rcases down with rfl | later
    · have taken : n₁.solid.vote ≠ 0 := by
        rw [show n₁.solid.vote = rc.me from crowned.vote.trans (congrArg _ fixed.current)]
        exact me
      unfold Node.maybeVote
      split
      · rw [if_neg fun free => taken free.2]
        exact Meets.ok (.inl crowned.state)
      · exact Meets.ok (.inl crowned.state)
    · have voted := @maybeVote_turned rc n₁ True .electionTimer fixed₁ msg (n.logOk msg) other nonnull
      refine Meets.bind (voted.mono (fun _ => id) fun _ _ => trivial) fun n₂ voted => Meets.ok ?_
      exact .inr (later.trans_le voted.term_le)
  · exact Meets.ok (.inl crowned.state)

theorem onRequestVoteReply_leadsOn (msg : RequestVoteReply) :
    Meets (n.onRequestVoteReply msg) (LeadsOn n) Fails := by
  have leader : n.state = .leader := crowned.state
  unfold Node.onRequestVoteReply
  split
  · exact Meets.ok (.inl leader)
  split
  · exact Meets.ok (.inl leader)
  split
  · exact Meets.ok (.inl leader)
  split
  · rename_i later
    have down := @stepDown_down rc n True .electionTimer fixed msg.term
    refine down.mono (fun n' down => .inr ?_) fun _ _ => trivial
    rwa [down.term]
  refine Meets.bind check_conveys ?_
  rintro _ ⟨-, rfl⟩
  split
  · rw [onPreVote_eq, if_neg fun standing => by simp [leader] at standing]
    exact Meets.ok (.inl leader)
  · unfold Node.onRealVote
    dsimp only
    split
    · split
      · rename_i standing
        have candidate := standing.2
        rw [countSelf_state] at candidate
        exact absurd (leader.symm.trans candidate) (by simp)
      · exact Meets.ok (.inl ((countSelf_state _).trans leader))
    · exact Meets.ok (.inl leader)

theorem onAppendEntries_leadsOn {msg : AppendEntries} (now : ℤ)
    (plain : ∀ entry ∈ msg.entries, entry.appendEntry.Plain) (other : msg.src ≠ rc.me)
    (me : rc.me ≠ 0) : Meets (n.onAppendEntries msg now) (LeadsOn n) Fails := by
  have known : n.leader = rc.me := crowned.leader.trans (congrArg _ fixed.current)
  unfold Node.onAppendEntries
  split
  · exact Meets.ok (.inl crowned.state)
  dsimp only
  split
  · exact Meets.ok (.inl crowned.state)
  refine Meets.bind (hearLeader_later fixed now (by rwa [known]) (by rw [known]; exact other.symm)) ?_
  rintro n₁ ⟨fixed₁, later⟩
  refine Meets.bind (Meets.intro_ (fun _ _ => trivial) fun _ _ => trivial) fun mismatch _ => ?_
  split
  · exact Meets.ok (.inr later)
  have accepted := @acceptEntries_still rc n₁ True fixed₁ msg.preLogIndex msg.entries plain
  refine Meets.bind (accepted.mono (fun _ => id) fun _ _ => trivial) fun n₂ accepted => ?_
  have learned := @learnCommit_still rc n₂ True accepted.fixed msg.commitIndex
  refine Meets.bind (learned.mono (fun _ => id) fun _ _ => trivial) fun n₃ learned => Meets.ok ?_
  have term : n₃.solid.term = n₁.solid.term :=
    congrArg Seat.term (learned.seat.trans accepted.seat)
  refine .inr ?_
  show n.solid.term < n₃.solid.term
  rwa [term]

theorem onInstallSnapshot_leadsOn {msg : InstallSnapshot} (now : ℤ) (other : msg.src ≠ rc.me)
    (me : rc.me ≠ 0) : Meets (n.onInstallSnapshot msg now) (LeadsOn n) Fails := by
  have known : n.leader = rc.me := crowned.leader.trans (congrArg _ fixed.current)
  have heard := @hearLeader_later rc n fixed msg.src msg.term now (by rwa [known])
    (by rw [known]; exact other.symm)
  refine Meets.intro_ (fun n' done => ?_) fun _ _ => trivial
  cases Node.onInstallSnapshot_installs done with
  | off stopped => exact .inl crowned.state
  | stale late => exact .inl crowned.state
  | again n₁ hears writer found held => exact .inr (heard.of_ok hears).2
  | next n₁ hears writer found beyond =>
      refine .inr ((heard.of_ok hears).2.trans_le (le_of_eq ?_))
      show n₁.solid.term = (n₁.receive msg writer).solid.term
      by_cases swaps : n₁.Swaps msg
      · rw [Node.receive_of_swaps swaps writer]
      · rw [Node.receive_of_not_swaps swaps writer]

theorem onAppendEntriesReply_leadsOn (msg : AppendEntriesReply) :
    Meets (n.onAppendEntriesReply msg) (LeadsOn n) Fails := by
  have leader : n.state = .leader := crowned.state
  unfold Node.onAppendEntriesReply
  split
  · exact Meets.ok (.inl leader)
  split
  · exact Meets.ok (.inl leader)
  split
  · exact Meets.ok (.inl leader)
  refine Meets.bind check_conveys ?_
  rintro _ ⟨-, rfl⟩
  split
  · rename_i later
    have down := @stepDown_down rc n True .electionTimer fixed msg.term
    refine down.mono (fun n' down => .inr ?_) fun _ _ => trivial
    rwa [down.term]
  refine Meets.bind check_conveys ?_
  rintro _ ⟨-, rfl⟩
  have indexed := @onIndexReply_still rc n True fixed msg
  refine Meets.bind (indexed.mono (fun _ => id) fun _ _ => trivial) fun n₁ still => ?_
  split
  · have sent := @sendAndBeat_still rc n₁ True still.fixed (still.leader leader) msg.src
    exact sent.mono (fun _ sent => .inl (sent.leader (still.leader leader))) fun _ _ => trivial
  · exact Meets.ok (.inl (still.leader leader))

theorem onInstallSnapshotReply_leadsOn (msg : InstallSnapshotReply) :
    Meets (n.onInstallSnapshotReply msg) (LeadsOn n) Fails := by
  have leader : n.state = .leader := crowned.state
  unfold Node.onInstallSnapshotReply
  split
  · exact Meets.ok (.inl leader)
  dsimp only
  have touched : Still rc n { n with snapshotMgr := n.snapshotMgr.touch msg.src } :=
    .of_seat fixed rfl rfl rfl rfl
  split
  · exact Meets.error trivial
  rename_i reader _
  split
  · exact Meets.ok (.inl leader)
  split
  · exact Meets.ok (.inl leader)
  refine Meets.bind check_conveys ?_
  rintro _ ⟨-, rfl⟩
  split
  · rename_i later
    have down := @stepDown_down rc _ True .electionTimer touched.fixed msg.term
    refine down.mono (fun n' down => .inr ?_) fun _ _ => trivial
    rwa [down.term]
  refine Meets.bind check_conveys ?_
  rintro _ ⟨-, rfl⟩
  have stored := @onSnapshotStored_still rc _ True touched.fixed msg reader
  refine Meets.bind (stored.mono (fun _ => id) fun _ _ => trivial) fun n₁ stored => ?_
  have leader₁ := stored.leader (touched.leader leader)
  unfold Node.sendNext
  dsimp only
  have looked : Still rc n₁ { n₁ with indexMgr := n₁.indexMgr.touch msg.src } :=
    .of_seat stored.fixed rfl rfl rfl rfl
  split
  · have sent := @sendAndBeat_still rc _ True looked.fixed (looked.leader leader₁) msg.src
    exact sent.mono (fun _ sent => .inl (sent.leader (looked.leader leader₁))) fun _ _ => trivial
  · exact Meets.ok (.inl leader₁)

theorem onTimeoutNow_leadsOn (msg : TimeoutNow) :
    Meets (n.onTimeoutNow msg) (LeadsOn n) Fails := by
  have leader : n.state = .leader := crowned.state
  unfold Node.onTimeoutNow
  split
  · exact Meets.ok (.inl leader)
  dsimp only
  have transfers : Still rc n { n with
      leaderTransfer := true, transferMaxTerm := n.solid.term + Node.maxTransferTerm } :=
    .of_seat fixed rfl rfl rfl rfl
  refine Meets.bind (maybeStepDown_leadsOn transfers.fixed msg.term) ?_
  rintro n₁ ⟨-, down⟩
  refine Meets.bind check_conveys ?_
  rintro _ ⟨-, rfl⟩
  have on : LeadsOn n n₁ := by
    rcases down with rfl | later
    · exact .inl leader
    · exact .inr later
  split
  · exact Meets.ok on
  split
  · exact Meets.ok on
  · exact Meets.ok on

/-- Nothing that is delivered to a leader makes it a follower in its term. -/
theorem handle_leadsOn (sane : input.Sane rc.me) (foreign : input.Foreign rc.me) (me : rc.me ≠ 0) :
    Meets (n.handle input) (LeadsOn n) Fails := by
  have leader : n.state = .leader := crowned.state
  cases input with
  | electionTimer =>
      show Meets n.elect _ _
      unfold Node.elect
      refine Meets.bind check_conveys ?_
      rintro _ ⟨other, rfl⟩
      simp [leader] at other
  | requestVoteTimer dest =>
      refine Meets.bind check_conveys ?_
      rintro _ ⟨candidate, rfl⟩
      simp [leader] at candidate
  | heartbeatTimer dest =>
      refine Meets.bind check_conveys ?_
      rintro _ ⟨-, rfl⟩
      have sent := @sendAppendEntries_still rc n True fixed leader dest
      exact sent.mono (fun _ sent => sent.leadsOn leader) fun _ _ => trivial
  | propose value =>
      show Meets (n.propose value) _ _
      unfold Node.propose
      split
      · exact Meets.ok (.inl leader)
      · have proposed := @doPropose_still rc n True fixed leader value
        exact proposed.mono (fun _ proposed => proposed.leadsOn leader) fun _ _ => trivial
  | leaderTransfer dest =>
      show Meets (n.leaderTransferTo dest) _ _
      unfold Node.leaderTransferTo
      split
      · exact Meets.ok (.inl leader)
      · exact Meets.ok (.inl leader)
  | setFlags flags => exact Meets.ok (.inl leader)
  | recv msg now =>
      cases msg with
      | requestVote msg =>
          exact onRequestVote_leadsOn fixed crowned now sane.2.1 sane.2.2 me
      | requestVoteReply msg => exact onRequestVoteReply_leadsOn fixed crowned msg
      | appendEntries msg => exact onAppendEntries_leadsOn fixed crowned now sane foreign me
      | appendEntriesReply msg => exact onAppendEntriesReply_leadsOn fixed crowned msg
      | timeoutNow msg => exact onTimeoutNow_leadsOn fixed crowned msg
      | installSnapshot msg => exact onInstallSnapshot_leadsOn fixed crowned now foreign me
      | installSnapshotReply msg => exact onInstallSnapshotReply_leadsOn fixed crowned msg

end Leads

/-! ## Clusters that know of their restarts -/

/-- A cluster, and what each member has done since it was last started. -/
structure Aged where
  cluster : Cluster
  since : Addr → List Effect

/-- What an effect of `p` says about the members. -/
def Tells (m : Membership) (hist : Addr → List Effect) (p : Addr) : Effect → Prop
  | .countSelf _ addr => addr = p
  | .send (.requestVote msg) => msg.preVote = false → Gave hist p msg.term p
  | .send (.requestVoteReply reply) => reply.granted = true → reply.preVote = false →
      Gave hist reply.dest reply.reqTerm reply.dest
  | .send (.appendEntries msg) => msg.dest ∈ m.peersOf p
  | .send (.installSnapshot msg) => msg.dest ∈ m.peersOf p
  | .send (.appendEntriesReply reply) => reply.src = p ∧ reply.dest ∈ m.peersOf p ∧
      Effect.becomeLeader reply.reqTerm ∈ hist reply.dest
  | .send (.installSnapshotReply reply) => reply.src = p ∧ reply.dest ∈ m.peersOf p
  | _ => True

theorem Tells.extend {m : Membership} {hist : Addr → List Effect} {p q : Addr} {effects : List Effect}
    {effect : Effect} (tells : Tells m hist q effect) : Tells m (extend hist p effects) q effect := by
  cases effect with
  | send msg =>
      cases msg with
      | requestVote msg => exact fun real => (tells real).extend
      | requestVoteReply reply => exact fun granted real => (tells granted real).extend
      | appendEntriesReply reply => exact ⟨tells.1, tells.2.1, mem_extend tells.2.2⟩
      | _ => exact tells
  | _ => exact tells

namespace Aged

/-- The node of `p` has been replaced after it had some effects, and `later` is what it
has done since it was started. -/
def update (s : Aged) (p : Addr) (n : Node) (effects later : List Effect) : Aged where
  cluster := s.cluster.update p n effects
  since := Function.update s.since p later

/-- One step of a cluster whose members compact their logs and restart between two
handlers. -/
inductive Step (m : Membership) (s : Aged) : Aged → Prop
  | handle (p : Addr) (mem : p ∈ m.members) (input : Input) (enabled : s.cluster.Enabled m p input)
      (n : Node) (done : (s.cluster.node p).handle input = .ok n) :
      Step m s (s.update p n n.effects (s.since p ++ n.effects))
  | restart (p : Addr) (mem : p ∈ m.members) (flags : Flags) :
      Step m s (s.update p (Node.boot (m.config p) flags (s.cluster.node p).disk) [] [])
  | compact (p : Addr) (mem : p ∈ m.members) (to_ : ℕ) :
      Step m s (s.update p ((s.cluster.node p).deleteUtil to_) [] (s.since p))

/-- Several steps in a row. -/
abbrev Run (m : Membership) : Aged → Aged → Prop :=
  Relation.ReflTransGen (Step m)

/-- Every member started on a fresh disk. -/
def start (m : Membership) (flags : Addr → Flags) : Aged where
  cluster := Cluster.init m flags
  since _ := []

/-- A state that is reached from a start with any flags. -/
def Reachable (m : Membership) (s : Aged) : Prop :=
  ∃ flags, Run m (start m flags) s

/-- What is known of a member and of what it has done. -/
structure Reign (m : Membership) (s : Aged) (p : Addr) : Prop where
  wired : Wired (m.config p) (s.cluster.node p)
  own : (s.cluster.node p).seat.Own
  past : ∀ term, Effect.becomeLeader term ∈ s.cluster.hist p →
    term ≤ (s.cluster.node p).solid.term
  since : ∀ effect ∈ s.since p, effect ∈ s.cluster.hist p
  reigns : Effect.becomeLeader (s.cluster.node p).solid.term ∈ s.since p ↔
    (s.cluster.node p).state = .leader
  tells : ∀ effect ∈ s.cluster.hist p, Tells m s.cluster.hist p effect

section Runs

variable {m : Membership} {s s' : Aged} {p q : Addr} {input : Input}
variable {hist : Addr → List Effect} {effects : List Effect}

theorem longStep_of_step (step : Step m s s') : Cluster.LongStep m s.cluster s'.cluster := by
  cases step with
  | handle p mem input enabled n done => exact .handle p mem input enabled n done
  | restart p mem flags => exact .restart p mem flags
  | compact p mem to_ => exact .compact p mem to_

theorem longReachable (reachable : s.Reachable m) : s.cluster.LongReachable m := by
  obtain ⟨flags, run⟩ := reachable
  refine ⟨flags, ?_⟩
  induction run with
  | refl => exact .refl
  | tail _ step ih => exact ih.tail (longStep_of_step step)

/-- Every run of a cluster can be watched for restarts. -/
theorem exists_reachable {c : Cluster} (reachable : c.LongReachable m) :
    ∃ s : Aged, s.Reachable m ∧ s.cluster = c := by
  obtain ⟨flags, run⟩ := reachable
  induction run with
  | refl => exact ⟨start m flags, ⟨flags, .refl⟩, rfl⟩
  | tail _ step ih =>
      obtain ⟨s, ⟨flags, run⟩, rfl⟩ := ih
      cases step with
      | handle p mem input enabled n done =>
          exact ⟨_, ⟨flags, run.tail (.handle p mem input enabled n done)⟩, rfl⟩
      | restart p mem flags' => exact ⟨_, ⟨flags, run.tail (.restart p mem flags')⟩, rfl⟩
      | compact p mem to_ => exact ⟨_, ⟨flags, run.tail (.compact p mem to_)⟩, rfl⟩

/-- What others do changes nothing. -/
theorem Reign.other (reign : Reign m s q) (ne : q ≠ p) {n : Node} {effects later : List Effect} :
    Reign m (s.update p n effects later) q := by
  have node : (s.update p n effects later).cluster.node q = s.cluster.node q :=
    Function.update_of_ne ne ..
  have hist : (s.update p n effects later).cluster.hist q = s.cluster.hist q :=
    Function.update_of_ne ne ..
  have since : (s.update p n effects later).since q = s.since q := Function.update_of_ne ne ..
  constructor
  · rw [node]
    exact reign.wired
  · rw [node]
    exact reign.own
  · rw [node, hist]
    exact reign.past
  · rw [hist, since]
    exact reign.since
  · rw [node, since]
    exact reign.reigns
  · rw [hist]
    exact fun effect mem => (reign.tells effect mem).extend

/-- What is known of every member. -/
def Reigned (m : Membership) (s : Aged) : Prop :=
  ∀ p ∈ m.members, Reign m s p

theorem Reigned.selfGiven (reigned : s.Reigned m) : SelfGiven m s.cluster.hist := by
  rintro q memQ term candidate ⟨effect, mem, grants⟩
  have tells := (reigned q memQ).tells effect mem
  cases effect with
  | countSelf t addr =>
      obtain ⟨rfl, rfl⟩ := Prod.mk.inj (Option.some.inj grants)
      obtain rfl : addr = q := tells
      exact ⟨_, mem, rfl⟩
  | send msg =>
      cases msg with
      | requestVoteReply reply =>
          unfold Effect.grant at grants
          dsimp only at grants
          split at grants
          · rename_i granted
            rw [Bool.and_eq_true] at granted
            obtain ⟨rfl, rfl⟩ := Prod.mk.inj (Option.some.inj grants)
            exact tells granted.1 (by simpa using granted.2)
          · contradiction
      | _ => contradiction
  | _ => contradiction

/-- An input that may come names peers, and it comes from others if it is a leader's. -/
theorem Reigned.comes (reigned : s.Reigned m) (agrees : s.cluster.Agrees m)
    (enabled : s.cluster.Enabled m p input) :
    input.Placed (m.config p) ∧ input.Foreign p := by
  cases input with
  | heartbeatTimer dest => exact ⟨Membership.mem_peersOf.mpr enabled, trivial⟩
  | recv msg now =>
      obtain ⟨sent, rfl⟩ := enabled
      obtain ⟨q, memQ, sent, ok⟩ := agrees.sent sent
      have tells := (reigned q memQ).tells _ sent
      cases msg with
      | appendEntries msg =>
          obtain ⟨rfl, -, plain⟩ := ok
          exact ⟨plain, (Membership.mem_peersOf.mp tells).2.symm⟩
      | installSnapshot msg =>
          obtain ⟨rfl, -⟩ := ok
          exact ⟨trivial, (Membership.mem_peersOf.mp tells).2.symm⟩
      | appendEntriesReply msg =>
          obtain ⟨rfl, dest, -⟩ := tells
          exact ⟨Membership.mem_peersOf.mpr ⟨memQ, (Membership.mem_peersOf.mp dest).2.symm⟩, trivial⟩
      | installSnapshotReply msg =>
          obtain ⟨rfl, dest⟩ := tells
          exact ⟨Membership.mem_peersOf.mpr ⟨memQ, (Membership.mem_peersOf.mp dest).2.symm⟩, trivial⟩
      | _ => exact ⟨trivial, trivial⟩
  | _ => exact ⟨trivial, trivial⟩

/-- What a handler does says what it should. -/
theorem Reigned.emits (reigned : s.Reigned m) (agrees : s.cluster.Agrees m) (mem : p ∈ m.members)
    (enabled : s.cluster.Enabled m p input) {n' : Node} {effect : Effect}
    (emits : input.Emits (m.config p) (s.cluster.node p) n' effect) :
    Tells m s.cluster.hist p effect := by
  have config : (s.cluster.node p).seat.config = m.config p := (agrees p mem).1.config
  have peer {src : Addr} (tells : p ∈ m.peersOf src) (memS : src ∈ m.members) :
      src ∈ m.peersOf p :=
    Membership.mem_peersOf.mpr ⟨memS, (Membership.mem_peersOf.mp tells).2.symm⟩
  cases effect with
  | countSelf term addr => exact emits
  | send msg =>
      cases msg with
      | requestVote msg =>
          obtain ⟨-, candidate, term, round⟩ := emits
          intro real
          have vote := (reigned p mem).own.stands candidate (round.symm.trans real)
          rw [config] at vote
          rw [term]
          exact (agrees p mem).1.own vote
      | requestVoteReply reply =>
          obtain ⟨msg, now, rfl, dest, reqTerm, round⟩ := emits
          intro granted real
          obtain ⟨q, memQ, sent, ok⟩ := agrees.sent enabled.1
          have tells := (reigned q memQ).tells _ sent (round.symm.trans real)
          rwa [dest, reqTerm, ok.1]
      | appendEntries msg => exact emits
      | installSnapshot msg => exact emits.1
      | appendEntriesReply reply =>
          obtain ⟨msg, now, rfl, src, dest, reqTerm⟩ := emits
          obtain ⟨q, memQ, sent, ok⟩ := agrees.sent enabled.1
          have tells := (reigned q memQ).tells _ sent
          have own : msg.dest = p := enabled.2
          refine ⟨src.trans own, ?_, ?_⟩
          · rw [dest, ok.1]
            exact peer (own ▸ tells) memQ
          · rw [dest, ok.1, reqTerm]
            exact ok.2.1
      | installSnapshotReply reply =>
          obtain ⟨msg, now, rfl, src, dest⟩ := emits
          obtain ⟨q, memQ, sent, ok⟩ := agrees.sent enabled.1
          have tells := (reigned q memQ).tells _ sent
          have own : msg.dest = p := enabled.2
          refine ⟨src.trans own, ?_⟩
          rw [dest, ok.1]
          exact peer (own ▸ tells) memQ
      | timeoutNow msg => trivial
  | _ => trivial

theorem Reigned.handle (reigned : s.Reigned m) (agrees : s.cluster.Agrees m) (mem : p ∈ m.members)
    (enabled : s.cluster.Enabled m p input) {n : Node}
    (done : (s.cluster.node p).handle input = .ok n) :
    Reign m (s.update p n n.effects (s.since p ++ n.effects)) p := by
  obtain ⟨seated, fixed, idle⟩ := agrees p mem
  obtain ⟨wired, own, past, since, reigns, tells⟩ := reigned p mem
  obtain ⟨placed, foreign⟩ := reigned.comes agrees enabled
  have sane := agrees.sane enabled
  have arrives := agrees.arrives enabled
  have turned := (handle_turned fixed sane).of_ok done
  have term_le := turned.term_le
  obtain ⟨-, effects, effects_eq, turns⟩ := turned
  rw [idle, List.nil_append] at effects_eq
  subst effects_eq
  have handled := (handle_handled wired placed).of_ok done
  obtain ⟨more, more_eq, emits⟩ := handled.effects
  rw [idle, List.nil_append] at more_eq
  subst more_eq
  have nonnull : p ≠ 0 := Membership.ne_zero_of_mem mem
  have node : (s.update p n n.effects (s.since p ++ n.effects)).cluster.node p =
      { n with effects := [] } := Function.update_self ..
  have hist : (s.update p n n.effects (s.since p ++ n.effects)).cluster.hist =
      extend s.cluster.hist p n.effects := rfl
  have later : (s.update p n n.effects (s.since p ++ n.effects)).since p =
      s.since p ++ n.effects := Function.update_self ..
  constructor
  · rw [node]
    exact ⟨handled.wired.toFixed.congr rfl rfl, handled.wired.indices, handled.wired.readers⟩
  · rw [node]
    exact own.turns mem seated reigned.selfGiven arrives turns
  · rw [node, hist, extend_self]
    intro term led
    rcases List.mem_append.mp led with old | new
    · exact (past term old).trans term_le
    · exact (emits _ new).2.ge
  · rw [hist, later, extend_self]
    intro effect memE
    exact List.mem_append.mpr ((List.mem_append.mp memE).imp (since effect) id)
  · rw [node, later]
    show Effect.becomeLeader n.solid.term ∈ s.since p ++ n.effects ↔ n.state = .leader
    constructor
    · intro led
      rcases List.mem_append.mp led with old | new
      · have same : n.solid.term = (s.cluster.node p).solid.term :=
          le_antisymm (past _ (since _ old)) term_le
        rw [same] at old
        have crowned := own.leads (reigns.mp old)
        rcases (handle_leadsOn fixed crowned sane foreign nonnull).of_ok done with on | grown
        · exact on
        · omega
      · exact (emits _ new).1
    · intro leader
      rcases turns.led leader with ⟨led, same⟩ | new
      · refine List.mem_append_left _ ?_
        rw [show n.solid.term = (s.cluster.node p).solid.term from same]
        exact reigns.mpr led
      · exact List.mem_append_right _ new
  · rw [hist, extend_self]
    intro effect memE
    rcases List.mem_append.mp memE with old | new
    · exact (tells effect old).extend
    · exact (reigned.emits agrees mem enabled (emits effect new)).extend

/-- A node that has just been started is ready to write to its peers. -/
theorem wired_boot {flags : Flags} {disk : Disk}
    (fixed : Fixed (m.config p) (Node.boot (m.config p) flags disk)) :
    Wired (m.config p) (Node.boot (m.config p) flags disk) := by
  have current := fixed.current
  refine ⟨fixed, ?_, fun dest reader open_ => ?_⟩
  · refine IndexManager.Stocked.renew (Nat.succ_pos _) fun q memQ => ?_
    show q ∈ (IndexManager.reset (Node.boot (m.config p) flags disk).configMgr.current.peers).keys
    rw [current]
    exact (Table.mem_ofKeys_keys _ _ _).mpr memQ
  · have closed : ((Node.boot (m.config p) flags disk).snapshotMgr.val dest).reader = none := by
      show ((Table.ofKeys (Node.boot (m.config p) flags disk).configMgr.current.peers {}).val
        dest : Snapshot).reader = none
      rw [Table.ofKeys_val]
      split
      · rfl
      · rfl
    rw [closed] at open_
    contradiction

theorem restart_node (rc : RaftConfig) (flags : Flags) (disk : Disk) :
    (s.update p (Node.boot rc flags disk) [] []).cluster.node p = Node.boot rc flags disk :=
  Function.update_self ..

theorem restart_hist (n : Node) (later : List Effect) :
    (s.update p n [] later).cluster.hist = s.cluster.hist :=
  extend_nil

/-- A node that starts knows of no leader. -/
theorem Reigned.restart (reigned : s.Reigned m) (agrees : s.cluster.Agrees m)
    (mem : p ∈ m.members) (flags : Flags) :
    Reign m (s.update p (Node.boot (m.config p) flags (s.cluster.node p).disk) [] []) p := by
  obtain ⟨-, fixed, -⟩ := agrees p mem
  obtain ⟨-, -, past, -, -, tells⟩ := reigned p mem
  have fixed' : Fixed (m.config p) (Node.boot (m.config p) flags (s.cluster.node p).disk) :=
    Cluster.fixed_boot (.inr fixed.configs) fixed.plain
  have later : (s.update p (Node.boot (m.config p) flags (s.cluster.node p).disk) []
      []).since p = [] := Function.update_self ..
  constructor
  · rw [restart_node]
    exact wired_boot fixed'
  · rw [restart_node]
    exact ⟨nofun, nofun⟩
  · rw [restart_node, restart_hist]
    exact past
  · rw [later]
    exact nofun
  · rw [restart_node, later]
    exact ⟨nofun, nofun⟩
  · rw [restart_hist]
    exact tells

theorem Reigned.compact (reigned : s.Reigned m) (mem : p ∈ m.members) (to_ : ℕ) :
    Reign m (s.update p ((s.cluster.node p).deleteUtil to_) [] (s.since p)) p := by
  obtain ⟨wired, own, past, since, reigns, tells⟩ := reigned p mem
  have node : (s.update p ((s.cluster.node p).deleteUtil to_) [] (s.since p)).cluster.node p =
      { (s.cluster.node p).deleteUtil to_ with effects := [] } := Function.update_self ..
  have later : (s.update p ((s.cluster.node p).deleteUtil to_) [] (s.since p)).since p =
      s.since p := Function.update_self ..
  constructor
  · rw [node]
    refine ⟨⟨wired.current, ?_, fun entry memE => ?_⟩, wired.indices, wired.readers⟩
    · exact (Log.deleteUtil_configs _ to_).trans wired.configs
    · exact wired.plain entry (Log.mem_deleteUtil memE)
  · rw [node]
    exact own
  · rw [node, restart_hist]
    exact past
  · rw [restart_hist, later]
    exact since
  · rw [node, later]
    exact reigns
  · rw [restart_hist]
    exact tells

theorem reigned_start (flags : Addr → Flags) : (start m flags).Reigned m := by
  intro p mem
  have fixed : Fixed (m.config p) (Node.boot (m.config p) (flags p) (Disk.fresh (m.hasSm p))) :=
    Cluster.fixed_boot (.inl rfl) nofun
  exact ⟨wired_boot fixed, ⟨nofun, nofun⟩, nofun, nofun, ⟨nofun, nofun⟩, nofun⟩

/-- One member moves, and the others stay. -/
theorem Reigned.update (reigned : s.Reigned m) {n : Node} {effects later : List Effect}
    (moved : Reign m (s.update p n effects later) p) :
    (s.update p n effects later).Reigned m := by
  intro q memQ
  by_cases same : q = p
  · rw [same]
    exact moved
  · exact (reigned q memQ).other same

theorem Reigned.step (reigned : s.Reigned m) (agrees : s.cluster.Agrees m)
    (step : Step m s s') : s'.Reigned m := by
  cases step with
  | handle p mem input enabled n done =>
      exact reigned.update (reigned.handle agrees mem enabled done)
  | restart p mem flags => exact reigned.update (reigned.restart agrees mem flags)
  | compact p mem to_ => exact reigned.update (reigned.compact mem to_)

theorem reigned_of_reachable (reachable : s.Reachable m) : s.Reigned m := by
  obtain ⟨flags, run⟩ := reachable
  induction run with
  | refl => exact reigned_start flags
  | @tail s₁ s₂ before step ih =>
      exact ih.step (Cluster.agrees_of_reachable (longReachable ⟨flags, before⟩)) step

end Runs

end Aged

end Vraft
