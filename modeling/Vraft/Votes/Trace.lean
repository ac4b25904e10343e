import Vraft.Raft.Cluster

/-!
# How a node treats its term and vote

Term and vote are two separate writes.  `Ballot` is what the disk says about
them, with a mark while a term has been written whose vote is still to come.
Every handler, on any input and up to any assert, makes only lawful moves on the
ballot: terms grow, a vote is written right after a term or in place of none, and
a vote that is given or counted is the one on record.
-/

namespace Vraft

/-- The term and vote on disk; `pending` after a term and before its vote. -/
structure Ballot where
  term : ℕ
  vote : Addr
  pending : Bool
  deriving DecidableEq, Repr

/-- The term and candidate of an effect that gives a vote: a granted reply to a
real request, or the own vote that is counted. -/
def Effect.grant : Effect → Option (ℕ × Addr)
  | .send (.requestVoteReply msg) =>
      if msg.granted && !msg.preVote then some (msg.reqTerm, msg.dest) else none
  | .countSelf term addr => some (term, addr)
  | _ => none

/-- A config entry in which the null address owns no configuration. -/
def AppendEntry.Named (entry : AppendEntry) : Prop :=
  entry.type = .config → ∀ rc, RaftConfig.fromString entry.value = some rc → rc.me ≠ 0

/-- What the moves of a ballot depend on: the addresses a node may take for its
own, the candidates that ask for its vote, and the votes it may record in a
term. -/
structure Scope where
  own : Addr → Prop
  own_nonnull : ∀ addr, own addr → addr ≠ 0
  candidate : Addr → Prop
  candidate_nonnull : ∀ addr, candidate addr → addr ≠ 0
  justified : Addr → ℕ → Prop
  justified_zero : ∀ term, justified 0 term
  justified_own : ∀ addr term, own addr → justified addr term

/-- Effects that write neither term nor vote nor a new entry; replies go to
candidates. -/
def Effect.Passive (sc : Scope) : Effect → Prop
  | .persistTerm _ => False
  | .persistVote _ => False
  | .appendLog _ => False
  | .send (.requestVoteReply msg) => sc.candidate msg.dest
  | _ => True

namespace Ballot

/-- A lawful move. -/
inductive Step (sc : Scope) (b : Ballot) : Effect → Ballot → Prop
  | term (t : ℕ) (later : b.term < t) : Step sc b (.persistTerm t) ⟨t, b.vote, true⟩
  | vote (v : Addr) (free : b.pending = true ∨ b.vote = 0) (justified : sc.justified v b.term) :
      Step sc b (.persistVote v) ⟨b.term, v, false⟩
  | append (entry : AppendEntry) (settled : b.pending = false) (named : entry.Named) :
      Step sc b (.appendLog entry) b
  | passive (effect : Effect) (settled : b.pending = false) (passive : effect.Passive sc)
      (given : ∀ t v, effect.grant = some (t, v) → t = b.term ∧ v = b.vote ∧ v ≠ 0) :
      Step sc b effect b

/-- Lawful moves, one effect after the other. -/
inductive Trace (sc : Scope) (start : Ballot) : List Effect → Ballot → Prop
  | nil : Trace sc start [] start
  | snoc {effects : List Effect} {b b' : Ballot} {effect : Effect}
      (before : Trace sc start effects b) (step : Step sc b effect b') :
      Trace sc start (effects ++ [effect]) b'

theorem Trace.of_initial {sc : Scope} {start b : Ballot} {effects performed : List Effect}
    (trace : Trace sc start effects b) (reached : performed <+: effects) :
    ∃ b', Trace sc start performed b' := by
  induction trace with
  | nil =>
      obtain rfl := List.prefix_nil.mp reached
      exact ⟨start, .nil⟩
  | snoc before step ih =>
      rcases List.prefix_concat_iff.mp reached with rfl | reached
      · exact ⟨_, .snoc before step⟩
      · exact ih reached

end Ballot

/-! ## Nodes -/

section Nodes

variable {sc : Scope} {start : Ballot} {n : Node}

/-- No recorded configuration is owned by the null address. -/
def Log.Named (log : Log) : Prop :=
  ∀ recorded ∈ log.configs, recorded.2.me ≠ 0

/-- The effects so far are lawful and account for the term and vote in memory,
and the node only goes by addresses of its own. -/
structure Tracks (sc : Scope) (start : Ballot) (solid : SolidData) (effects : List Effect)
    (mgr : ConfigManager) (log : Log) : Prop where
  trace : Ballot.Trace sc start effects ⟨solid.term, solid.vote, false⟩
  current : sc.own mgr.current.me
  previous : ∀ rc, mgr.previous = some rc → sc.own rc.me
  recorded : log.Named

/-- What a node has done since the start of a turn is in the ballot. -/
abbrev Tracked (sc : Scope) (start : Ballot) (n : Node) : Prop :=
  Tracks sc start n.solid n.effects n.configMgr n.log

/-- The code ends with `post`, or at an assert with a node that is tracked. -/
def Leaves {α : Type} (sc : Scope) (start : Ballot) (out : Except (AssertSite × Node) α)
    (post : α → Prop) : Prop :=
  match out with
  | .ok result => post result
  | .error (_, n) => Tracked sc start n

/-- The code ends with a tracked node, at an assert or not. -/
abbrev Keeps (sc : Scope) (start : Ballot) (out : Outcome) : Prop :=
  Leaves sc start out (Tracked sc start)

theorem Leaves.bind {α β : Type} {out : Except (AssertSite × Node) α}
    {next : α → Except (AssertSite × Node) β} {m : α → Prop} {post : β → Prop}
    (first : Leaves sc start out m)
    (rest : ∀ result, m result → Leaves sc start (next result) post) :
    Leaves sc start (out >>= next) post := by
  cases out with
  | error failed => exact first
  | ok result => exact rest result first

theorem Leaves.weaken {α : Type} {out : Except (AssertSite × Node) α} {mid post : α → Prop}
    (first : Leaves sc start out mid) (weaker : ∀ result, mid result → post result) :
    Leaves sc start out post := by
  cases out with
  | error failed => exact first
  | ok result => exact weaker result first

theorem Keeps.bind {β : Type} {out : Outcome} {next : Node → Except (AssertSite × Node) β}
    {post : β → Prop} (first : Keeps sc start out)
    (rest : ∀ n, Tracked sc start n → Leaves sc start (next n) post) :
    Leaves sc start (out >>= next) post :=
  Leaves.bind first rest

theorem Keeps.node {out : Outcome} (keeps : Keeps sc start out) : Tracked sc start out.node := by
  cases out with
  | error failed => exact keeps
  | ok n => exact keeps

theorem Keeps.check {site : AssertSite} {c : Prop} [Decidable c] (tracked : Tracked sc start n) :
    Keeps sc start (n.check site c) := by
  unfold Node.check
  split <;> exact tracked

/-- An effect that writes nothing and gives no vote. -/
theorem Tracks.emit (tracked : Tracked sc start n) {e : Effect} (passive : e.Passive sc)
    (none_given : e.grant = none) : Tracked sc start (n.emit e) :=
  { tracked with trace := .snoc tracked.trace (.passive e rfl passive (by simp [none_given])) }

/-- The two writes that open a term. -/
theorem Tracks.open_ (tracked : Tracked sc start n) {term : ℕ} {vote : Addr}
    (later : n.solid.term < term) (justified : sc.justified vote term) :
    Tracks sc start ⟨term, vote⟩ (n.effects ++ [.persistTerm term] ++ [.persistVote vote])
      n.configMgr n.log :=
  { tracked with
    trace := .snoc (.snoc tracked.trace (.term term later)) (.vote vote (Or.inl rfl) justified) }

/-! ## Configurations -/

theorem addPeer_keeps (tracked : Tracked sc start n) (addr : Addr) :
    Keeps sc start (n.addPeer addr) := by
  refine Keeps.bind (Keeps.check tracked) fun n₁ tracked₁ => ?_
  refine Keeps.bind (Keeps.check tracked₁) fun n₂ tracked₂ => ?_
  exact tracked₂

theorem addPeers_keeps (tracked : Tracked sc start n) {rc : RaftConfig} (own : sc.own rc.me)
    (addrs : List Addr) :
    Leaves sc start (n.addPeers rc addrs) fun result =>
      Tracked sc start result.1 ∧ sc.own result.2.me := by
  induction addrs generalizing n rc with
  | nil => exact ⟨tracked, own⟩
  | cons addr rest ih =>
      exact Leaves.bind (addPeer_keeps tracked addr) fun n₁ tracked₁ => ih tracked₁ own

theorem deletePeers_tracked (tracked : Tracked sc start n) {r : RaftConfig} (own : sc.own r.me)
    (addrs : List Addr) :
    Tracked sc start (n.deletePeers r addrs).1 ∧ sc.own (n.deletePeers r addrs).2.me := by
  induction addrs generalizing n r with
  | nil => exact ⟨tracked, own⟩
  | cons addr rest ih =>
      exact ih (n := n.deletePeer addr) (r := { r with peers := _ }) tracked own

theorem doConfigChange_keeps (tracked : Tracked sc start n) (rc : RaftConfig) :
    Leaves sc start (n.doConfigChange rc) fun result =>
      Tracked sc start result.1 ∧ sc.own result.2.me := by
  unfold Node.doConfigChange
  dsimp only
  split
  · refine Keeps.bind (Keeps.check tracked) fun n₁ tracked₁ => ?_
    split
    · refine Keeps.bind (Keeps.check tracked₁) fun n₂ tracked₂ => ?_
      exact addPeers_keeps tracked₂ tracked.current _
    · refine Keeps.bind (Keeps.check tracked₁) fun n₂ tracked₂ => ?_
      exact deletePeers_tracked tracked₂ tracked.current _
  · refine Keeps.bind (Keeps.check tracked) fun n₁ tracked₁ => ?_
    refine Keeps.bind (Keeps.check tracked₁) fun n₂ tracked₂ => ?_
    exact addPeers_keeps tracked₂ tracked.current _

theorem configChange_keeps (tracked : Tracked sc start n) (rc : RaftConfig) (index : ℕ) :
    Keeps sc start (n.configChange rc index) := by
  refine Leaves.bind (doConfigChange_keeps tracked rc) ?_
  rintro ⟨n₁, config⟩ ⟨tracked₁, own⟩
  refine ⟨tracked₁.trace, own, fun before isBefore => ?_, tracked₁.recorded⟩
  obtain rfl : n₁.configMgr.current = before := Option.some.inj isBefore
  exact tracked₁.current

theorem configRollbacks_keeps (tracked : Tracked sc start n) (indices : List ℕ) :
    Keeps sc start (n.configRollbacks indices) := by
  induction indices generalizing n with
  | nil => exact tracked
  | cons index rest ih =>
      refine Keeps.bind ?_ fun n₁ tracked₁ => ih tracked₁
      unfold Node.configRollback
      split
      · exact tracked
      · rename_i previous found
        refine Leaves.bind (doConfigChange_keeps tracked previous) ?_
        rintro ⟨n₁, config⟩ ⟨tracked₁, -⟩
        have rolled : Tracked sc start { n₁ with configMgr := ⟨previous, none⟩ } :=
          ⟨tracked₁.trace, tracked.previous previous found, by simp, tracked₁.recorded⟩
        dsimp only
        split
        · exact rolled
        · exact rolled

/-! ## Log, commitment and sends -/

theorem Log.Named.appendOne {log : Log} (named : log.Named) {entry : AppendEntry}
    (entry_named : entry.Named) : (log.appendOne entry).Named := by
  intro recorded mem
  simp only [Log.appendOne] at mem
  split at mem
  · rename_i config
    split at mem
    · rename_i rc decoded
      rcases List.mem_append.mp mem with mem | mem
      · exact named recorded mem
      · obtain rfl := List.mem_singleton.mp mem
        exact entry_named config rc decoded
    · exact named recorded mem
  · exact named recorded mem

theorem Log.Named.deleteFrom {log : Log} (named : log.Named) (from_ : ℕ) :
    (log.deleteFrom from_).Named := by
  intro recorded mem
  rw [Log.deleteFrom] at mem
  split at mem
  · exact named recorded mem
  · exact named recorded (List.mem_of_mem_filter mem)

theorem appendOne_keeps (tracked : Tracked sc start n) {entry : AppendEntry}
    (named : entry.Named) : Keeps sc start (n.appendOne entry) := by
  have written : Tracked sc start (n.emit (.appendLog entry)) :=
    { tracked with trace := .snoc tracked.trace (.append entry rfl named) }
  refine Keeps.bind ?_ fun n₁ tracked₁ =>
    { tracked₁ with recorded := tracked₁.recorded.appendOne named }
  unfold Node.configWritten
  split
  · split
    · exact configChange_keeps written _ _
    · exact written
  · exact written

theorem deleteFrom_keeps (tracked : Tracked sc start n) (from_ : ℕ) :
    Keeps sc start (n.deleteFrom from_) := by
  unfold Node.deleteFrom
  split
  · exact tracked
  · refine Leaves.bind (configRollbacks_keeps
      (tracked.emit (e := .truncateLog from_) trivial rfl) _) ?_
    exact fun n₁ tracked₁ => { tracked₁ with recorded := tracked₁.recorded.deleteFrom from_ }

theorem applyOne_keeps (tracked : Tracked sc start n) (index : ℕ) :
    Keeps sc start (n.applyOne index) := by
  unfold Node.applyOne
  split
  · exact tracked
  · split
    · split
      · exact Tracks.emit (n := { n with sm := _ }) tracked trivial rfl
      · exact tracked
    · split <;> exact tracked
    · exact tracked
    · exact tracked

theorem stateMachineApply_keeps (tracked : Tracked sc start n) :
    Keeps sc start n.stateMachineApply := by
  have applied : ∀ count {n : Node} {index : ℕ}, Tracked sc start n →
      Keeps sc start (n.applyFrom index count) := by
    intro count
    induction count with
    | zero => exact fun tracked => tracked
    | succ count ih =>
        exact fun tracked => Leaves.bind (applyOne_keeps tracked _) fun _ tracked₁ => ih tracked₁
  unfold Node.stateMachineApply
  split
  · exact Leaves.bind (applied _ tracked) fun n₁ tracked₁ => tracked₁
  · exact tracked

theorem maybeCommit_keeps (tracked : Tracked sc start n) : Keeps sc start n.maybeCommit := by
  unfold Node.maybeCommit
  refine Keeps.bind (Keeps.check tracked) fun n₁ tracked₁ => ?_
  dsimp only
  split
  · exact tracked₁
  · refine Keeps.bind (Keeps.check tracked₁) fun n₂ tracked₂ => ?_
    split
    · exact tracked₂
    · split
      · exact tracked₂
      · refine Keeps.bind (Keeps.check tracked₂) fun n₃ tracked₃ => ?_
        exact stateMachineApply_keeps tracked₃

theorem openReader_tracked (tracked : Tracked sc start n) (dest : Addr) :
    Tracked sc start (n.openReader dest) := by
  unfold Node.openReader
  dsimp only
  split <;> exact tracked

theorem sendInstallSnapshot_keeps (tracked : Tracked sc start n) (dest : Addr) :
    Keeps sc start (n.sendInstallSnapshot dest) := by
  have opened := openReader_tracked tracked dest
  unfold Node.sendInstallSnapshot
  dsimp only
  split
  · exact opened
  · exact Tracks.emit (n := { n.openReader dest with snapshotMgr := _ }) opened trivial rfl

theorem sendAppendEntries_keeps (tracked : Tracked sc start n) (dest : Addr) :
    Keeps sc start (n.sendAppendEntries dest) := by
  unfold Node.sendAppendEntries
  dsimp only
  refine Keeps.bind (Keeps.check tracked) fun n₁ tracked₁ => ?_
  split
  · exact sendInstallSnapshot_keeps tracked₁ dest
  · refine Leaves.bind (m := fun _ => True) ?_ fun preTerm _ => ?_
    · unfold Node.preTermOf
      split
      · split
        · trivial
        · exact tracked₁
      · split
        · trivial
        · split <;> trivial
    · split
      · exact sendInstallSnapshot_keeps tracked₁ dest
      · refine Leaves.bind (m := fun _ => True) ?_ fun entries _ => tracked₁.emit trivial rfl
        unfold Node.entriesAt
        split
        · split
          · trivial
          · exact tracked₁
        · trivial

/-! ## Elections -/

theorem stepDown_keeps (tracked : Tracked sc start n) (newTerm : ℕ) :
    Leaves sc start (n.stepDown newTerm) fun n' =>
      Tracked sc start n' ∧ n'.solid.term = newTerm ∧
        (newTerm = n.solid.term → n'.solid = n.solid) := by
  unfold Node.stepDown
  refine Leaves.bind (m := fun n₁ => n₁ = n ∧ n.solid.term ≤ newTerm) ?_ ?_
  · unfold Node.check
    split
    · rename_i le
      exact ⟨rfl, le⟩
    · exact tracked
  · rintro _ ⟨rfl, le⟩
    dsimp only
    split
    · rename_i later
      exact ⟨tracked.open_ later (sc.justified_zero newTerm), rfl,
        fun same => absurd same later.ne'⟩
    · exact ⟨tracked, by dsimp only; omega, fun _ => rfl⟩

theorem maybeStepDown_keeps (tracked : Tracked sc start n) (newTerm : ℕ) :
    Leaves sc start (n.maybeStepDown newTerm) fun n' =>
      Tracked sc start n' ∧ n.solid.term ≤ n'.solid.term := by
  unfold Node.maybeStepDown
  split
  · rename_i later
    refine (stepDown_keeps tracked newTerm).weaken ?_
    rintro n₁ ⟨tracked₁, term_eq, -⟩
    exact ⟨tracked₁, later.le.trans term_eq.ge⟩
  · exact ⟨tracked, le_rfl⟩

theorem becomeLeader_keeps (tracked : Tracked sc start n) : Keeps sc start n.becomeLeader := by
  unfold Node.becomeLeader
  dsimp only
  refine Keeps.bind (Keeps.check tracked) fun n₁ tracked₁ => ?_
  have announced : Tracked sc start (n₁.emit (.becomeLeader n₁.solid.term)) :=
    tracked₁.emit trivial rfl
  unfold Node.appendNoop
  refine appendOne_keeps ?_ ?_
  · exact announced
  · intro config
    contradiction

/-- The own vote is counted when it is on record. -/
theorem countSelf_tracked (tracked : Tracked sc start n) : Tracked sc start n.countSelf := by
  unfold Node.countSelf
  split
  · rename_i self
    refine { tracked with trace := .snoc tracked.trace (.passive _ rfl trivial ?_) }
    intro t v given
    obtain ⟨rfl, rfl⟩ := Prod.mk.inj (Option.some.inj given)
    exact ⟨rfl, (of_decide_eq_true self).symm, sc.own_nonnull _ tracked.current⟩
  · exact tracked

theorem doRequestVote_keeps (tracked : Tracked sc start n) : Keeps sc start n.doRequestVote := by
  unfold Node.doRequestVote
  dsimp only
  have opened : Tracked sc start
      ((n.incrTerm.becomeCandidate).setVote n.incrTerm.becomeCandidate.me) :=
    tracked.open_ (Nat.lt_succ_self _) (sc.justified_own _ _ tracked.current)
  have counted := countSelf_tracked opened
  split
  · exact becomeLeader_keeps counted
  · exact counted

theorem elect_keeps (tracked : Tracked sc start n) : Keeps sc start n.elect := by
  unfold Node.elect
  refine Keeps.bind (Keeps.check tracked) fun n₁ tracked₁ => ?_
  split
  · exact tracked₁
  · split
    · exact tracked₁
    · exact doRequestVote_keeps (n := { n₁ with preVoting := false }) tracked₁

theorem sendRequestVote_tracked (tracked : Tracked sc start n) (dest : Addr) :
    Tracked sc start (n.sendRequestVote dest) := by
  unfold Node.sendRequestVote
  dsimp only
  split
  · exact tracked.emit trivial rfl
  · exact Tracks.emit (n := { n with leaderTransfer := false, transferMaxTerm := 0 }) tracked
      trivial rfl

/-- The vote is recorded only where none is, for a candidate that was checked. -/
theorem maybeVote_keeps (tracked : Tracked sc start n) {msg : RequestVote} {ok : Bool}
    (justified : msg.term = n.solid.term → ok = true → sc.justified msg.src msg.term) :
    Keeps sc start (n.maybeVote msg ok) := by
  unfold Node.maybeVote
  split
  · rename_i current
    split
    · rename_i free
      refine Leaves.bind (stepDown_keeps tracked n.solid.term) ?_
      rintro n₁ ⟨tracked₁, -, same⟩
      have solid_eq := same rfl
      dsimp only
      split
      · exact tracked₁
      · refine { tracked₁ with trace := .snoc tracked₁.trace (.vote msg.src (Or.inr ?_) ?_) }
        · show n₁.solid.vote = 0
          rw [solid_eq]
          exact free.2
        · show sc.justified msg.src n₁.solid.term
          rw [solid_eq, ← current]
          exact justified current free.1
    · exact tracked
  · exact tracked

theorem onRequestVote_keeps (tracked : Tracked sc start n) {msg : RequestVote} (now : ℤ)
    (asks : sc.candidate msg.src)
    (justified : n.solid.term ≤ msg.term → n.intervalOk msg now = true → n.logOk msg = true →
      sc.justified msg.src msg.term) :
    Keeps sc start (n.onRequestVote msg now) := by
  unfold Node.onRequestVote
  split
  · exact tracked
  · dsimp only
    split
    · rename_i timely
      refine Leaves.bind (maybeStepDown_keeps tracked msg.term) ?_
      rintro n₁ ⟨tracked₁, le⟩
      refine Leaves.bind (m := fun n₂ => Tracked sc start n₂ ∧ n₂ = n₁) ?_ ?_
      · unfold Node.check
        split
        · exact ⟨tracked₁, rfl⟩
        · exact tracked₁
      rintro n₂ ⟨tracked₂, rfl⟩
      refine Leaves.bind (maybeVote_keeps tracked₂ fun current =>
        justified (le.trans current.ge) timely) fun n₃ tracked₃ => ?_
      refine { tracked₃ with trace := .snoc tracked₃.trace (.passive _ rfl asks ?_) }
      intro t v given
      simp only [Effect.grant] at given
      split at given
      · rename_i real
        obtain ⟨rfl, rfl⟩ := Prod.mk.inj (Option.some.inj given)
        obtain ⟨term_eq, vote_eq⟩ := of_decide_eq_true (Bool.and_eq_true_iff.mp real).1
        exact ⟨term_eq, vote_eq.symm, sc.candidate_nonnull _ asks⟩
      · contradiction
    · exact tracked.emit asks rfl

theorem onRealVote_keeps (tracked : Tracked sc start n) (msg : RequestVoteReply) :
    Keeps sc start (n.onRealVote msg) := by
  unfold Node.onRealVote
  dsimp only
  split
  · refine (fun counted : Tracked sc start (Node.countSelf _) => ?_)
      (countSelf_tracked (n := { n with
        voteMgr := VoteManager.getVote (n.voteMgr.done msg.src) msg.src
        timerMgr := n.timerMgr.stopRequestVoteOf msg.src }) tracked)
    split
    · exact becomeLeader_keeps counted
    · exact counted
  · exact tracked

theorem onPreVote_keeps (tracked : Tracked sc start n) (msg : RequestVoteReply) :
    Keeps sc start (n.onPreVote msg) := by
  unfold Node.onPreVote
  dsimp only
  set stopped : Node := { n with timerMgr := n.timerMgr.stopRequestVoteOf msg.src }
  set logged : Node :=
    if msg.logOk then { stopped with voteMgr := stopped.voteMgr.logOK msg.src } else stopped
    with logged_eq
  have tracked₁ : Tracked sc start logged := by
    rw [logged_eq]
    split <;> exact tracked
  set timed : Node :=
    if msg.intervalOk then { logged with voteMgr := logged.voteMgr.intervalOK msg.src } else logged
    with timed_eq
  have tracked₂ : Tracked sc start timed := by
    rw [timed_eq]
    split <;> exact tracked₁
  split
  · exact doRequestVote_keeps (n := { timed with preVoting := false }) tracked₂
  · exact tracked₂

theorem onRequestVoteReply_keeps (tracked : Tracked sc start n) (msg : RequestVoteReply) :
    Keeps sc start (n.onRequestVoteReply msg) := by
  unfold Node.onRequestVoteReply
  split
  · exact tracked
  split
  · exact tracked
  split
  · exact tracked
  split
  · exact (stepDown_keeps tracked msg.term).weaken fun _ post => post.1
  · refine Keeps.bind (Keeps.check tracked) fun n₁ tracked₁ => ?_
    split
    · exact onPreVote_keeps tracked₁ msg
    · exact onRealVote_keeps tracked₁ msg

/-! ## Replication and the rest -/

theorem appendAll_keeps (tracked : Tracked sc start n) {entries : List LogEntry}
    (named : ∀ entry ∈ entries, entry.appendEntry.Named) :
    Keeps sc start (n.appendAll entries) := by
  induction entries generalizing n with
  | nil => exact tracked
  | cons entry rest ih =>
      refine Leaves.bind (appendOne_keeps tracked (named entry (by simp))) fun n₁ tracked₁ => ?_
      exact ih tracked₁ fun e mem => named e (List.mem_cons_of_mem _ mem)

theorem acceptEntries_keeps (tracked : Tracked sc start n) {index : ℕ} {entries : List LogEntry}
    (named : ∀ entry ∈ entries, entry.appendEntry.Named) :
    Keeps sc start (n.acceptEntries index entries) := by
  induction entries generalizing n index with
  | nil => exact tracked
  | cons entry rest ih =>
      have rest_named : ∀ e ∈ rest, e.appendEntry.Named :=
        fun e mem => named e (List.mem_cons_of_mem _ mem)
      rw [Node.acceptEntries]
      refine Keeps.bind (Keeps.check tracked) fun n₁ tracked₁ => ?_
      split
      · exact ih tracked₁ rest_named
      · split
        · split
          · exact tracked₁
          · split
            · exact ih tracked₁ rest_named
            · refine Keeps.bind (Keeps.check tracked₁)
                fun n₂ tracked₂ => ?_
              refine Leaves.bind (deleteFrom_keeps tracked₂ _) fun n₃ tracked₃ => ?_
              exact appendAll_keeps tracked₃ named
        · exact appendAll_keeps tracked₁ named

theorem hearLeader_keeps (tracked : Tracked sc start n) (src : Addr) (term : ℕ) (now : ℤ) :
    Keeps sc start (n.hearLeader src term now) := by
  unfold Node.hearLeader
  refine Leaves.bind (stepDown_keeps tracked term) ?_
  rintro n₁ ⟨tracked₁, -, -⟩
  dsimp only
  split
  · exact tracked₁
  · exact Keeps.check tracked₁

theorem onAppendEntries_keeps (tracked : Tracked sc start n) {msg : AppendEntries} (now : ℤ)
    (named : ∀ entry ∈ msg.entries, entry.appendEntry.Named) :
    Keeps sc start (n.onAppendEntries msg now) := by
  unfold Node.onAppendEntries
  split
  · exact tracked
  dsimp only
  split
  · exact tracked.emit trivial rfl
  · refine Leaves.bind (hearLeader_keeps tracked msg.src msg.term now) fun n₁ tracked₁ => ?_
    refine Leaves.bind (m := fun _ => True) ?_ fun mismatch _ => ?_
    · unfold Node.preLogMismatch
      split
      · trivial
      · split
        · split
          · trivial
          · exact tracked₁
        · trivial
    · split
      · exact tracked₁.emit trivial rfl
      · refine Leaves.bind (acceptEntries_keeps tracked₁ named) fun n₂ tracked₂ => ?_
        refine Keeps.bind ?_ fun n₃ tracked₃ =>
          Tracks.emit (n := { n₃ with timerMgr := _, lastHeartbeatTimestamp := now }) tracked₃
            trivial rfl
        unfold Node.learnCommit
        split
        · refine Keeps.bind (Keeps.check tracked₂) fun n₄ tracked₄ => ?_
          exact stateMachineApply_keeps tracked₄
        · exact tracked₂

theorem onAppendEntriesReply_keeps (tracked : Tracked sc start n) (msg : AppendEntriesReply) :
    Keeps sc start (n.onAppendEntriesReply msg) := by
  unfold Node.onAppendEntriesReply
  split
  · exact tracked
  split
  · exact tracked
  split
  · exact tracked
  refine Keeps.bind (Keeps.check tracked) fun n₁ tracked₁ => ?_
  split
  · exact (stepDown_keeps tracked₁ msg.term).weaken fun _ post => post.1
  · refine Keeps.bind (Keeps.check tracked₁) fun n₂ tracked₂ => ?_
    refine Keeps.bind ?_ fun n₃ tracked₃ => ?_
    · unfold Node.onIndexReply
      split
      · refine Keeps.bind ?_ fun n₄ tracked₄ => tracked₄
        unfold Node.raiseMatch
        dsimp only
        split
        · exact tracked₂
        · exact maybeCommit_keeps (n := { n₂ with indexMgr := _ }) tracked₂
      · exact tracked₂
    · split
      · exact Leaves.bind (sendAppendEntries_keeps tracked₃ _) fun n₄ tracked₄ => tracked₄
      · exact tracked₃

theorem finishSnapshot_tracked (tracked : Tracked sc start n) (msg : InstallSnapshot)
    (writer : SnapshotWriter) : Tracked sc start (n.finishSnapshot msg writer) := by
  unfold Node.finishSnapshot
  dsimp only
  split
  · exact tracked
  · exact Tracks.emit (n := { n with snapshotMgr := _, sm := _ }) tracked trivial rfl

theorem onInstallSnapshot_keeps (tracked : Tracked sc start n) (msg : InstallSnapshot) (now : ℤ) :
    Keeps sc start (n.onInstallSnapshot msg now) := by
  unfold Node.onInstallSnapshot
  split
  · exact tracked
  split
  · exact tracked.emit trivial rfl
  refine Leaves.bind (hearLeader_keeps tracked msg.src msg.term now) fun n₁ tracked₁ => ?_
  dsimp only
  split
  · exact tracked₁
  split
  · exact Tracks.emit (n := n₁.openWriter msg) tracked₁ trivial rfl
  · refine Keeps.bind (Keeps.check (n := n₁.openWriter msg) tracked₁) fun n₂ tracked₂ => ?_
    refine Tracks.emit ?_ trivial rfl
    split
    · refine finishSnapshot_tracked ?_ _ _
      exact tracked₂
    · exact tracked₂

theorem onInstallSnapshotReply_keeps (tracked : Tracked sc start n) (msg : InstallSnapshotReply) :
    Keeps sc start (n.onInstallSnapshotReply msg) := by
  unfold Node.onInstallSnapshotReply
  split
  · exact tracked
  dsimp only
  split
  · exact tracked
  split
  · exact tracked
  split
  · exact tracked
  refine Keeps.bind (Keeps.check (n := { n with snapshotMgr := _ }) tracked) fun n₁ tracked₁ => ?_
  split
  · exact (stepDown_keeps tracked₁ msg.term).weaken fun _ post => post.1
  refine Keeps.bind (Keeps.check tracked₁) fun n₂ tracked₂ => ?_
  refine Keeps.bind ?_ fun n₃ tracked₃ => ?_
  · unfold Node.onSnapshotStored
    split
    · exact Keeps.bind (maybeCommit_keeps (n := { n₂ with indexMgr := _ }) tracked₂)
        fun n₄ tracked₄ => tracked₄
    · exact tracked₂
  · unfold Node.sendNext
    dsimp only
    split
    · refine Leaves.bind (sendAppendEntries_keeps ?_ _) fun n₄ tracked₄ => tracked₄
      exact tracked₃
    · exact tracked₃

theorem onTimeoutNow_keeps (tracked : Tracked sc start n) (msg : TimeoutNow) :
    Keeps sc start (n.onTimeoutNow msg) := by
  unfold Node.onTimeoutNow
  split
  · exact tracked
  · refine Leaves.bind (maybeStepDown_keeps (n := { n with
      leaderTransfer := true, transferMaxTerm := _ }) tracked msg.term) ?_
    rintro n₁ ⟨tracked₁, -⟩
    refine Keeps.bind (Keeps.check tracked₁) fun n₂ tracked₂ => ?_
    split
    · exact tracked₂
    · split <;> exact tracked₂

theorem replicate_keeps (tracked : Tracked sc start n) (dests : List Addr) :
    Keeps sc start (n.replicate dests) := by
  induction dests generalizing n with
  | nil => exact tracked
  | cons dest rest ih =>
      refine Leaves.bind (sendAppendEntries_keeps tracked dest) fun n₁ tracked₁ => ?_
      exact ih (n := { n₁ with timerMgr := _ }) tracked₁

theorem propose_keeps (tracked : Tracked sc start n) (value : Bytes) :
    Keeps sc start (n.propose value) := by
  unfold Node.propose
  split
  · exact tracked
  · refine Leaves.bind (appendOne_keeps tracked (by intro config; contradiction))
      fun n₁ tracked₁ => ?_
    exact Leaves.bind (maybeCommit_keeps tracked₁) fun n₂ tracked₂ => replicate_keeps tracked₂ _

/-- Inputs that a node can receive: only candidates ask for its vote, and no
configuration on its way is owned by the null address. -/
def Input.Named (candidate : Addr → Prop) : Input → Prop
  | .recv (.requestVote msg) _ => candidate msg.src
  | .recv (.appendEntries msg) _ => ∀ entry ∈ msg.entries, entry.appendEntry.Named
  | _ => True

/-- Every handler makes lawful moves only. -/
theorem handle_keeps (tracked : Tracked sc start n) {input : Input}
    (named : input.Named sc.candidate)
    (justified : ∀ msg now, input = .recv (.requestVote msg) now → n.solid.term ≤ msg.term →
      n.intervalOk msg now = true → n.logOk msg = true → sc.justified msg.src msg.term) :
    Keeps sc start (n.handle input) := by
  cases input with
  | electionTimer => exact elect_keeps tracked
  | requestVoteTimer dest =>
      exact Keeps.bind (Keeps.check tracked) fun n₁ tracked₁ =>
        sendRequestVote_tracked tracked₁ dest
  | heartbeatTimer dest =>
      exact Keeps.bind (Keeps.check tracked) fun n₁ tracked₁ =>
        sendAppendEntries_keeps tracked₁ dest
  | propose value => exact propose_keeps tracked value
  | leaderTransfer dest =>
      show Keeps sc start (n.leaderTransferTo dest)
      unfold Node.leaderTransferTo
      split
      · exact tracked
      · exact tracked.emit trivial rfl
  | setFlags flags => exact tracked
  | recv msg now =>
      cases msg with
      | requestVote msg => exact onRequestVote_keeps tracked now named (justified msg now rfl)
      | requestVoteReply msg => exact onRequestVoteReply_keeps tracked msg
      | appendEntries msg => exact onAppendEntries_keeps tracked now named
      | appendEntriesReply msg => exact onAppendEntriesReply_keeps tracked msg
      | timeoutNow msg => exact onTimeoutNow_keeps tracked msg
      | installSnapshot msg => exact onInstallSnapshot_keeps tracked msg now
      | installSnapshotReply msg => exact onInstallSnapshotReply_keeps tracked msg

end Nodes

end Vraft
