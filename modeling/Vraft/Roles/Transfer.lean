import Vraft.Raft.Follow
import Vraft.Roles.Timers

/-!
# Leadership transfer and the order of logs

A voter compares the last term and index of a candidate's log with its own, and a
receiver of `TimeoutNow` compares its own with those of the leader.  The second
comparison lets a receiver stand whose last term ties with the leader's, however
much shorter its log is.
-/

namespace Vraft

namespace Node

variable {n : Node} {msg : TimeoutNow}

/-- The handler makes an election due that was not due before. -/
def StartsElection (n : Node) (msg : TimeoutNow) : Prop :=
  ∃ n', onTimeoutNow { n with timerMgr := { n.timerMgr with due := false } } msg = .ok n' ∧
    n'.timerMgr.due = true

/-- The receiver could win the vote of the leader that has sent the message. -/
def CouldWin (n : Node) (msg : TimeoutNow) : Prop :=
  ∀ request : RequestVote, request.lastLogTerm = n.lastTerm → request.lastLogIndex = n.lastIndex →
    logOkOn msg.lastLogTerm msg.lastLogIndex request = true

/-- The receiver is a follower once it has taken note of the term. -/
def Follows (n : Node) (msg : TimeoutNow) : Prop :=
  n.solid.term < msg.term ∨ n.state = .follower

instance (n : Node) (msg : TimeoutNow) : Decidable (n.Follows msg) :=
  inferInstanceAs (Decidable (_ ∨ _))

theorem couldWin_iff : n.CouldWin msg ↔
    msg.lastLogTerm < n.lastTerm ∨ n.lastTerm = msg.lastLogTerm ∧ msg.lastLogIndex ≤ n.lastIndex := by
  constructor
  · intro wins
    simpa [logOkOn] using wins ⟨0, 0, 0, n.lastIndex, n.lastTerm, false, false⟩ rfl rfl
  · intro order request term index
    simpa [logOkOn, term, index] using order

/-- Taking note of the term: no election is due any more and the log is what it was. -/
theorem maybeStepDown_due {term : ℕ} (calm : n.timerMgr.due = false) :
    ∃ n', n.maybeStepDown term = .ok n' ∧ n'.timerMgr.due = false ∧ term ≤ n'.solid.term ∧
      (n'.state = .follower ↔ n.solid.term < term ∨ n.state = .follower) := by
  unfold maybeStepDown
  by_cases later : n.solid.term < term
  · simp [stepDown, check, later, later.le, TimerManager.againElection, setTerm, setVote, emit]
  · simp [later, calm, not_lt.mp later]

/-- The test of the handler comes down to its first comparison. -/
theorem enough_eq {lastTerm lastIndex : ℕ} :
    (decide (msg.lastLogTerm ≤ lastTerm) ||
      (decide (msg.lastLogTerm = lastTerm) && decide (msg.lastLogIndex ≤ lastIndex))) =
        decide (msg.lastLogTerm ≤ lastTerm) := by
  by_cases tie : msg.lastLogTerm = lastTerm <;> simp [tie]

/-- The node once it has noted that a transfer is under way, with no election due. -/
def transferring (n : Node) : Node :=
  { n with
    timerMgr := { n.timerMgr with due := false }
    leaderTransfer := true
    transferMaxTerm := n.solid.term + maxTransferTerm }

/-- What a started node does about a message without force. -/
theorem onTimeoutNow_plain (started : n.started = true) (plain : msg.force = false) :
    onTimeoutNow { n with timerMgr := { n.timerMgr with due := false } } msg = (do
      let n₁ ← n.transferring.maybeStepDown msg.term
      let n₁ ← n₁.check .timeoutNowTerm (msg.term ≤ n₁.solid.term)
      if msg.lastLogTerm ≤ n.lastTerm then
        if n₁.state = .follower then .ok { n₁ with timerMgr := n₁.timerMgr.startElection }
        else .ok n₁
      else .ok n₁) := by
  unfold onTimeoutNow
  rw [if_neg (by simp [started])]
  dsimp only
  rw [enough_eq]
  congr 1
  funext n₁
  congr 1
  funext n₂
  change (if (!msg.force && !decide (msg.lastLogTerm ≤ n.lastTerm)) = true then _ else _) = _
  by_cases enough : msg.lastLogTerm ≤ n.lastTerm <;> simp [enough, plain]

/-- A message without force makes a follower stand if the leader's last term is not
above its own. -/
theorem startsElection_iff (plain : msg.force = false) : n.StartsElection msg ↔
    n.started = true ∧ n.Follows msg ∧ msg.lastLogTerm ≤ n.lastTerm := by
  unfold StartsElection
  by_cases started : n.started = true
  · obtain ⟨n₁, down, calm, later, role⟩ :=
      @maybeStepDown_due n.transferring msg.term rfl
    replace role : n₁.state = .follower ↔ n.Follows msg := role
    rw [onTimeoutNow_plain started plain, down, ok_bind, check, if_pos later, ok_bind]
    by_cases enough : msg.lastLogTerm ≤ n.lastTerm
    · by_cases follower : n₁.state = .follower
      · simpa [enough, follower, started, TimerManager.startElection] using role.mp follower
      · simpa [enough, follower, calm, started] using mt role.mpr follower
    · simp [enough, calm]
  · simp [onTimeoutNow, started]

/-- A plain `TimeoutNow` is obeyed only by a node that could win the sender's vote, but
for one case: the last terms tie and the receiver's log is the shorter one. -/
theorem startsElection_couldWin_iff (plain : msg.force = false) :
    (n.StartsElection msg → n.CouldWin msg) ↔
      ¬(n.started = true ∧ n.Follows msg ∧ msg.lastLogTerm = n.lastTerm ∧
        n.lastIndex < msg.lastLogIndex) := by
  rw [startsElection_iff plain, couldWin_iff]
  constructor
  · rintro wins ⟨started, follows, tie, shorter⟩
    rcases wins ⟨started, follows, tie.le⟩ with above | ⟨-, reaches⟩
    · exact absurd above (not_lt.mpr tie.ge)
    · exact absurd reaches (not_le.mpr shorter)
  · rintro fair ⟨started, follows, le⟩
    rcases le.lt_or_eq with above | tie
    · exact .inl above
    · refine .inr ⟨tie.symm, ?_⟩
      by_contra shorter
      exact fair ⟨started, follows, tie, not_le.mp shorter⟩

/-- A node with one entry of term 2. -/
def behind : Node :=
  Node.boot ⟨2, [1, 3]⟩ ⟨false, false, false, {}⟩
    { Disk.fresh true with
      term := 2
      log := (Log.empty.appendFirstConfig ⟨2, [1, 3]⟩).appendOne ⟨2, .data, []⟩ }

/-- The leader of term 2 has one entry more. -/
def handOver : TimeoutNow :=
  ⟨1, 2, 2, 2, 2, false⟩

/-- It stands although the sender would not vote for it. -/
theorem startsElection_not_couldWin :
    ¬∀ (n : Node) (msg : TimeoutNow), msg.force = false → n.StartsElection msg → n.CouldWin msg := by
  intro agree
  have wins := agree behind handOver rfl
    ((startsElection_iff rfl).mpr (by decide +kernel))
  rw [couldWin_iff] at wins
  exact absurd wins (by decide +kernel)

/-- Once it has caught up it stands, and could win. -/
theorem startsElection_couldWin_iff_caughtUp :
    behind.started = true ∧ (behind.StartsElection { handOver with lastLogIndex := 1 } →
      behind.CouldWin { handOver with lastLogIndex := 1 }) :=
  ⟨rfl, (startsElection_couldWin_iff rfl).mpr (by decide +kernel)⟩

end Node

end Vraft
