import Vraft.Availability.Applied
import Vraft.Availability.Asserts
import Vraft.Availability.Heartbeats
import Vraft.Safety.Durability
import Vraft.Votes.Turns

/-!
# A heartbeat and its answer

One exchange between a leader and a follower of its group, followed forward.  A
follower that accepts holds the leader's log up to where the request ended and learns
what is committed there, and the leader counts it.  One that rejects makes the leader
step back, which it only does beyond what the follower is known to hold.
-/

namespace Vraft

section Follower

variable {rc : RaftConfig} {n n₁ n' : Node} {msg : AppendEntries} {now : ℤ}

theorem preLogMismatch_congr (log : n₁.log = n.log) (sm : n₁.sm = n.sm) {mismatch : Bool}
    (found : n₁.preLogMismatch msg = .ok mismatch) : n.preLogMismatch msg = .ok mismatch := by
  have last : n₁.lastIndex = n.lastIndex := by
    rw [Node.lastIndex, Node.lastIndex, Node.smLast, Node.smLast, log, sm]
  have term : n₁.getTerm msg.preLogIndex = n.getTerm msg.preLogIndex := by
    rw [Node.getTerm, Node.getTerm, log, sm]
  unfold Node.preLogMismatch at found ⊢
  rw [last, term, log] at found
  split
  · rename_i short
    rw [if_pos short] at found
    exact found
  · rename_i long
    rw [if_neg long] at found
    split
    · rename_i valid
      rw [if_pos valid] at found
      split
      · rename_i term found_eq
        rw [found_eq] at found
        exact found
      · rename_i missing
        rw [missing] at found
        contradiction
    · rename_i invalid
      rw [if_neg invalid] at found
      exact found

/-- A node that is not ahead of the sender answers in the term of the request.  It
learns what is committed unless its log does not match. -/
theorem onAppendEntries_answers (fixed : Fixed rc n)
    (plain : ∀ entry ∈ msg.entries, entry.appendEntry.Plain) (started : n.started = true)
    (le : n.solid.term ≤ msg.term) (done : n.onAppendEntries msg now = .ok n') :
    n'.solid.term = msg.term ∧ ∃ success last,
      .send (.appendEntriesReply (Node.appendReply msg msg.term success last)) ∈ n'.effects ∧
        (success = true → msg.commitIndex ≤ n'.commit) ∧
          (success = false → n.preLogMismatch msg = .ok true) := by
  unfold Node.onAppendEntries at done
  rw [started] at done
  simp only [Bool.not_true, Bool.false_eq_true, if_false] at done
  rw [if_neg le.not_gt] at done
  obtain ⟨n₁, heard, done⟩ := ok_of_bind_ok done
  obtain ⟨mismatch, compared, done⟩ := ok_of_bind_ok done
  have hears := Node.hears_hearLeader.of_ok heard
  have fixed₁ := fixed.congr hears.configMgr hears.log
  have term₁ : n₁.solid.term = msg.term := by
    unfold Node.followLeader Node.hearLeader at heard
    obtain ⟨n₂, down, rest⟩ := ok_of_bind_ok heard
    obtain ⟨n₃, down', stepped⟩ := stepDown_eq le
    rw [down] at down'
    obtain rfl := Except.ok.inj down'
    dsimp only at rest
    split at rest
    · obtain rfl := Except.ok.inj rest
      exact stepped.term
    · obtain ⟨-, rfl⟩ := of_check_ok rest
      exact stepped.term
  cases mismatch with
  | true =>
      obtain rfl := Except.ok.inj done
      exact ⟨term₁, false, _, List.mem_append_right _ (List.mem_singleton_self _), by simp,
        fun _ => preLogMismatch_congr hears.log hears.sm compared⟩
  | false =>
      obtain ⟨n₂, accepted, done⟩ := ok_of_bind_ok done
      obtain ⟨n₃, learned, done⟩ := ok_of_bind_ok done
      obtain rfl := Except.ok.inj done
      have still := (acceptEntries_still fixed₁ plain : Meets _ _ (Calm True)).of_ok accepted
      have still' := (learnCommit_still still.fixed _ : Meets _ _ (Calm True)).of_ok learned
      have commit := (Node.applies_learnCommit.of_ok learned).commit
      have term₂ : n₂.solid.term = n₁.solid.term := congrArg Seat.term still.seat
      have term₃ : n₃.solid.term = n₂.solid.term := congrArg Seat.term still'.seat
      refine ⟨(term₃.trans term₂).trans term₁, true, _,
        List.mem_append_right _ (List.mem_singleton_self _), fun _ => ?_, by simp⟩
      show msg.commitIndex ≤ n₃.commit
      rw [commit]
      exact le_max_right _ _

end Follower

section Leader

variable {m : Membership} {meets : m.Intersecting} {o : Origin m meets} {a : Ghost}
  {rc : RaftConfig} {n n₁ n' : Node} {group members : Finset Addr} {p q : Addr} {now : ℤ}

/-- The node still leads with the same log, and what it has committed stays. -/
structure Node.GoesOn (n n' : Node) : Prop where
  state : n'.state = n.state
  term : n'.solid.term = n.solid.term
  log : n'.log = n.log
  commit : n.commit ≤ n'.commit

theorem Node.GoesOn.trans (first : n.GoesOn n₁) (second : n₁.GoesOn n') : n.GoesOn n' where
  state := second.state.trans first.state
  term := second.term.trans first.term
  log := second.log.trans first.log
  commit := first.commit.trans second.commit

theorem of_check_bind {site : AssertSite} {c : Prop} [Decidable c] {next : Node → Outcome}
    (done : n.check site c >>= next = .ok n') : c ∧ next n = .ok n' := by
  obtain ⟨n₁, checked, rest⟩ := ok_of_bind_ok done
  obtain ⟨holds, rfl⟩ := of_check_ok checked
  exact ⟨holds, rest⟩

/-- Sending touches nothing else. -/
theorem sendAppendEntries_same {dest : Addr} (done : n.sendAppendEntries dest = .ok n') :
    n' = { n with
      indexMgr := n.indexMgr.touch dest
      snapshotMgr := n'.snapshotMgr
      effects := n'.effects } := by
  unfold Node.sendAppendEntries at done
  obtain ⟨-, done⟩ := of_check_bind done
  split at done
  · exact sendInstallSnapshot_same done
  · obtain ⟨term, -, done⟩ := ok_of_bind_ok done
    split at done
    · exact sendInstallSnapshot_same done
    · obtain ⟨entries, -, done⟩ := ok_of_bind_ok done
      obtain rfl := Except.ok.inj done
      rfl

/-- An advance of the commit index. -/
theorem maybeCommit_goesOn (fixed : Fixed rc n) (done : n.maybeCommit = .ok n') :
    n.GoesOn n' ∧ n'.indexMgr = n.indexMgr := by
  have still := (maybeCommit_still fixed : Meets _ _ (Calm True)).of_ok done
  have state : n'.state = n.state := congrArg Seat.state still.seat
  have term : n'.solid.term = n.solid.term := congrArg Seat.term still.seat
  unfold Node.maybeCommit at done
  obtain ⟨-, rest⟩ := of_check_bind done
  dsimp only at rest
  split at rest
  · obtain rfl := Except.ok.inj rest
    exact ⟨⟨rfl, rfl, rfl, le_rfl⟩, rfl⟩
  · rename_i above
    obtain ⟨-, rest⟩ := of_check_bind rest
    split at rest
    · contradiction
    split at rest
    · obtain rfl := Except.ok.inj rest
      exact ⟨⟨rfl, rfl, rfl, le_rfl⟩, rfl⟩
    · obtain ⟨-, rest⟩ := of_check_bind rest
      have applies := Node.applies_stateMachineApply.of_ok rest
      refine ⟨⟨state, term, applies.log, ?_⟩, applies.indexMgr⟩
      rw [applies.commit]
      exact (not_le.mp above).le

/-- A leader commits its last entry if that is of its term and a majority holds it. -/
theorem maybeCommit_last (done : n.maybeCommit = .ok n')
    (held : n.lastIndex ≤ n.indexMgr.majorityMax n.lastIndex) (own : n.lastTerm = n.solid.term)
    (inLog : n.smLast ≤ n.log.last) (nonempty : 0 < n.log.last) : n.lastIndex ≤ n'.commit := by
  have last : n.lastIndex = n.log.last := max_eq_right inLog
  unfold Node.maybeCommit at done
  obtain ⟨-, rest⟩ := of_check_bind done
  dsimp only at rest
  split at rest
  · rename_i committed
    obtain rfl := Except.ok.inj rest
    exact held.trans committed
  · obtain ⟨-, rest⟩ := of_check_bind rest
    split at rest
    · contradiction
    rename_i found metaFound
    have inside : n.indexMgr.majorityMax n.lastIndex = n.log.last := by
      obtain ⟨entry, at_, -⟩ := Option.map_eq_some_iff.mp metaFound
      have get : n.log.get (n.indexMgr.majorityMax n.lastIndex) =
          some ⟨n.indexMgr.majorityMax n.lastIndex, entry⟩ := by
        rw [Log.get, at_]
        rfl
      exact le_antisymm (n.log.index_le_last get) (last ▸ held)
    split at rest
    · rename_i other
      refine absurd ?_ other
      rw [Node.lastTerm, if_pos inLog, if_neg nonempty.ne', ← inside, metaFound] at own
      exact own
    · obtain ⟨-, rest⟩ := of_check_bind rest
      have applies := Node.applies_stateMachineApply.of_ok rest
      rw [applies.commit]
      exact held

/-- What a group has reached that is more than half of the members. -/
theorem majorityMax_of_group {indices : IndexManager} {last : ℕ}
    (follow : PeersOf members p indices.keys) (sub : group ⊆ members)
    (more : members.card < 2 * group.card)
    (all : ∀ q ∈ group, q ≠ p → last ≤ indices.getMatch q) : last ≤ indices.majorityMax last := by
  refine (IndexManager.majorityMax_greatest follow).2 ?_
  rw [Set.mem_ofPred_eq]
  have reached : group ⊆ indices.reached p last members last := by
    intro q mem
    refine Finset.mem_filter.mpr ⟨sub mem, ?_⟩
    unfold IndexManager.matchOf
    split
    · exact le_rfl
    · rename_i other
      exact all q mem other
  have := Finset.card_le_card reached
  omega

/-! ## Counting a reply -/

/-- The indices of the other peers are as before. -/
def Node.KeepsOthers (src : Addr) (n n' : Node) : Prop :=
  ∀ q, q ≠ src → n'.indexMgr.val q = n.indexMgr.val q

/-- A success raises the match index, puts the next index behind it and lets the
leader commit. -/
theorem onMatch_counts {msg : AppendEntriesReply} (fixed : Fixed rc n)
    (mem : msg.src ∈ n.indexMgr.keys) (done : n.onMatch msg = .ok n') :
    n.GoesOn n' ∧ n.KeepsOthers msg.src n' ∧
      n'.indexMgr.getMatch msg.src =
        max (n.indexMgr.getMatch msg.src) (msg.reqPreIndex + msg.reqNumEntries) ∧
      n'.indexMgr.getNext msg.src = n'.indexMgr.getMatch msg.src + 1 ∧
      (n.indexMgr.getMatch msg.src ≤ msg.reqPreIndex + msg.reqNumEntries → ∃ n₁,
        Node.maybeCommit { n with
          indexMgr := n.indexMgr.setMatch msg.src (msg.reqPreIndex + msg.reqNumEntries) } = .ok n₁ ∧
        n'.commit = n₁.commit) := by
  unfold Node.onMatch at done
  obtain ⟨n₁, raised, rest⟩ := ok_of_bind_ok done
  obtain rfl := Except.ok.inj rest
  have item (q : Addr) : (n₁.indexMgr.setNext msg.src (n₁.indexMgr.getMatch msg.src + 1)).val q =
      if q = msg.src then ⟨n₁.indexMgr.getMatch msg.src + 1, n₁.indexMgr.getMatch msg.src⟩
      else n₁.indexMgr.val q := by
    rw [IndexManager.setNext, Table.set_val]
    rfl
  have match_ : (n₁.indexMgr.setNext msg.src (n₁.indexMgr.getMatch msg.src + 1)).getMatch msg.src =
      n₁.indexMgr.getMatch msg.src := by
    rw [IndexManager.getMatch, item, if_pos rfl]
  have next : (n₁.indexMgr.setNext msg.src (n₁.indexMgr.getMatch msg.src + 1)).getNext msg.src =
      n₁.indexMgr.getMatch msg.src + 1 := by
    rw [IndexManager.getNext, item, if_pos rfl]
  have others (kept : n.KeepsOthers msg.src n₁) (q : Addr) (ne : q ≠ msg.src) :
      (n₁.indexMgr.setNext msg.src (n₁.indexMgr.getMatch msg.src + 1)).val q = n.indexMgr.val q := by
    rw [item, if_neg ne]
    exact kept q ne
  unfold Node.raiseMatch at raised
  rw [touch_of_mem mem] at raised
  dsimp only at raised
  split at raised
  · rename_i older
    obtain rfl := Except.ok.inj raised
    refine ⟨⟨rfl, rfl, rfl, le_rfl⟩, others fun _ _ => rfl, ?_, ?_, fun newer => absurd newer ?_⟩
    · rw [match_]
      exact (max_eq_left older.le).symm
    · rw [next, match_]
    · exact not_le.mpr older
  · rename_i newer
    have fixed' : Fixed rc { n with
        indexMgr := n.indexMgr.setMatch msg.src (msg.reqPreIndex + msg.reqNumEntries) } :=
      fixed.congr rfl rfl
    obtain ⟨goesOn, indices⟩ := maybeCommit_goesOn fixed' raised
    have acked : n₁.indexMgr.getMatch msg.src = msg.reqPreIndex + msg.reqNumEntries := by
      rw [indices, IndexManager.getMatch, IndexManager.setMatch, Table.set_val_self]
    refine ⟨⟨goesOn.state, goesOn.term, goesOn.log, goesOn.commit⟩, others fun q ne => ?_, ?_, ?_,
      fun _ => ⟨n₁, raised, rfl⟩⟩
    · rw [indices, IndexManager.setMatch, Table.set_val_of_ne _ ne]
    · rw [match_, acked]
      exact (max_eq_right (not_lt.mp newer)).symm
    · rw [next, match_]

/-- A rejection lowers the next index. -/
theorem onMismatch_counts {msg : AppendEntriesReply} (mem : msg.src ∈ n.indexMgr.keys)
    (above : 1 < n.indexMgr.getNext msg.src) :
    n.GoesOn (n.onMismatch msg) ∧ n.KeepsOthers msg.src (n.onMismatch msg) ∧
      (n.onMismatch msg).indexMgr.getMatch msg.src = n.indexMgr.getMatch msg.src ∧
      (n.onMismatch msg).indexMgr.getNext msg.src < n.indexMgr.getNext msg.src := by
  have lower (indices : IndexManager) (next : ℕ) :
      (indices.setNext msg.src next).getMatch msg.src = indices.getMatch msg.src ∧
        (indices.setNext msg.src next).getNext msg.src = next ∧
        ∀ q, q ≠ msg.src → (indices.setNext msg.src next).val q = indices.val q := by
    refine ⟨?_, ?_, fun q ne => Table.set_val_of_ne _ ne _⟩
    · rw [IndexManager.getMatch, IndexManager.setNext, Table.set_val_self]
      rfl
    · rw [IndexManager.getNext, IndexManager.setNext, Table.set_val_self]
  obtain ⟨match_, next, others⟩ := lower n.indexMgr (n.indexMgr.getNext msg.src - 1)
  have indices : (n.onMismatch msg).indexMgr =
      if msg.lastLogIndex + 1 < n.indexMgr.getNext msg.src - 1 then
        (n.indexMgr.setNext msg.src (n.indexMgr.getNext msg.src - 1)).setNext msg.src
          (msg.lastLogIndex + 1)
      else n.indexMgr.setNext msg.src (n.indexMgr.getNext msg.src - 1) := by
    unfold Node.onMismatch
    dsimp only
    rw [touch_of_mem mem, if_pos above, next]
  refine ⟨⟨rfl, rfl, rfl, le_rfl⟩, ?_⟩
  unfold Node.KeepsOthers
  rw [indices]
  split
  · rename_i shorter
    obtain ⟨match', next', others'⟩ :=
      lower (n.indexMgr.setNext msg.src (n.indexMgr.getNext msg.src - 1)) (msg.lastLogIndex + 1)
    refine ⟨fun q ne => (others' q ne).trans (others q ne), match'.trans match_, ?_⟩
    omega
  · refine ⟨others, match_, ?_⟩
    omega

/-- A reply that is up to date changes the indices, and perhaps the leader sends
again. -/
theorem onAppendEntriesReply_counts {msg : AppendEntriesReply} (started : n.started = true)
    (term : msg.term = n.solid.term) (reqTerm : msg.reqTerm = n.solid.term)
    (done : n.onAppendEntriesReply msg = .ok n') :
    ∃ n₁, n.onIndexReply msg = .ok n₁ ∧ n₁.GoesOn n' ∧ n'.indexMgr.val = n₁.indexMgr.val ∧
      n'.commit = n₁.commit := by
  unfold Node.onAppendEntriesReply at done
  rw [started] at done
  simp only [Bool.not_true, Bool.false_eq_true, if_false] at done
  rw [if_neg term.not_lt, if_neg (not_not.mpr reqTerm)] at done
  obtain ⟨-, done⟩ := of_check_bind done
  rw [if_neg term.not_gt] at done
  obtain ⟨-, done⟩ := of_check_bind done
  obtain ⟨n₁, counted, rest⟩ := ok_of_bind_ok done
  refine ⟨n₁, counted, ?_⟩
  split at rest
  · obtain ⟨n₂, sent, rest⟩ := ok_of_bind_ok rest
    obtain rfl := Except.ok.inj rest
    rw [sendAppendEntries_same sent]
    exact ⟨⟨rfl, rfl, rfl, le_rfl⟩, Table.touch_val _ _, rfl⟩
  · obtain rfl := Except.ok.inj rest
    exact ⟨⟨rfl, rfl, rfl, le_rfl⟩, rfl, rfl⟩

end Leader

section Cluster

variable {m : Membership} {meets : m.Intersecting} {o : Origin m meets} {a : Ghost}
  {group : Finset Addr} {now : ℤ} {s s' s'' : Cluster} {n : Node} {p q : Addr}
  {full : List AppendEntry} {msg : AppendEntries}

theorem Sim.fixed (sim : Sim m meets s a) (mem : p ∈ m.members) :
    Fixed (m.config p) (s.node p) where
  current := (sim.live p mem).config
  configs := (sim.live p mem).configs
  plain := by
    have entries : (s.node p).log.entries = a.log p := (sim.live p mem).entries
    rw [entries]
    exact (sim.live p mem).plain

/-- A member that is not in a later term holds what the leader counts for it. -/
theorem Sim.held_of_match (sim : Sim m meets s a) (memP : p ∈ m.members) (memQ : q ∈ m.members)
    (ne : q ≠ p) (leader : (s.node p).state = .leader)
    (le : (s.node q).solid.term ≤ (s.node p).solid.term) :
    (s.node p).log.entries.take ((s.node p).indexMgr.getMatch q) <+: (s.node q).log.entries := by
  obtain ⟨leads, log⟩ := sim.tlog_of_leader memP leader
  have live := sim.live p memP
  have term : (s.node p).solid.term = a.term p := live.term
  have termQ : (s.node q).solid.term = a.term q := (sim.live q memQ).term
  have entries : (s.node q).log.entries = a.log q := (sim.live q memQ).entries
  have acked := live.match_le leader q (Membership.mem_peersOf.mpr ⟨memQ, ne⟩)
  rw [log, entries]
  exact sim.inv.acks.kept acked fun w later earlier => by omega

/-- A log that starts as the leader's does up to the entry before those sent
matches. -/
theorem At.preLogMismatch_held (at_ : At o a n)
    (held : full.take msg.preLogIndex <+: n.log.entries) (bound : msg.preLogIndex ≤ full.length)
    (preTerm : msg.preLogTerm = termAt full msg.preLogIndex) : n.preLogMismatch msg = .ok false := by
  have entries : n.log.entries = a.log o.p := at_.live.entries
  have taken : (full.take msg.preLogIndex).length = msg.preLogIndex := by
    rw [List.length_take, min_eq_left bound]
  rw [entries] at held
  have inside : msg.preLogIndex ≤ (a.log o.p).length := by
    rw [← taken]
    exact held.length_le
  have same : termAt (a.log o.p) msg.preLogIndex = termAt full msg.preLogIndex := by
    rw [termAt_of_le held taken.ge, termAt_of_le (List.take_prefix _ full) taken.ge]
  unfold Node.preLogMismatch
  rw [at_.lastIndex_eq, if_neg (by omega), at_.getTerm_eq inside, preTerm, same]
  split
  · simp
  · rfl

/-- A leader with the log `full`, which ends with an entry of its term.  Nobody in
its group is in a later one. -/
structure Ruling (m : Membership) (group : Finset Addr) (p : Addr) (full : List AppendEntry)
    (s : Cluster) : Prop where
  reachable : s.Reachable m Cluster.Whole
  leader : (s.node p).state = .leader
  log : (s.node p).log.entries = full
  nonempty : full ≠ []
  own : Consensus.lastTerm AppendEntry.term full = (s.node p).solid.term
  terms : ∀ q ∈ group, (s.node q).solid.term ≤ (s.node p).solid.term

/-- Only the leader and one follower have moved, and what the leader has committed
and knows of the others has stayed. -/
structure Apart (p q : Addr) (s s' : Cluster) : Prop where
  others : ∀ r, r ≠ p → r ≠ q → s'.node r = s.node r
  commit : (s.node p).commit ≤ (s'.node p).commit
  indices : (s.node p).KeepsOthers q (s'.node p)

theorem Apart.refl (p q : Addr) (s : Cluster) : Apart p q s s :=
  ⟨fun _ _ _ => rfl, le_rfl, fun _ _ => rfl⟩

theorem Apart.trans (first : Apart p q s s') (second : Apart p q s' s'') : Apart p q s s'' where
  others r neP neQ := (second.others r neP neQ).trans (first.others r neP neQ)
  commit := first.commit.trans second.commit
  indices r ne := (second.indices r ne).trans (first.indices r ne)

/-- What the leader has sent the follower once it accepts. -/
def Node.sentTo (n : Node) (q : Addr) : ℕ :=
  if n.indexMgr.getNext q ≤ n.log.last then n.indexMgr.getNext q else n.indexMgr.getNext q - 1

/-- The follower has accepted: it is counted, and each of the two knows what the other
has told it. -/
structure Matched (group : Finset Addr) (p q : Addr) (s s' : Cluster) : Prop where
  match_ : (s'.node p).indexMgr.getMatch q =
    max ((s.node p).indexMgr.getMatch q) ((s.node p).sentTo q)
  next : (s'.node p).indexMgr.getNext q = (s'.node p).indexMgr.getMatch q + 1
  learns : min (s.node p).commit ((s.node p).sentTo q) ≤ (s'.node q).commit
  commits : (s.node p).indexMgr.getMatch q ≤ (s.node p).sentTo q →
    (∀ r ∈ group, r ≠ p → (s.node p).log.last ≤ (s'.node p).indexMgr.getMatch r) →
      (s.node p).log.last ≤ (s'.node p).commit

/-- The follower has rejected, and the leader has stepped back. -/
structure Missed (p q : Addr) (s s' : Cluster) : Prop where
  match_ : (s'.node p).indexMgr.getMatch q = (s.node p).indexMgr.getMatch q
  next : (s'.node p).indexMgr.getNext q < (s.node p).indexMgr.getNext q
  ahead : (s.node p).indexMgr.getMatch q + 1 < (s.node p).indexMgr.getNext q

/-- What has been sent is where the request ends. -/
theorem AppendEntries.Of.sentTo (of : AppendEntries.Of n q msg) (inLog : n.smLast ≤ n.log.last) :
    msg.preLogIndex + msg.entries.length = n.sentTo q := by
  have last : n.lastIndex = n.log.last := max_eq_right inLog
  have pre := of.preLogIndex
  unfold Node.sentTo
  split
  · rename_i inside
    have := of.entries (inside.trans_eq last.symm)
    omega
  · rename_i outside
    rw [of.done (by omega), List.length_nil]
    omega

/-- A follower that holds what it is counted for rejects nothing that starts there. -/
theorem Ruling.ahead_of_mismatch (maj : Majority m group now) (memP : p ∈ group)
    (memQ : q ∈ group) (ne : q ≠ p) (ruling : Ruling m group p full s)
    (of : AppendEntries.Of (s.node p) q msg) (sent : s.InFlight m (.appendEntries msg))
    (differs : (s.node q).preLogMismatch msg = .ok true) :
    (s.node p).indexMgr.getMatch q + 1 < (s.node p).indexMgr.getNext q := by
  obtain ⟨a, sim⟩ := Sim.of_reachable (Or.inl maj.odd) ruling.reachable
  obtain ⟨leads, log⟩ := sim.tlog_of_leader (maj.mem memP) ruling.leader
  have ok : AppendOk m _ a msg := (sim.message sent).2
  have term : msg.term = a.term p := of.term.trans (sim.live p (maj.mem memP)).term
  have pre := of.preLogIndex
  have pre_le := ok.pre_le
  have preTerm := ok.preTerm
  rw [term, ← log] at pre_le preTerm
  by_contra behind
  have held := sim.held_of_match (maj.mem memP) (maj.mem memQ) ne ruling.leader
    (ruling.terms q memQ)
  have start : (s.node p).log.entries.take msg.preLogIndex <+: (s.node q).log.entries :=
    (List.take_prefix_take_left (by omega)).trans held
  have matches_ := (sim.start (maj.mem memQ)).preLogMismatch_held start pre_le preTerm
  rw [matches_] at differs
  cases differs

/-- A leader goes on. -/
theorem Ruling.goesOn (ruling : Ruling m group p full s) (reachable : s'.Reachable m Cluster.Whole)
    (leader : (s.node p).GoesOn (s'.node p))
    (terms : ∀ q ∈ group, (s'.node q).solid.term ≤ (s.node p).solid.term) :
    Ruling m group p full s' where
  reachable := reachable
  leader := leader.state.trans ruling.leader
  log := by rw [leader.log, ruling.log]
  nonempty := ruling.nonempty
  own := by rw [leader.term, ruling.own]
  terms q mem := by
    rw [leader.term]
    exact terms q mem

/-- A heartbeat of the leader and what the follower makes of it. -/
theorem Ruling.answer (maj : Majority m group now) (memP : p ∈ group) (memQ : q ∈ group)
    (ne : q ≠ p) (ruling : Ruling m group p full s) :
    ∃ s' msg success last, Cluster.AmongRun m group now s s' ∧ Ruling m group p full s' ∧
      (∀ r, r ≠ q → s'.node r = s.node r) ∧ AppendEntries.Of (s.node p) q msg ∧
      s'.InFlight m (.appendEntriesReply (Node.appendReply msg msg.term success last)) ∧
      (success = true → msg.commitIndex ≤ (s'.node q).commit) ∧
      (success = false →
        (s.node p).indexMgr.getMatch q + 1 < (s.node p).indexMgr.getNext q) := by
  have runP := running_of_reachable maj.odd ruling.reachable (maj.mem memP)
  have runQ := running_of_reachable maj.odd ruling.reachable (maj.mem memQ)
  obtain ⟨s₁, msg, first, nodes, of, sent⟩ :=
    beat maj ruling.reachable memP memQ ne ruling.leader
  have reachable₁ := Cluster.AmongRun.reachable maj ruling.reachable (.single first)
  obtain ⟨a, sim⟩ := Sim.of_reachable (Or.inl maj.odd) reachable₁
  have ok : AppendOk m _ a msg := (sim.message sent).2
  have ruling₁ : Ruling m group p full s₁ := by
    refine ruling.goesOn reachable₁ ?_ ?_
    · rw [nodes]
      exact ⟨rfl, rfl, rfl, le_rfl⟩
    · rw [nodes]
      exact ruling.terms
  have enabled : s₁.Enabled m q (.recv (.appendEntries msg) now) := ⟨sent, of.dest⟩
  obtain ⟨n, answered⟩ := sim.handle_ok (maj.mem memQ) enabled trivial
  have started : (s₁.node q).started = true := by
    rw [nodes]
    exact runQ.started
  have le : (s₁.node q).solid.term ≤ msg.term := by
    rw [nodes, of.term]
    exact ruling.terms q memQ
  obtain ⟨term, success, last, replied, learns, rejects⟩ :=
    onAppendEntries_answers (sim.fixed (maj.mem memQ)) ok.plain started le answered
  have second : Cluster.Among m group now s₁ (s₁.update q n n.effects) := by
    refine .handle q memQ (.recv (.appendEntries msg) now) ⟨?_, rfl⟩ trivial enabled n answered
    show msg.src ∈ group
    rw [of.src, runP.me]
    exact memP
  set s₂ := s₁.update q n n.effects with s₂_eq
  have run : Cluster.AmongRun m group now s s₂ := .tail (.single first) second
  have others (r : Addr) (neQ : r ≠ q) : s₂.node r = s.node r := by
    rw [Cluster.update_node_of_ne _ _ neQ, nodes]
  have nodeQ : s₂.node q = { n with effects := [] } := Cluster.update_node_self n _
  refine ⟨s₂, msg, success, last, run, ?_, others, of,
    Cluster.inFlight_update (maj.mem memQ) replied, ?_, ?_⟩
  · refine ruling.goesOn (Cluster.AmongRun.reachable maj ruling.reachable run) ?_ fun r mem => ?_
    · rw [others p ne.symm]
      exact ⟨rfl, rfl, rfl, le_rfl⟩
    · by_cases same : r = q
      · rw [same, nodeQ]
        exact (term.trans of.term).le
      · rw [others r same]
        exact ruling.terms r mem
  · rw [nodeQ]
    exact learns
  · intro rejected
    have ahead := ruling₁.ahead_of_mismatch maj memP memQ ne (by rw [nodes]; exact of) sent
      (rejects rejected)
    rw [nodes] at ahead
    exact ahead

/-- Once the group holds the last entry, the leader commits it. -/
theorem Ruling.commits (maj : Majority m group now) (memP : p ∈ group)
    (ruling : Ruling m group p full s) {indices : IndexManager} (keys : indices.keys = m.peersOf p)
    (all : ∀ r ∈ group, r ≠ p → (s.node p).log.last ≤ indices.getMatch r)
    (done : Node.maybeCommit { s.node p with indexMgr := indices } = .ok n) :
    (s.node p).log.last ≤ n.commit := by
  obtain ⟨a, sim⟩ := Sim.of_reachable (Or.inl maj.odd) ruling.reachable
  have at_ := sim.start (maj.mem memP)
  have log : a.log p = full := (sim.live p (maj.mem memP)).entries.symm.trans ruling.log
  have lastIndex : (s.node p).lastIndex = (s.node p).log.last := max_eq_right at_.smLast_le
  have nonempty : 0 < (s.node p).log.last := by
    rw [at_.last_eq]
    show 0 < (a.log p).length
    rw [log]
    exact List.length_pos_iff.mpr ruling.nonempty
  have own : (s.node p).lastTerm = (s.node p).solid.term := by
    rw [at_.lastTerm_eq, ← ruling.own, ← log]
    rfl
  have follow : PeersOf m.members.toFinset p indices.keys :=
    ⟨List.mem_toFinset.mpr (maj.mem memP), fun q => by
      rw [keys, Membership.mem_peersOf, List.mem_toFinset]⟩
  have more : m.members.toFinset.card < 2 * group.card := by
    rw [m.card_members]
    exact maj.more
  have held := majorityMax_of_group follow maj.sub more all
  rw [← lastIndex] at held ⊢
  exact @maybeCommit_last { s.node p with indexMgr := indices } n done held own at_.smLast_le nonempty

/-- One heartbeat and its answer. -/
theorem Ruling.exchange (maj : Majority m group now) (memP : p ∈ group) (memQ : q ∈ group)
    (ne : q ≠ p) (ruling : Ruling m group p full s) :
    ∃ s', Cluster.AmongRun m group now s s' ∧ Ruling m group p full s' ∧ Apart p q s s' ∧
      (Matched group p q s s' ∨ Missed p q s s') := by
  obtain ⟨s₁, msg, success, last, run₁, ruling₁, others₁, of, sent, learns, ahead⟩ :=
    ruling.answer maj memP memQ ne
  have runP := running_of_reachable maj.odd ruling₁.reachable (maj.mem memP)
  obtain ⟨a, sim⟩ := Sim.of_reachable (Or.inl maj.odd) ruling₁.reachable
  have at_ := sim.start (maj.mem memP)
  have fixed := sim.fixed (maj.mem memP)
  have nodeP : s₁.node p = s.node p := others₁ p ne.symm
  rw [nodeP] at runP at_ fixed
  have src : msg.src = p := by rw [of.src, runP.me]
  have keys : (s.node p).indexMgr.keys = m.peersOf p := at_.live.indicesOf
  have known : q ∈ (s.node p).indexMgr.keys := by
    rw [keys]
    exact maj.peer memQ ne
  set reply := Node.appendReply msg msg.term success last with reply_eq
  have replier : reply.src = q := of.dest
  have enabled : s₁.Enabled m p (.recv (.appendEntriesReply reply) now) := ⟨sent, src⟩
  obtain ⟨n', heard⟩ := sim.handle_ok (maj.mem memP) enabled fun _ _ => ruling₁.leader
  have step : Cluster.Among m group now s₁ (s₁.update p n' n'.effects) := by
    refine .handle p memP (.recv (.appendEntriesReply reply) now) ⟨?_, rfl⟩ trivial enabled n' heard
    show reply.src ∈ group
    rw [replier]
    exact memQ
  rw [nodeP] at heard
  obtain ⟨n₁, counted, goesOn, val, commit⟩ :=
    onAppendEntriesReply_counts runP.started of.term of.term heard
  set s₂ := s₁.update p n' n'.effects with s₂_eq
  have node : s₂.node p = { n' with effects := [] } := Cluster.update_node_self n' _
  have others (r : Addr) (neP : r ≠ p) : s₂.node r = s₁.node r :=
    Cluster.update_node_of_ne _ _ neP
  have run : Cluster.AmongRun m group now s s₂ := run₁.tail step
  have advances (before : (s.node p).GoesOn n₁) (indices : (s.node p).KeepsOthers q n₁) :
      Ruling m group p full s₂ ∧ Apart p q s s₂ := by
    have after : (s.node p).GoesOn (s₂.node p) := by
      rw [node]
      exact before.trans ⟨goesOn.state, goesOn.term, goesOn.log, goesOn.commit⟩
    refine ⟨?_, fun r neP neQ => ?_, after.commit, fun r neQ => ?_⟩
    · refine ruling.goesOn (Cluster.AmongRun.reachable maj ruling.reachable run) after fun r mem => ?_
      by_cases same : r = p
      · rw [same]
        exact after.term.le
      · rw [others r same, ← nodeP]
        exact ruling₁.terms r mem
    · rw [others r neP]
      exact others₁ r neQ
    · rw [node]
      exact (congrFun val r).trans (indices r neQ)
  cases success with
  | true =>
      have acked : reply.reqPreIndex + reply.reqNumEntries = (s.node p).sentTo q :=
        of.sentTo at_.smLast_le
      obtain ⟨before, indices, match_, next, commits⟩ :=
        onMatch_counts fixed (replier ▸ known) counted
      rw [replier] at indices match_ next commits
      rw [acked] at match_ commits
      obtain ⟨ruling₂, apart⟩ := advances before indices
      have matchOf : (s₂.node p).indexMgr.getMatch q = n₁.indexMgr.getMatch q := by
        rw [node, IndexManager.getMatch, val]
        rfl
      have nextOf : (s₂.node p).indexMgr.getNext q = n₁.indexMgr.getNext q := by
        rw [node, IndexManager.getNext, val]
        rfl
      refine ⟨s₂, run, ruling₂, apart, .inl ⟨matchOf.trans match_, ?_, ?_, fun newer all => ?_⟩⟩
      · rw [nextOf, matchOf]
        exact next
      · rw [others q ne]
        have told := learns rfl
        rw [of.commitIndex] at told
        exact (le_of_eq (by rw [← acked]; rfl)).trans told
      · obtain ⟨n₂, done, same⟩ := commits newer
        have counts : ∀ r ∈ group, r ≠ p → (s.node p).log.last ≤
            ((s.node p).indexMgr.setMatch q ((s.node p).sentTo q)).getMatch r := by
          intro r mem neP
          have reached := all r mem neP
          rw [IndexManager.getMatch, IndexManager.setMatch]
          by_cases isQ : r = q
          · rw [isQ, matchOf, match_, max_eq_right newer] at reached
            rw [isQ, Table.set_val_self]
            exact reached
          · rw [Table.set_val_of_ne _ isQ, ← apart.indices r isQ]
            exact reached
        rw [node]
        show _ ≤ n'.commit
        rw [commit, same]
        exact ruling.commits maj memP ((Table.set_keys_of_mem _ known _).trans keys) counts done
  | false =>
      obtain rfl := Except.ok.inj counted
      have above : 1 < (s.node p).indexMgr.getNext reply.src := by
        have := ahead rfl
        rw [replier]
        omega
      obtain ⟨before, indices, match_, next⟩ := onMismatch_counts (replier ▸ known) above
      rw [replier] at indices match_ next
      obtain ⟨ruling₂, apart⟩ := advances before indices
      refine ⟨s₂, run, ruling₂, apart, .inr ⟨?_, ?_, ahead rfl⟩⟩
      · rw [node, IndexManager.getMatch, val]
        exact match_
      · rw [node, IndexManager.getNext, val]
        exact next

end Cluster

end Vraft
