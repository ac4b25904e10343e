import Vraft.Refine.Commit
import Vraft.Refine.Election

/-!
# Log replication refines the protocol

A leader sends slices of the log of its term.  A follower that accepts one holds
the log of the term up to the end of the slice and acknowledges it, and the
leader raises its table by what has been acknowledged.
-/

namespace Vraft

open Consensus (Chosen Committed)

section Replication

variable {m : Membership} {meets : m.Intersecting} {o : Origin m meets} {a a' : Ghost} {n : Node}

/-! ## Sending -/

theorem At.getTerm_eq (at_ : At o a n) {index : ℕ} (bound : index ≤ (a.log o.p).length) :
    n.getTerm index = some (termAt (a.log o.p) index) := by
  by_cases zero : index = 0
  · simp [Node.getTerm, termAt, zero]
  · obtain ⟨entry, at_index⟩ : ∃ entry, (a.log o.p)[index - 1]? = some entry :=
      ⟨_, List.getElem?_eq_getElem (by omega)⟩
    have meta_eq : n.log.getMeta index = some ⟨entry.term, entry.type⟩ := by
      rw [Log.getMeta, at_.entryAt_eq (by omega), at_index]
      rfl
    simp [Node.getTerm, termAt, zero, meta_eq, at_index]

theorem At.preTermOf_eq (at_ : At o a n) {index : ℕ} (bound : index ≤ (a.log o.p).length) :
    n.preTermOf index = .ok (some (termAt (a.log o.p) index)) := by
  have first_le := Log.first_le_one (l := n.log) at_.live.base
  rw [Node.preTermOf]
  split
  · rw [at_.getTerm_eq bound]
  · have zero : index = 0 := by omega
    rw [if_pos zero, zero]
    rfl

theorem At.entriesAt_eq (at_ : At o a n) {next : ℕ} (positive : 0 < next) :
    ∃ entries, n.entriesAt next = .ok entries ∧ SliceAt (a.log o.p) (next - 1) entries ∧
      ∀ entry ∈ entries, entry.appendEntry.Plain := by
  have base : n.log.base = 0 := at_.live.base
  have entries_eq : n.log.entries = a.log o.p := at_.live.entries
  rw [Node.entriesAt]
  split
  · rename_i valid
    have bound := ((Log.indexValid_of_base_zero base next).mp valid).2
    rw [entries_eq] at bound
    obtain ⟨entry, at_next⟩ : ∃ entry, (a.log o.p)[next - 1]? = some entry :=
      ⟨_, List.getElem?_eq_getElem (by omega)⟩
    have found : n.log.get next = some ⟨next, entry⟩ := by
      rw [Log.get, at_.entryAt_eq positive, at_next]
      rfl
    refine ⟨[⟨next, entry⟩], by rw [found], ⟨?_, at_next, trivial⟩, ?_⟩
    · show next = next - 1 + 1
      omega
    · intro sent mem
      obtain rfl := List.mem_singleton.mp mem
      exact at_.live.plain entry (List.mem_of_getElem? at_next)
  · exact ⟨[], rfl, trivial, by simp⟩

/-- New indices of a leader, within the bounds of its log and of what has been
acknowledged. -/
theorem At.reindex (at_ : At o a n) {indices : IndexManager}
    (keys : indices.keys = m.peersOf o.p)
    (match_le : n.state = .leader → ∀ q ∈ m.peersOf o.p,
      indices.getMatch q ≤ a.acked (a.term o.p) q)
    (next_pos : n.state = .leader → ∀ q ∈ m.peersOf o.p, 1 ≤ indices.getNext q)
    (next_le : n.state = .leader → ∀ q ∈ m.peersOf o.p,
      indices.getNext q ≤ (a.log o.p).length + 1) :
    At o a { n with indexMgr := indices } :=
  at_.quiet rfl rfl { at_.live with
    indicesOf := keys
    match_le := match_le
    next_pos := next_pos
    next_le := next_le }

theorem At.touch (at_ : At o a n) {q : Addr} (mem : q ∈ m.peersOf o.p) :
    At o a { n with indexMgr := n.indexMgr.touch q } := by
  have keys : n.indexMgr.keys = m.peersOf o.p := at_.live.indicesOf
  have val_eq : (n.indexMgr.touch q).val = n.indexMgr.val := Table.touch_val _ _
  refine at_.reindex ((Table.touch_keys_of_mem _ (keys ▸ mem)).trans keys) ?_ ?_ ?_
  · simp only [IndexManager.getMatch, val_eq]
    exact at_.live.match_le
  · simp only [IndexManager.getNext, val_eq]
    exact at_.live.next_pos
  · simp only [IndexManager.getNext, val_eq]
    exact at_.live.next_le

/-- What a committed prefix says to the outside. -/
theorem Backed.of_committed {p : Addr} {count : ℕ}
    (committed : Committed AppendEntry.term (m.quorums meets) a p count) :
    Backed m meets a (a.term p) count := by
  rcases committed with rfl | ⟨t, chosen, isChosen, le, before, -⟩
  · exact Or.inl rfl
  · exact Or.inr ⟨t, chosen, isChosen, le, before⟩

theorem sendAppendEntries_ends (at_ : At o a n) (leader : n.state = .leader) {dest : Addr}
    (peer : dest ∈ m.peersOf o.p) :
    Ends o (n.sendAppendEntries dest) fun _ n' => n'.state = .leader := by
  have touched := at_.touch peer
  rw [Node.sendAppendEntries]
  set n₁ : Node := { n with indexMgr := n.indexMgr.touch dest } with n₁_eq
  set next := n₁.indexMgr.getNext dest with next_eq
  have positive : 1 ≤ next := touched.live.next_pos leader dest peer
  have next_le : next ≤ (a.log o.p).length + 1 := touched.live.next_le leader dest peer
  have log_eq := at_.inv.logs.leader_log (at_.live.leads leader) rfl
  have pre_eq : Node.preIndexOf next = next - 1 := by
    rw [Node.preIndexOf, if_neg (by omega)]
  rw [pre_eq, Node.check_of (by rw [touched.lastIndex_eq]; omega), ok_bind]
  have first_le := Log.first_le_one (l := n₁.log) at_.live.base
  rw [if_neg (by omega), touched.preTermOf_eq (by omega), ok_bind]
  obtain ⟨entries, entries_eq, slice, plain⟩ := touched.entriesAt_eq positive
  dsimp only
  rw [entries_eq, ok_bind]
  refine Ends.ok (a := a) (touched.send touched.me_eq ?_) leader
  have term_eq : n₁.solid.term = a.term o.p := touched.term_eq
  have me_eq : n₁.me = o.p := touched.me_eq
  have backed := (Backed.of_committed (touched.live.commits.of_le
    (min_le_left n₁.commit (next - 1 + entries.length))))
  constructor
  · show n₁.me ≠ dest
    rw [me_eq]
    exact (Membership.mem_peersOf.mp peer).2.symm
  · show a.leader n₁.solid.term = some n₁.me
    rw [term_eq, me_eq]
    exact at_.live.leads leader
  · show next - 1 ≤ (a.tlog n₁.solid.term).length
    rw [term_eq, ← log_eq]
    omega
  · show _ = termAt (a.tlog n₁.solid.term) (next - 1)
    rw [term_eq, ← log_eq]
  · show SliceAt (a.tlog n₁.solid.term) (next - 1) entries
    rw [term_eq, ← log_eq]
    exact slice
  · exact plain
  · exact min_le_right _ _
  · show Backed m meets a n₁.solid.term _
    rw [term_eq]
    exact backed

theorem heartBeat_ends (at_ : At o a n) {dest : Addr} (peer : dest ∈ m.peersOf o.p) :
    Settles o (n.heartBeat dest) :=
  Ends.guard at_ (Or.inr (Or.inr (Or.inl rfl))) fun leader =>
    (sendAppendEntries_ends at_ leader peer).weaken fun _ _ => trivial

theorem leaderTransferTo_ends (at_ : At o a n) (dest : Addr) :
    Settles o (n.leaderTransferTo dest) := by
  unfold Node.leaderTransferTo
  split
  · exact Settles.ok at_
  · exact Settles.ok (a := a) (at_.send at_.me_eq trivial)

theorem replicate_ends (at_ : At o a n) (leader : n.state = .leader) {dests : List Addr}
    (peers : ∀ dest ∈ dests, dest ∈ m.peersOf o.p) : Settles o (n.replicate dests) := by
  induction dests generalizing a n with
  | nil => exact Settles.ok at_
  | cons dest rest ih =>
      rw [Node.replicate]
      refine Ends.bind (sendAppendEntries_ends at_ leader (peers dest (by simp))) ?_
      intro b n' at' leader'
      exact ih (n := { n' with timerMgr := n'.timerMgr.againHeartBeatOf dest }) at' leader'
        fun q mem => peers q (List.mem_cons_of_mem _ mem)

theorem propose_ends (at_ : At o a n) (value : Bytes) : Settles o (n.propose value) := by
  unfold Node.propose
  split
  · exact Settles.ok at_
  · rename_i ready
    have leader : n.state = .leader := by
      by_contra other
      exact ready (Or.inl other)
    unfold Node.doPropose
    refine Ends.bind (appendOne_leader at_ leader _ rfl (Or.inl rfl)) ?_
    intro b n₁ at₁ leader₁
    refine Ends.bind (maybeCommit_ends at₁ leader₁) ?_
    rintro c n₂ at₂ ⟨leader₂, -⟩
    refine replicate_ends at₂ leader₂ fun dest mem => ?_
    rw [← at₂.peers_eq]
    exact mem

/-! ## Following -/

theorem SliceAt.length_le {log : List AppendEntry} {index : ℕ} {entries : List LogEntry}
    (slice : SliceAt log index entries) (bound : index ≤ log.length) :
    index + entries.length ≤ log.length := by
  induction entries generalizing index with
  | nil => exact bound
  | cons entry rest ih =>
      obtain ⟨-, at_index, slice⟩ := slice
      have lt := (List.getElem?_eq_some_iff.mp at_index).1
      have := ih slice lt
      rw [List.length_cons]
      omega

/-- Appending a slice to exactly what comes before it. -/
theorem appendAll_ends (at_ : At o a n) (follower : n.state = .follower) {index : ℕ}
    {entries : List LogEntry} (slice : SliceAt (a.tlog (a.term o.p)) index entries)
    (plain : ∀ entry ∈ entries, entry.appendEntry.Plain)
    (log_eq : a.log o.p = (a.tlog (a.term o.p)).take index) :
    Ends o (n.appendAll entries) fun a' n' =>
      n'.state = .follower ∧ a'.term o.p = a.term o.p ∧
        (a'.tlog (a'.term o.p)).take (index + entries.length) <+: a'.log o.p := by
  induction entries generalizing a n index with
  | nil =>
      refine Ends.ok at_ ⟨follower, rfl, ?_⟩
      rw [List.length_nil, Nat.add_zero, log_eq]
  | cons entry rest ih =>
      obtain ⟨-, at_index, slice⟩ := slice
      have next_eq : a.log o.p ++ [entry.appendEntry] =
          (a.tlog (a.term o.p)).take (index + 1) := by
        rw [List.take_add_one, at_index, log_eq]
        rfl
      have next : a.log o.p ++ [entry.appendEntry] <+: a.tlog (a.term o.p) := by
        rw [next_eq]
        exact List.take_prefix _ _
      rw [Node.appendAll]
      refine Ends.bind (appendOne_follower at_ follower (plain entry (by simp)) next) ?_
      rintro b n' at' ⟨follower', log_eq', term_eq, tlog_eq⟩
      have slice' : SliceAt (b.tlog (b.term o.p)) (index + 1) rest := by
        rw [tlog_eq, term_eq]
        exact slice
      refine (ih at' follower' slice' (fun e mem => plain e (List.mem_cons_of_mem _ mem))
        ?_).weaken ?_
      · rw [log_eq', tlog_eq, term_eq, next_eq]
      · rintro c n'' - ⟨follower'', term_eq', held⟩
        refine ⟨follower'', term_eq'.trans term_eq, ?_⟩
        rw [List.length_cons, Nat.add_comm rest.length, ← Nat.add_assoc]
        exact held

/-- A conflict with the leader of the term lies above everything committed. -/
theorem At.commit_lt_of_conflict (at_ : At o a n) (led : a.leader (a.term o.p) ≠ none)
    {index : ℕ} {mine theirs : AppendEntry} (mineAt : (a.log o.p)[index]? = some mine)
    (theirsAt : (a.tlog (a.term o.p))[index]? = some theirs) (conflict : mine.term ≠ theirs.term) :
    n.commit < index + 1 := by
  by_contra covered
  rcases at_.live.commits.of_le (show index + 1 ≤ n.commit by omega) with
    impossible | ⟨t, chosen, isChosen, le, before, held⟩
  · omega
  · have inTerm : (a.tlog t).take (index + 1) <+: a.tlog (a.term o.p) :=
      (List.take_prefix_take_left le).trans (isChosen.prefix_tlog at_.inv before led)
    have shorter := Consensus.prefix_take_of_conflict held inTerm mineAt theirsAt
      fun same => conflict (congrArg AppendEntry.term same)
    have length_le := shorter.length_le
    have chosen_le := isChosen.length_le
    simp only [List.length_take] at length_le
    omega

theorem acceptEntries_ends (at_ : At o a n) (follower : n.state = .follower)
    (led : a.leader (a.term o.p) ≠ none) {index : ℕ} {entries : List LogEntry}
    (slice : SliceAt (a.tlog (a.term o.p)) index entries)
    (plain : ∀ entry ∈ entries, entry.appendEntry.Plain)
    (held : (a.tlog (a.term o.p)).take index <+: a.log o.p) :
    Ends o (n.acceptEntries index entries) fun a' n' =>
      n'.state = .follower ∧ a'.term o.p = a.term o.p ∧
        (a'.tlog (a'.term o.p)).take (index + entries.length) <+: a'.log o.p := by
  induction entries generalizing index with
  | nil => exact Ends.ok at_ ⟨follower, rfl, by simpa using held⟩
  | cons entry rest ih =>
      obtain ⟨index_eq, theirsAt, tail⟩ := id slice
      have first_le := Log.first_le_one (l := n.log) at_.live.base
      have lt := (List.getElem?_eq_some_iff.mp theirsAt).1
      have taken : ((a.tlog (a.term o.p)).take index).length = index := by
        rw [List.length_take]
        omega
      rw [Node.acceptEntries, Node.check_of index_eq, ok_bind, if_neg (by omega)]
      split
      · rename_i inside
        rw [at_.last_eq] at inside
        obtain ⟨mine, mineAt⟩ : ∃ mine, (a.log o.p)[index]? = some mine :=
          ⟨_, List.getElem?_eq_getElem (by omega)⟩
        have meta_eq : n.log.getMeta (index + 1) = some ⟨mine.term, mine.type⟩ := by
          rw [Log.getMeta, at_.entryAt_eq (Nat.succ_pos index)]
          show Option.map _ (a.log o.p)[index]? = _
          rw [mineAt]
          rfl
        simp only [meta_eq]
        split
        · rename_i same
          have agree := (at_.inv.logs.log_genuine o.p).take_eq (at_.inv.logs.tlog_genuine _)
            mineAt theirsAt same
          refine (ih tail (fun e mem => plain e (List.mem_cons_of_mem _ mem)) ?_).weaken ?_
          · rw [← agree]
            exact List.take_prefix _ _
          · rintro b n' - ⟨follower', term_eq, held'⟩
            refine ⟨follower', term_eq, ?_⟩
            rw [List.length_cons, Nat.add_comm rest.length, ← Nat.add_assoc]
            exact held'
        · rename_i conflict
          rw [Node.check_of (at_.commit_lt_of_conflict led mineAt theirsAt conflict), ok_bind]
          refine Ends.bind (deleteFrom_follower at_ follower mineAt theirsAt conflict) ?_
          rintro b n' at' ⟨follower', log_eq, term_eq, tlog_eq⟩
          have log_eq' : b.log o.p = (b.tlog (b.term o.p)).take index := by
            have eq := List.prefix_iff_eq_take.mp held
            rw [taken] at eq
            rw [log_eq, tlog_eq, term_eq, eq]
          refine (appendAll_ends at' follower' (by rw [tlog_eq, term_eq]; exact slice) plain
            log_eq').weaken ?_
          rintro c n'' - ⟨follower'', term_eq', held'⟩
          exact ⟨follower'', term_eq'.trans term_eq, held'⟩
      · rename_i outside
        rw [at_.last_eq] at outside
        have log_eq : a.log o.p = (a.tlog (a.term o.p)).take index :=
          (held.eq_of_length_le (by rw [taken]; omega)).symm
        exact appendAll_ends at_ follower slice plain log_eq

theorem followLeader_ends (at_ : At o a n) {msg : AppendEntries} (now : ℤ)
    (current : n.solid.term ≤ msg.term) (leads : o.ghost.leader msg.term = some msg.src) :
    Ends o (n.followLeader msg now) fun a' n' =>
      a'.term o.p = msg.term ∧ n'.state = .follower := by
  unfold Node.followLeader
  refine Ends.bind (stepDown_ends at_ current) ?_
  rintro b n' at' ⟨term_eq, follower, -, -, -⟩
  have term_eq : b.term o.p = msg.term := at'.term_eq.symm.trans term_eq
  have leads : b.leader (b.term o.p) = some msg.src := by
    rw [term_eq]
    exact at'.extends.leader leads
  dsimp only
  split
  · refine Ends.ok (a := b) ?_ ⟨term_eq, follower⟩
    exact at'.quiet rfl rfl { at'.live with follows := fun _ => leads }
  · rename_i known
    have same : n'.leader = msg.src :=
      Option.some.inj ((at'.live.follows known).symm.trans leads)
    rw [Node.check_of same]
    exact Ends.ok (a := b) at' ⟨term_eq, follower⟩

/-- Where the preceding entry matches, so does everything before it. -/
theorem At.preLogMismatch_eq (at_ : At o a n) {msg : AppendEntries} (term_eq : a.term o.p = msg.term)
    (ok : AppendOk m meets a msg) :
    ∃ mismatch, n.preLogMismatch msg = .ok mismatch ∧
      (mismatch = false → (a.tlog (a.term o.p)).take msg.preLogIndex <+: a.log o.p) := by
  have base : n.log.base = 0 := at_.live.base
  have entries_eq : n.log.entries = a.log o.p := at_.live.entries
  rw [Node.preLogMismatch]
  split
  · exact ⟨true, rfl, by simp⟩
  · rename_i inside
    rw [at_.lastIndex_eq] at inside
    split
    · rename_i valid
      have positive := ((Log.indexValid_of_base_zero base _).mp valid).1
      rw [at_.getTerm_eq (by omega)]
      refine ⟨_, rfl, fun same => ?_⟩
      have same : termAt (a.log o.p) msg.preLogIndex = msg.preLogTerm := by simpa using same
      have pre_le := ok.pre_le
      rw [ok.preTerm, termAt, termAt, if_neg (by omega), if_neg (by omega)] at same
      obtain ⟨mine, mineAt⟩ : ∃ mine, (a.log o.p)[msg.preLogIndex - 1]? = some mine :=
        ⟨_, List.getElem?_eq_getElem (by omega)⟩
      obtain ⟨theirs, theirsAt⟩ : ∃ theirs, (a.tlog msg.term)[msg.preLogIndex - 1]? = some theirs :=
        ⟨_, List.getElem?_eq_getElem (by omega)⟩
      rw [mineAt, theirsAt] at same
      have agree := (at_.inv.logs.log_genuine o.p).take_eq (at_.inv.logs.tlog_genuine msg.term)
        mineAt theirsAt same
      rw [Nat.sub_add_cancel positive] at agree
      rw [term_eq, ← agree]
      exact List.take_prefix _ _
    · rename_i invalid
      refine ⟨false, rfl, fun _ => ?_⟩
      rw [Log.indexValid_of_base_zero base, entries_eq] at invalid
      have zero : msg.preLogIndex = 0 := by omega
      simp [zero]

theorem learnCommit_ends (at_ : At o a n) {commitIndex : ℕ}
    (committed : Committed AppendEntry.term (m.quorums meets) a o.p commitIndex) :
    Ends o (n.learnCommit commitIndex) fun a' _ => a' = a := by
  rw [Node.learnCommit]
  split
  · have at' : At o a { n with commit := commitIndex } :=
      at_.quiet rfl rfl { at_.live with commits := committed }
    have inside : commitIndex ≤ Node.lastIndex { n with commit := commitIndex } := by
      rw [at'.lastIndex_eq]
      exact committed.length_le
    dsimp only
    rw [Node.check_of inside, ok_bind]
    exact (stateMachineApply_ends at').weaken fun _ post => post.1
  · exact Ends.ok at_ rfl

/-- A backed index inside what a follower shares with its leader is committed. -/
theorem Backed.committed (inv : Consensus.Inv AppendEntry.term (m.quorums meets) a) {p : Addr}
    {count shared : ℕ} (backed : Backed m meets a (a.term p) count) (inside : count ≤ shared)
    (led : a.leader (a.term p) ≠ none) (held : (a.tlog (a.term p)).take shared <+: a.log p) :
    Committed AppendEntry.term (m.quorums meets) a p count := by
  rcases backed with rfl | ⟨t, chosen, isChosen, le, before⟩
  · exact Or.inl rfl
  · refine Or.inr ⟨t, chosen, isChosen, le, before, ?_⟩
    have inTerm : (a.tlog t).take count <+: a.tlog (a.term p) :=
      (List.take_prefix_take_left le).trans (isChosen.prefix_tlog inv before led)
    rw [List.prefix_iff_eq_take.mp inTerm]
    refine (List.take_prefix_take_left ?_).trans held
    rw [List.length_take]
    omega

theorem onAppendEntries_ends (at_ : At o a n) {msg : AppendEntries} (now : ℤ)
    (dest : msg.dest = o.p) (sent : MessageOk m meets o.ghost (.appendEntries msg)) :
    Settles o (n.onAppendEntries msg now) := by
  have sent : AppendOk m meets o.ghost msg := sent
  have ne : msg.dest ≠ msg.src := sent.src_ne.symm
  unfold Node.onAppendEntries
  split
  · exact Settles.ok at_
  dsimp only
  split
  · exact Settles.ok (a := a) (at_.send dest ⟨ne, by simp [Node.appendReply]⟩)
  · rename_i current
    refine Ends.bind (followLeader_ends at_ now (by omega) sent.leads) ?_
    rintro b n₁ at₁ ⟨term_eq, follower⟩
    have ok : AppendOk m meets b msg := sent.mono o.inv at₁.extends
    have led : b.leader (b.term o.p) ≠ none := by
      rw [term_eq, ok.leads]
      simp
    obtain ⟨mismatch, mismatch_eq, held⟩ := at₁.preLogMismatch_eq term_eq ok
    rw [mismatch_eq, ok_bind]
    cases mismatch with
    | true => exact Settles.ok (a := b) (at₁.send dest ⟨ne, by simp [Node.appendReply]⟩)
    | false =>
        refine Ends.bind (acceptEntries_ends at₁ follower led (by rw [term_eq]; exact ok.slice)
          ok.plain (held rfl)) ?_
        rintro c n₂ at₂ ⟨-, term_eq₂, held₂⟩
        have term_eq₂ : c.term o.p = msg.term := term_eq₂.trans term_eq
        have ok₂ : AppendOk m meets c msg := sent.mono o.inv at₂.extends
        have led₂ : c.leader (c.term o.p) ≠ none := by
          rw [term_eq₂, ok₂.leads]
          simp
        have backed : Backed m meets c (c.term o.p) msg.commitIndex := by
          rw [term_eq₂]
          exact ok₂.backed
        have committed := backed.committed at₂.inv ok₂.commit_le led₂ held₂
        have moves : Moves m meets o.p c (c.ack o.p (msg.preLogIndex + msg.entries.length)) := by
          refine moves_ack ?_ held₂
          rw [term_eq₂]
          exact ok₂.slice.length_le ok₂.pre_le
        have at₃ := at₂.shift moves ⟨rfl, rfl, rfl⟩
        refine Ends.bind (learnCommit_ends at₃ (committed.steps at₂.inv moves.steps)) ?_
        rintro _ n₄ at₄ rfl
        refine Settles.ok (a := c.ack o.p (msg.preLogIndex + msg.entries.length)) ?_
        refine At.send (n := { n₄ with timerMgr := _, lastHeartbeatTimestamp := now }) at₄ dest
          ⟨ne, fun _ => ?_⟩
        show msg.preLogIndex + msg.entries.length ≤ (c.ack o.p _).acked msg.term msg.dest
        rw [dest, ← term_eq₂]
        simp [Consensus.State.ack]

/-! ## Replies -/

theorem At.match_le_last (at_ : At o a n) (leader : n.state = .leader) {q : Addr} {count : ℕ}
    (acked : count ≤ a.acked (a.term o.p) q) : count ≤ (a.log o.p).length := by
  rw [at_.inv.logs.leader_log (at_.live.leads leader) rfl]
  exact acked.trans (at_.inv.acks.acked_le _ _)

/-- One peer's indices change within their bounds. -/
theorem At.setIndices (at_ : At o a n) {q : Addr} (mem : q ∈ m.peersOf o.p) {item : IndexItem}
    (match_le : n.state = .leader → item.match_ ≤ a.acked (a.term o.p) q)
    (next_pos : n.state = .leader → 1 ≤ item.next)
    (next_le : n.state = .leader → item.next ≤ (a.log o.p).length + 1) :
    At o a { n with indexMgr := n.indexMgr.set q item } := by
  have keys : n.indexMgr.keys = m.peersOf o.p := at_.live.indicesOf
  refine at_.reindex ((Table.set_keys_of_mem _ (keys ▸ mem) _).trans keys) ?_ ?_ ?_ <;>
    intro leader r memR <;> by_cases same : r = q
  · subst same
    rw [IndexManager.getMatch, Table.set_val_self]
    exact match_le leader
  · rw [IndexManager.getMatch, Table.set_val_of_ne _ same]
    exact at_.live.match_le leader r memR
  · subst same
    rw [IndexManager.getNext, Table.set_val_self]
    exact next_pos leader
  · rw [IndexManager.getNext, Table.set_val_of_ne _ same]
    exact at_.live.next_pos leader r memR
  · subst same
    rw [IndexManager.getNext, Table.set_val_self]
    exact next_le leader
  · rw [IndexManager.getNext, Table.set_val_of_ne _ same]
    exact at_.live.next_le leader r memR

/-- A next index inside the log. -/
theorem At.setNext (at_ : At o a n) {q : Addr} (mem : q ∈ m.peersOf o.p) {next : ℕ}
    (next_pos : n.state = .leader → 1 ≤ next)
    (next_le : n.state = .leader → next ≤ (a.log o.p).length + 1) :
    At o a { n with indexMgr := n.indexMgr.setNext q next } :=
  at_.setIndices mem (fun leader => at_.live.match_le leader q mem) next_pos next_le

/-- A match index that has been acknowledged. -/
theorem At.setMatch (at_ : At o a n) {q : Addr} (mem : q ∈ m.peersOf o.p) {count : ℕ}
    (acked : n.state = .leader → count ≤ a.acked (a.term o.p) q) :
    At o a { n with indexMgr := n.indexMgr.setMatch q count } :=
  at_.setIndices mem acked (fun leader => at_.live.next_pos leader q mem)
    (fun leader => at_.live.next_le leader q mem)

theorem onMatch_ends (at_ : At o a n) (leader : n.state = .leader) {msg : AppendEntriesReply}
    (peer : msg.src ∈ m.peersOf o.p)
    (acked : msg.reqPreIndex + msg.reqNumEntries ≤ a.acked (a.term o.p) msg.src) :
    Ends o (n.onMatch msg) fun _ n' => n'.state = .leader := by
  have touched := at_.touch peer
  unfold Node.onMatch
  refine Ends.bind (w := fun _ n' => n'.state = .leader) ?_ ?_
  · unfold Node.raiseMatch
    dsimp only
    split
    · exact Ends.ok touched leader
    · exact (maybeCommit_ends (touched.setMatch peer fun _ => acked) leader).weaken
        fun _ post => post.1
  · intro b n' at' leader'
    refine Ends.ok (a := b) (at'.setNext peer (fun _ => Nat.le_add_left _ _) fun _ => ?_) leader'
    exact Nat.succ_le_succ (at'.match_le_last leader' (at'.live.match_le leader' _ peer))

theorem onMismatch_at (at_ : At o a n) {msg : AppendEntriesReply}
    (peer : msg.src ∈ m.peersOf o.p) : At o a (n.onMismatch msg) := by
  have touched := at_.touch peer
  unfold Node.onMismatch
  dsimp only
  set n₁ : Node := { n with indexMgr := n.indexMgr.touch msg.src } with n₁_eq
  set back : IndexManager :=
    if 1 < n₁.indexMgr.getNext msg.src then
      n₁.indexMgr.setNext msg.src (n₁.indexMgr.getNext msg.src - 1)
    else n₁.indexMgr with back_eq
  have stepped : At o a { n₁ with indexMgr := back } := by
    rw [back_eq]
    split
    · rename_i above
      refine touched.setNext peer (fun _ => by omega) fun leader => ?_
      have := touched.live.next_le leader _ peer
      exact (Nat.sub_le _ _).trans this
    · exact touched
  split
  · rename_i below
    refine stepped.setNext peer (fun _ => Nat.le_add_left _ _) fun leader => ?_
    exact below.le.trans (stepped.live.next_le leader _ peer)
  · exact stepped

theorem onAppendEntriesReply_ends (at_ : At o a n) {msg : AppendEntriesReply}
    (src : msg.src ∈ m.members) (dest : msg.dest = o.p)
    (sent : MessageOk m meets o.ghost (.appendEntriesReply msg)) :
    Settles o (n.onAppendEntriesReply msg) := by
  have peer : msg.src ∈ m.peersOf o.p :=
    Membership.mem_peersOf.mpr ⟨src, fun same => sent.1 (same.trans dest.symm)⟩
  unfold Node.onAppendEntriesReply
  split
  · exact Settles.ok at_
  split
  · exact Settles.ok at_
  split
  · exact Settles.ok at_
  rename_i _ notOlder current
  have current : msg.reqTerm = n.solid.term := not_not.mp current
  refine Ends.guard at_ (Or.inr (Or.inr (Or.inr rfl))) fun leader => ?_
  split
  · rename_i later
    exact (stepDown_ends at_ later.le).weaken fun _ _ => trivial
  · rename_i notLater
    rw [Node.check_of ⟨by omega, current⟩, ok_bind]
    refine Ends.bind (w := fun _ n' => n'.state = .leader) ?_ ?_
    · rw [Node.onIndexReply]
      split
      · rename_i success
        refine onMatch_ends at_ leader peer ?_
        rw [← at_.term_eq, ← current]
        exact (sent.2 success).trans at_.extends.acked
      · exact Ends.ok (onMismatch_at at_ peer) leader
    · intro b n' at' leader'
      split
      · refine Ends.bind (sendAppendEntries_ends at' leader' peer) ?_
        intro c n'' at'' _
        exact Settles.ok (a := c) at''
      · exact Settles.ok at'

end Replication

end Vraft
