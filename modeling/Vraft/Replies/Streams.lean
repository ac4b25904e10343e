import Vraft.Refine.Progress
import Vraft.Replies.Reign

/-!
# The bytes of a snapshot

A leader reads a snapshot and sends it piece by piece, without waiting for an answer.
Its follower writes what begins beyond the last byte it has.  It ends up with the bytes
that were read as long as each piece is one it has had, or the next one.
-/

namespace Vraft

/-! ## Pieces -/

section Pieces

variable {image : Image} {offset : ℤ} {data bytes : Bytes} {done : Bool}

/-- The piece after what is held goes on with it. -/
theorem Image.HasPiece.append (piece : image.HasPiece offset data done)
    (held : bytes <+: image.bytes) (next : offset = bytes.length) :
    bytes ++ data <+: image.bytes := by
  obtain ⟨before, after, split, length⟩ := piece.within
  have same : bytes = before := by
    refine List.IsPrefix.eq_of_length (List.prefix_of_prefix_length_le held ?_ (by omega)) (by omega)
    rw [split, List.append_assoc]
    exact List.prefix_append _ _
  rw [same, split]
  exact List.prefix_append _ _

/-- The last piece comes when everything is held. -/
theorem Image.HasPiece.complete (piece : image.HasPiece offset data done) (last : done = true)
    (held : bytes <+: image.bytes) (next : offset = bytes.length) : bytes ++ data = image.bytes := by
  obtain ⟨rfl, length⟩ := piece.ends last
  rw [List.append_nil]
  exact held.eq_of_length (by omega)

end Pieces

/-- The server reads snapshots whose bytes are `content`, and it can write them. -/
def SnapshotHooks.Gives (hooks : SnapshotHooks) (content : StateMachine → Bytes) : Prop :=
  (∃ createReader, hooks.createReader = some createReader ∧
    ∀ sm, (createReader sm).bytes = content sm) ∧ hooks.createWriter = true

/-- The writer of the sender has the piece, or the piece is the next one. -/
def Node.Continues (n : Node) (msg : InstallSnapshot) : Prop :=
  ∀ writer ∈ n.writerFor msg, msg.offset < writer.stored ∨ msg.offset = writer.stored + 1

instance (n : Node) (msg : InstallSnapshot) : Decidable (n.Continues msg) :=
  inferInstanceAs (Decidable (∀ writer ∈ n.writerFor msg, _))

namespace Cluster

/-- A piece of the current term or a later one comes from the only leader of its term,
and in order. -/
def InOrder (m : Membership) (s : Cluster) (p : Addr) : Input → Prop
  | .recv (.installSnapshot msg) _ => (s.node p).solid.term ≤ msg.term →
      (∀ q ∈ m.members, Effect.becomeLeader msg.term ∈ s.hist q → q = msg.src) ∧
        (s.node p).Continues msg
  | _ => True

instance (m : Membership) (s : Cluster) (p : Addr) (input : Input) :
    Decidable (s.InOrder m p input) :=
  match input with
  | .electionTimer => inferInstanceAs (Decidable True)
  | .requestVoteTimer _ => inferInstanceAs (Decidable True)
  | .heartbeatTimer _ => inferInstanceAs (Decidable True)
  | .propose _ => inferInstanceAs (Decidable True)
  | .leaderTransfer _ => inferInstanceAs (Decidable True)
  | .setFlags _ => inferInstanceAs (Decidable True)
  | .recv msg _ =>
      match msg with
      | .installSnapshot msg => inferInstanceAs (Decidable ((s.node p).solid.term ≤ msg.term →
          (∀ q ∈ m.members, Effect.becomeLeader msg.term ∈ s.hist q → q = msg.src) ∧
            (s.node p).Continues msg))
      | .requestVote _ => inferInstanceAs (Decidable True)
      | .requestVoteReply _ => inferInstanceAs (Decidable True)
      | .appendEntries _ => inferInstanceAs (Decidable True)
      | .appendEntriesReply _ => inferInstanceAs (Decidable True)
      | .timeoutNow _ => inferInstanceAs (Decidable True)
      | .installSnapshotReply _ => inferInstanceAs (Decidable True)

/-- Anything may arrive. -/
def Unordered (_ : Membership) (_ : Cluster) (_ : Addr) (_ : Input) : Prop := True

/-- One step of a cluster in which `content` are the bytes of the snapshots of each
member.  `comes` says which inputs may arrive when. -/
inductive StreamStep (m : Membership) (content : Addr → StateMachine → Bytes)
    (comes : Membership → Cluster → Addr → Input → Prop) (s : Cluster) : Cluster → Prop
  | handle (p : Addr) (mem : p ∈ m.members) (input : Input) (enabled : s.Enabled m p input)
      (order : comes m s p input) (n : Node) (done : (s.node p).handle input = .ok n) :
      StreamStep m content comes s (s.update p n n.effects)
  | restart (p : Addr) (mem : p ∈ m.members) (flags : Flags) (gives : flags.hooks.Gives (content p)) :
      StreamStep m content comes s (s.update p (Node.boot (m.config p) flags (s.node p).disk) [])
  | compact (p : Addr) (mem : p ∈ m.members) (to_ : ℕ) :
      StreamStep m content comes s (s.update p ((s.node p).deleteUtil to_) [])

/-- Several steps in a row. -/
abbrev StreamRun (m : Membership) (content : Addr → StateMachine → Bytes)
    (comes : Membership → Cluster → Addr → Input → Prop) : Cluster → Cluster → Prop :=
  Relation.ReflTransGen (StreamStep m content comes)

/-- A state that is reached when every server gives snapshots of this content. -/
def StreamReachable (m : Membership) (content : Addr → StateMachine → Bytes)
    (comes : Membership → Cluster → Addr → Input → Prop) (s : Cluster) : Prop :=
  ∃ flags : Addr → Flags, (∀ p, (flags p).hooks.Gives (content p)) ∧
    StreamRun m content comes (init m flags) s

/-- What is known of a member and of the snapshots it sends and receives. -/
structure Streams (m : Membership) (content : Addr → StateMachine → Bytes) (s : Cluster)
    (p : Addr) : Prop where
  hooks : (s.node p).hooks.Gives (content p)
  pieces : ∀ msg, Effect.send (.installSnapshot msg) ∈ s.hist p → ∃ image : Image,
    image.bytes = content p ⟨msg.lastIndex, msg.lastTerm⟩ ∧ image.HasPiece msg.offset msg.data msg.done
  writers : ∀ src writer, ((s.node p).snapshotMgr.val src).writer = some writer →
    writer.bytes <+: content src ⟨writer.lastIndex, writer.lastTerm⟩
  swaps : ∀ lastIndex lastTerm bytes, Effect.swapStateMachine lastIndex lastTerm bytes ∈ s.hist p →
    ∃ src ∈ m.members, bytes = content src ⟨lastIndex, lastTerm⟩

variable {m : Membership} {content : Addr → StateMachine → Bytes} {s s' : Cluster} {p q : Addr}
variable {comes : Membership → Cluster → Addr → Input → Prop}

theorem longStep_of_streamStep (step : StreamStep m content comes s s') : LongStep m s s' := by
  cases step with
  | handle p mem input enabled order n done => exact .handle p mem input enabled n done
  | restart p mem flags gives => exact .restart p mem flags
  | compact p mem to_ => exact .compact p mem to_

theorem longReachable_of_streamReachable (reachable : s.StreamReachable m content comes) :
    s.LongReachable m := by
  obtain ⟨flags, -, run⟩ := reachable
  refine ⟨flags, ?_⟩
  induction run with
  | refl => exact .refl
  | tail _ step ih => exact ih.tail (longStep_of_streamStep step)

/-- What others do changes nothing. -/
theorem Streams.other (streams : Streams m content s q) (ne : q ≠ p) {n : Node}
    {effects : List Effect} : Streams m content (s.update p n effects) q := by
  have node : (s.update p n effects).node q = s.node q := Function.update_of_ne ne ..
  have hist : (s.update p n effects).hist q = s.hist q := Function.update_of_ne ne ..
  constructor
  · rw [node]
    exact streams.hooks
  · rw [hist]
    exact streams.pieces
  · rw [node]
    exact streams.writers
  · rw [hist]
    exact streams.swaps

/-- A member has gone on. -/
theorem Streams.advance (streams : Streams m content s p) {n : Node} {effects : List Effect}
    (hooks : n.hooks = (s.node p).hooks)
    (pieces : ∀ msg, Effect.send (.installSnapshot msg) ∈ effects → (s.node p).hooks.Supplies msg)
    (writers : ∀ src writer, (n.snapshotMgr.val src).writer = some writer →
      writer.bytes <+: content src ⟨writer.lastIndex, writer.lastTerm⟩)
    (swaps : ∀ lastIndex lastTerm bytes, Effect.swapStateMachine lastIndex lastTerm bytes ∈ effects →
      ∃ src ∈ m.members, bytes = content src ⟨lastIndex, lastTerm⟩) :
    Streams m content (s.update p n effects) p := by
  have node : (s.update p n effects).node p = { n with effects := [] } := Function.update_self ..
  have hist : (s.update p n effects).hist p = s.hist p ++ effects := Function.update_self ..
  constructor
  · rw [node]
    show n.hooks.Gives (content p)
    rw [hooks]
    exact streams.hooks
  · rw [hist]
    intro msg sent
    rcases List.mem_append.mp sent with old | new
    · exact streams.pieces msg old
    · obtain ⟨createReader, created, piece⟩ := pieces msg new
      obtain ⟨⟨createReader', created', bytes⟩, -⟩ := streams.hooks
      rw [created] at created'
      obtain rfl := Option.some.inj created'
      exact ⟨_, bytes _, piece⟩
  · rw [node]
    exact writers
  · rw [hist]
    intro lastIndex lastTerm bytes mem
    rcases List.mem_append.mp mem with old | new
    · exact streams.swaps lastIndex lastTerm bytes old
    · exact swaps lastIndex lastTerm bytes new

/-! ## A piece arrives -/

/-- The one that a node would write to has a part of the snapshot. -/
theorem Streams.writerFor (streams : Streams m content s p) {n : Node}
    (same : ∀ src, (n.snapshotMgr.val src).writer = ((s.node p).snapshotMgr.val src).writer)
    {msg : InstallSnapshot} {writer : SnapshotWriter} (found : n.writerFor msg = some writer) :
    writer.bytes <+: content msg.src ⟨writer.lastIndex, writer.lastTerm⟩ := by
  unfold Node.writerFor at found
  rcases Option.or_eq_some_iff.mp found with kept | ⟨-, fresh⟩
  · have held := (Option.filter_eq_some_iff.mp kept).1
    rw [same] at held
    exact streams.writers msg.src writer held
  · split at fresh
    · obtain rfl := Option.some.inj fresh
      exact List.nil_prefix
    · contradiction

/-- Where a piece leaves its receiver. -/
structure Received (content : Addr → StateMachine → Bytes) (msg : InstallSnapshot) (n : Node) :
    Prop where
  writers : ∀ src writer, (n.snapshotMgr.val src).writer = some writer →
    writer.bytes <+: content src ⟨writer.lastIndex, writer.lastTerm⟩
  swaps : ∀ lastIndex lastTerm bytes, Effect.swapStateMachine lastIndex lastTerm bytes ∈ n.effects →
    bytes = content msg.src ⟨lastIndex, lastTerm⟩

theorem Streams.receive (streams : Streams m content s p) (wired : Wired (m.config p) (s.node p))
    (idle : (s.node p).effects = []) {msg : InstallSnapshot} {now : ℤ} {image : Image}
    (bytes : image.bytes = content msg.src ⟨msg.lastIndex, msg.lastTerm⟩)
    (piece : image.HasPiece msg.offset msg.data msg.done)
    (order : (s.node p).solid.term ≤ msg.term → (s.node p).Continues msg) {n : Node}
    (done : (s.node p).onInstallSnapshot msg now = .ok n) : Received content msg n := by
  have quiet (reply : Message) (lastIndex lastTerm : ℕ) (installed : Bytes) {effects : List Effect}
      (none_ : Effect.swapStateMachine lastIndex lastTerm installed ∉ effects) :
      Effect.swapStateMachine lastIndex lastTerm installed ∉ effects ++ [.send reply] := by
    simpa using none_
  have heard {n₁ : Node} (hears : (s.node p).hearLeader msg.src msg.term now = .ok n₁) :
      Conveys (m.config p) (s.node p) n₁ ∧ (s.node p).Continues msg ∧
        ∀ lastIndex lastTerm installed,
          Effect.swapStateMachine lastIndex lastTerm installed ∉ n₁.effects := by
    have conveys := (hearLeader_conveys wired msg.src msg.term now).of_ok hears
    have leads : Input.Leads (.recv (.installSnapshot msg) now) msg.src msg.term := ⟨rfl, rfl⟩
    have turned := (@hearLeader_turned _ _ _ False wired.toFixed _ _ now leads nofun).of_ok hears
    have later := turned.1.term_le
    rw [turned.2.2] at later
    refine ⟨conveys, order later, fun lastIndex lastTerm installed mem => ?_⟩
    obtain ⟨more, more_eq, onward⟩ := conveys.effects
    rw [more_eq, idle, List.nil_append] at mem
    exact onward _ mem
  cases Node.onInstallSnapshot_installs done with
  | off stopped => exact ⟨streams.writers, by simp [idle]⟩
  | stale late =>
      refine ⟨streams.writers, fun lastIndex lastTerm installed mem => absurd mem ?_⟩
      exact quiet _ _ _ _ (by simp [idle])
  | again n₁ hears writer found held =>
      obtain ⟨conveys, -, none_⟩ := heard hears
      refine ⟨fun src other open_ => ?_, fun lastIndex lastTerm installed mem => absurd mem ?_⟩
      · replace open_ : ((n₁.openWriter msg).snapshotMgr.val src).writer = some other := open_
        rw [(Node.openWriter_val src).1] at open_
        split at open_
        · rename_i own
          rw [own]
          exact streams.writerFor conveys.writers open_
        · rw [conveys.writers] at open_
          exact streams.writers src other open_
      · exact quiet _ _ _ _ (none_ _ _ _)
  | next n₁ hears writer found beyond =>
      obtain ⟨conveys, follows, none_⟩ := heard hears
      have prefix_ := streams.writerFor conveys.writers found
      obtain ⟨lastIndex, lastTerm⟩ := Node.writerFor_same found
      have same : n₁.writerFor msg = (s.node p).writerFor msg := by
        rw [Node.writerFor, Node.writerFor, conveys.writers, conveys.hooks]
      rw [same] at found
      have next : msg.offset = writer.bytes.length := by
        rcases follows writer found with held | next
        · omega
        · rw [next, SnapshotWriter.stored]
          omega
      rw [lastIndex, lastTerm, ← bytes] at prefix_
      refine ⟨fun src other open_ => ?_, fun index term installed mem => ?_⟩
      · replace open_ : ((n₁.receive msg writer).snapshotMgr.val src).writer = some other := open_
        rw [(Node.receive_val msg writer src).1] at open_
        split at open_
        · rename_i own
          split at open_
          · contradiction
          · obtain rfl := Option.some.inj open_
            show writer.bytes ++ msg.data <+: content src ⟨writer.lastIndex, writer.lastTerm⟩
            rw [own, lastIndex, lastTerm, ← bytes]
            exact piece.append prefix_ next
        · rw [conveys.writers] at open_
          exact streams.writers src other open_
      · by_cases swaps : n₁.Swaps msg
        · replace mem : Effect.swapStateMachine index term installed ∈
              (n₁.receive msg writer).effects ++ [.send _] := mem
          rw [Node.receive_of_swaps swaps writer] at mem
          simp only [List.mem_append, List.mem_singleton, reduceCtorEq, or_false,
            Effect.swapStateMachine.injEq] at mem
          rcases mem with mem | ⟨rfl, rfl, rfl⟩
          · exact absurd mem (none_ _ _ _)
          · rw [piece.complete swaps.1 prefix_ next, bytes, lastIndex, lastTerm]
        · refine absurd mem (quiet _ _ _ _ ?_)
          rw [Node.receive_of_not_swaps swaps writer]
          exact none_ _ _ _

/-- A leader that is trusted is heard. -/
theorem hearLeader_trusted {rc : RaftConfig} {n : Node} (fixed : Fixed rc n) {src : Addr} {term : ℕ}
    {now : ℤ} (le : n.solid.term ≤ term) (trusts : n.Trusts src term) :
    ∃ n', n.hearLeader src term now = .ok n' := by
  have stepped : ∃ n₁, n.stepDown term = .ok n₁ := by
    rw [Node.stepDown, Node.check_of le, ok_bind]
    exact ⟨_, rfl⟩
  obtain ⟨n₁, stepped⟩ := stepped
  have down := (@stepDown_down rc n True .electionTimer fixed term).of_ok stepped
  rw [Node.hearLeader, stepped, ok_bind]
  dsimp only
  split
  · exact ⟨_, rfl⟩
  · rename_i known
    refine ⟨_, if_pos ?_⟩
    show n₁.leader = src
    have leader := down.leader
    split at leader
    · exact absurd leader known
    · rename_i same
      rw [leader] at known ⊢
      exact trusts (by omega) known

/-- A piece in order from the only leader of its term makes no assert fail. -/
theorem Streams.receive_ok (streams : Streams m content s p)
    (wired : Wired (m.config p) (s.node p)) (seated : Seated m s.hist p (s.node p).seat)
    {msg : InstallSnapshot} {now : ℤ} (order : s.InOrder m p (.recv (.installSnapshot msg) now)) :
    ∃ n, (s.node p).onInstallSnapshot msg now = .ok n := by
  by_cases started : (s.node p).started = true
  swap
  · refine ⟨s.node p, ?_⟩
    unfold Node.onInstallSnapshot
    rw [if_pos (by simpa using started)]
  by_cases current : (s.node p).solid.term ≤ msg.term
  swap
  · refine ⟨(s.node p).snapshotReply msg now (s.node p).solid.term 0, ?_⟩
    unfold Node.onInstallSnapshot
    rw [if_neg (by simp [started]), if_pos (not_le.mp current)]
  obtain ⟨only, follows⟩ := order current
  have trusts : (s.node p).Trusts msg.src msg.term := by
    intro same known
    obtain ⟨member, led⟩ := seated.follows known
    refine only _ member ?_
    rwa [← same]
  obtain ⟨n₁, heard⟩ := @hearLeader_trusted _ (s.node p) wired.toFixed msg.src msg.term now current trusts
  have conveys := (hearLeader_conveys wired msg.src msg.term now).of_ok heard
  rw [Node.onInstallSnapshot_eq started current, heard, ok_bind]
  have same : n₁.writerFor msg = (s.node p).writerFor msg := by
    rw [Node.writerFor, Node.writerFor, conveys.writers, conveys.hooks]
  rw [same]
  cases found : (s.node p).writerFor msg with
  | none =>
      unfold Node.writerFor at found
      rw [streams.hooks.2] at found
      simp at found
  | some writer =>
      dsimp only
      split
      · exact ⟨_, rfl⟩
      · rename_i beyond
        have next := (follows writer found).resolve_left beyond
        rw [Node.check_of (show writer.stored < msg.offset by omega), ok_bind]
        exact ⟨_, rfl⟩

/-! ## Runs -/

/-- What is known of every member. -/
def Streaming (m : Membership) (content : Addr → StateMachine → Bytes) (s : Cluster) : Prop :=
  ∀ p ∈ m.members, Streams m content s p

/-- A piece that arrives is one of a snapshot of its sender. -/
theorem Streaming.arrives (streaming : s.Streaming m content) (agrees : s.Agrees m)
    {msg : InstallSnapshot} {now : ℤ} (enabled : s.Enabled m p (.recv (.installSnapshot msg) now)) :
    msg.src ∈ m.members ∧ ∃ image : Image,
      image.bytes = content msg.src ⟨msg.lastIndex, msg.lastTerm⟩ ∧
      image.HasPiece msg.offset msg.data msg.done := by
  obtain ⟨q, memQ, sent, ok⟩ := agrees.sent enabled.1
  rw [ok.1]
  exact ⟨memQ, (streaming q memQ).pieces msg sent⟩

theorem Streaming.handle (streaming : s.Streaming m content) (agrees : s.Agrees m)
    (wired : Wired (m.config p) (s.node p)) (mem : p ∈ m.members) {input : Input}
    (enabled : s.Enabled m p input) (placed : input.Placed (m.config p))
    (order : s.InOrder m p input) {n : Node} (done : (s.node p).handle input = .ok n) :
    Streams m content (s.update p n n.effects) p := by
  have idle := (agrees p mem).2.2
  have handled := (handle_handled wired placed).of_ok done
  obtain ⟨more, more_eq, emits⟩ := handled.effects
  rw [idle, List.nil_append] at more_eq
  subst more_eq
  have pieces (msg : InstallSnapshot) (sent : Effect.send (.installSnapshot msg) ∈ n.effects) :
      (s.node p).hooks.Supplies msg := (emits _ sent).2
  by_cases arrives : ∃ msg now, input = .recv (.installSnapshot msg) now
  · obtain ⟨msg, now, rfl⟩ := arrives
    obtain ⟨member, image, bytes, piece⟩ := streaming.arrives agrees enabled
    have received := (streaming p mem).receive wired idle bytes piece
      (fun current => (order current).2) done
    refine (streaming p mem).advance handled.hooks pieces received.writers ?_
    exact fun lastIndex lastTerm installed swapped =>
      ⟨msg.src, member, received.swaps lastIndex lastTerm installed swapped⟩
  · refine (streaming p mem).advance handled.hooks pieces (fun src writer open_ => ?_) ?_
    · rw [handled.writers fun msg now same => arrives ⟨msg, now, same⟩] at open_
      exact (streaming p mem).writers src writer open_
    · intro lastIndex lastTerm installed swapped
      obtain ⟨msg, now, same, -⟩ := emits _ swapped
      exact absurd ⟨msg, now, same⟩ arrives

theorem streams_boot {flags : Flags} {disk : Disk} (gives : flags.hooks.Gives (content p))
    (pieces : ∀ msg, Effect.send (.installSnapshot msg) ∈ s.hist p → ∃ image : Image,
      image.bytes = content p ⟨msg.lastIndex, msg.lastTerm⟩ ∧
      image.HasPiece msg.offset msg.data msg.done)
    (swaps : ∀ lastIndex lastTerm bytes, Effect.swapStateMachine lastIndex lastTerm bytes ∈ s.hist p →
      ∃ src ∈ m.members, bytes = content src ⟨lastIndex, lastTerm⟩)
    (node : s.node p = Node.boot (m.config p) flags disk) : Streams m content s p := by
  refine ⟨node ▸ gives, pieces, fun src writer open_ => ?_, swaps⟩
  have closed : ((Node.boot (m.config p) flags disk).snapshotMgr.val src).writer = none := by
    show ((Table.ofKeys (Node.boot (m.config p) flags disk).configMgr.current.peers {}).val
      src : Snapshot).writer = none
    rw [Table.ofKeys_val]
    split
    · rfl
    · rfl
  rw [node, closed] at open_
  contradiction

theorem Streaming.update (streaming : s.Streaming m content) {n : Node} {effects : List Effect}
    (moved : Streams m content (s.update p n effects) p) :
    (s.update p n effects).Streaming m content := by
  intro q memQ
  by_cases same : q = p
  · rw [same]
    exact moved
  · exact (streaming q memQ).other same

theorem wired_of_longReachable (reachable : s.LongReachable m) (mem : p ∈ m.members) :
    Wired (m.config p) (s.node p) ∧
      ∀ input, s.Enabled m p input → input.Placed (m.config p) := by
  obtain ⟨a, watched, rfl⟩ := Aged.exists_reachable reachable
  have reigned := Aged.reigned_of_reachable watched
  exact ⟨(reigned p mem).wired,
    fun input enabled => (reigned.comes (agrees_of_reachable reachable) enabled).1⟩

theorem streaming_of_reachable (reachable : s.StreamReachable m content InOrder) :
    s.Streaming m content := by
  obtain ⟨flags, gives, run⟩ := reachable
  induction run with
  | refl => exact fun p mem => streams_boot (gives p) nofun nofun rfl
  | @tail s₁ s₂ before step ih =>
      have reachable := longReachable_of_streamReachable ⟨flags, gives, before⟩
      have agrees := agrees_of_reachable reachable
      cases step with
      | handle p mem input enabled order n done =>
          obtain ⟨wired, placed⟩ := wired_of_longReachable reachable mem
          exact ih.update (ih.handle agrees wired mem enabled (placed input enabled) order done)
      | restart p mem flags' gives' =>
          have node : (s₁.update p (Node.boot (m.config p) flags' (s₁.node p).disk) []).node p =
              Node.boot (m.config p) flags' (s₁.node p).disk := Function.update_self ..
          have hist : (s₁.update p (Node.boot (m.config p) flags' (s₁.node p).disk) []).hist =
              s₁.hist := extend_nil
          refine ih.update (streams_boot gives' ?_ ?_ node)
          · rw [hist]
            exact (ih p mem).pieces
          · rw [hist]
            exact (ih p mem).swaps
      | compact p mem to_ =>
          exact ih.update ((ih p mem).advance rfl (by simp) (ih p mem).writers (by simp))

/-- When every piece that is taken comes in order from the only leader of its term, all
writers hold the beginning of what their sender reads, no assert fails when a piece
comes, and every snapshot that is installed is complete. -/
theorem snapshots_arrive (reachable : s.StreamReachable m content InOrder) (mem : p ∈ m.members) :
    (∀ src writer, ((s.node p).snapshotMgr.val src).writer = some writer →
      writer.bytes <+: content src ⟨writer.lastIndex, writer.lastTerm⟩) ∧
    (∀ msg now, s.Enabled m p (.recv (.installSnapshot msg) now) →
      s.InOrder m p (.recv (.installSnapshot msg) now) →
      ∃ n, (s.node p).handle (.recv (.installSnapshot msg) now) = .ok n ∧
        ∀ lastIndex lastTerm bytes, Effect.swapStateMachine lastIndex lastTerm bytes ∈ n.effects →
          bytes = content msg.src ⟨lastIndex, lastTerm⟩) ∧
    ∀ lastIndex lastTerm bytes, Effect.swapStateMachine lastIndex lastTerm bytes ∈ s.hist p →
      ∃ src ∈ m.members, bytes = content src ⟨lastIndex, lastTerm⟩ := by
  have streaming := streaming_of_reachable reachable
  have long := longReachable_of_streamReachable reachable
  have agrees := agrees_of_reachable long
  obtain ⟨wired, -⟩ := wired_of_longReachable long mem
  refine ⟨(streaming p mem).writers, fun msg now enabled order => ?_, (streaming p mem).swaps⟩
  obtain ⟨-, image, bytes, piece⟩ := streaming.arrives agrees enabled
  obtain ⟨n, done⟩ := (streaming p mem).receive_ok wired (agrees p mem).1 order
  have received := (streaming p mem).receive wired (agrees p mem).2.2 bytes piece
    (fun current => (order current).2) done
  exact ⟨n, done, received.swaps⟩

/-! ## Schedules -/

/-- Make the moves of a schedule whose inputs may all come. -/
def playWhere (m : Membership) (comes : Cluster → Addr → Input → Bool) (s : Cluster) :
    List Move → Option Cluster
  | [] => some s
  | next :: rest =>
      if (next.resolve s).all fun (p, input) => comes s p input then
        (s.move m next).bind fun s' => s'.playWhere m comes rest
      else none

theorem streamStep_of_move {next : Move} (moved : s.move m next = some s')
    (order : ∀ p input, next.resolve s = some (p, input) → comes m s p input) :
    StreamStep m content comes s s' := by
  rw [move] at moved
  split at moved
  · contradiction
  · rename_i p input resolved
    split at moved
    · rename_i ready
      split at moved
      · rename_i n done
        obtain rfl := Option.some.inj moved
        exact .handle p ready.1 input ready.2 (order p input resolved) n done
      · contradiction
    · contradiction

theorem streamRun_of_playWhere {schedule : List Move} {allowed : Cluster → Addr → Input → Bool}
    (sound : ∀ s p input, allowed s p input = true → comes m s p input)
    (played : s.playWhere m allowed schedule = some s') : StreamRun m content comes s s' := by
  induction schedule generalizing s with
  | nil =>
      obtain rfl := Option.some.inj played
      exact .refl
  | cons next rest ih =>
      rw [playWhere] at played
      split at played
      · rename_i allows
        obtain ⟨mid, moved, played⟩ := Option.bind_eq_some_iff.mp played
        refine .head (streamStep_of_move moved fun p input resolved => ?_) (ih played)
        rw [resolved] at allows
        exact sound s p input (by simpa using allows)
      · contradiction

/-- Snapshots of two bytes, read one at a time. -/
def pair : Flags where
  enablePreVote := false
  intervalCheck := false
  standby := false
  hooks := ⟨some fun _ => ⟨[[7], [8]], by decide⟩, true, fun _ => 0⟩

/-- The bytes of every snapshot. -/
def pairContent (_ : Addr) (_ : StateMachine) : Bytes := [7, 8]

/-- `1` brings `2` up to date and compacts its log.  Then it goes on as in `schedule`. -/
def afterCompaction (allowed : Cluster → Addr → Input → Bool) (schedule : List Move) :
    Option Cluster :=
  ((init (.upTo 3) fun _ => pair).playWhere (.upTo 3) allowed replication).bind fun s =>
    (s.update 1 ((s.node 1).deleteUtil 1) []).playWhere (.upTo 3) allowed schedule

theorem reachable_afterCompaction {schedule : List Move} {allowed : Cluster → Addr → Input → Bool}
    (sound : ∀ s p input, allowed s p input = true → comes (.upTo 3) s p input)
    (played : afterCompaction allowed schedule = some s) :
    s.StreamReachable (.upTo 3) pairContent comes := by
  obtain ⟨mid, first, second⟩ := Option.bind_eq_some_iff.mp played
  refine ⟨fun _ => pair, fun _ => ⟨⟨_, rfl, fun _ => rfl⟩, rfl⟩, ?_⟩
  exact ((streamRun_of_playWhere sound first).tail (.compact 1 (by decide) 1)).trans
    (streamRun_of_playWhere sound second)

/-- All pieces arrive in turn, and `3` installs the snapshot. -/
theorem snapshots_arrive_pair : ∃ s : Cluster, s.StreamReachable (.upTo 3) pairContent InOrder ∧
    ∃ bytes, Effect.swapStateMachine 2 2 bytes ∈ s.hist 3 ∧ ∃ src ∈ (Membership.upTo 3).members,
      bytes = pairContent src ⟨2, 2⟩ := by
  have observed : (afterCompaction (fun s p input => decide (s.InOrder (.upTo 3) p input))
      [.handle 1 (.heartbeatTimer 3), .deliver 1, .handle 1 (.heartbeatTimer 3), .deliver 1,
        .handle 1 (.heartbeatTimer 3), .deliver 1]).any
      (fun s => decide (Effect.swapStateMachine 2 2 [7, 8] ∈ s.hist 3)) = true := by decide +kernel
  obtain ⟨s, played, installed⟩ := (Option.any_eq_true ..).mp observed
  have reachable := @reachable_afterCompaction s InOrder _ _
    (fun _ _ _ holds => of_decide_eq_true holds) played
  have mem : 3 ∈ (Membership.upTo 3).members := by decide
  have installed := of_decide_eq_true installed
  exact ⟨s, reachable, _, installed, (snapshots_arrive reachable mem).2.2 2 2 _ installed⟩

/-- The first piece is lost.  The writer of `3` takes the second one all the same, and
with the last one `3` installs the second half of the snapshot. -/
theorem not_snapshots_arrive : ¬∀ (m : Membership) (content : Addr → StateMachine → Bytes)
    (s : Cluster), s.StreamReachable m content Unordered → ∀ p ∈ m.members,
    (∀ src writer, ((s.node p).snapshotMgr.val src).writer = some writer →
      writer.bytes <+: content src ⟨writer.lastIndex, writer.lastTerm⟩) ∧
    (∀ msg now, s.Enabled m p (.recv (.installSnapshot msg) now) →
      ∃ n, (s.node p).handle (.recv (.installSnapshot msg) now) = .ok n) ∧
    ∀ lastIndex lastTerm bytes, Effect.swapStateMachine lastIndex lastTerm bytes ∈ s.hist p →
      ∃ src ∈ m.members, bytes = content src ⟨lastIndex, lastTerm⟩ := by
  intro all
  have observed : (afterCompaction (fun _ _ _ => true)
      [.handle 1 (.heartbeatTimer 3), .handle 1 (.heartbeatTimer 3), .deliver 1,
        .handle 1 (.heartbeatTimer 3), .deliver 1]).any
      (fun s => decide (Effect.swapStateMachine 2 2 [8] ∈ s.hist 3)) = true := by decide +kernel
  obtain ⟨s, played, installed⟩ := (Option.any_eq_true ..).mp observed
  have reachable := @reachable_afterCompaction s Unordered _ _ (fun _ _ _ _ => trivial) played
  obtain ⟨-, -, complete⟩ := all _ _ s reachable 3 (by decide)
  obtain ⟨src, -, bytes⟩ := complete 2 2 [8] (of_decide_eq_true installed)
  exact absurd (show ([8] : Bytes) = [7, 8] from bytes) (by decide)

end Cluster

end Vraft
