import Vraft.Raft.Snapshots
import Vraft.Votes.PreVote

/-!
# What a handler sends

In a cluster whose membership is fixed each kind of message has few places that
send it.  Vote requests leave with their timer, a reply answers the message that
is being handled, and a leader writes to its peers.  On the way its readers hand
out their snapshots piece by piece, and its table keeps an index to send from for
every peer.
-/

namespace Vraft

/-! ## Pieces -/

/-- The bytes of the image from `offset` on begin with `data`.  The last piece is the
empty one at the end. -/
structure Image.HasPiece (image : Image) (offset : ℤ) (data : Bytes) (done : Bool) : Prop where
  within : ∃ before after, image.bytes = before ++ data ++ after ∧ offset = before.length
  ends : done = true → data = [] ∧ offset = image.bytes.length

/-- The reader has handed out the beginning of the image, and has the rest of it. -/
structure SnapshotReader.Within (reader : SnapshotReader) (image : Image) : Prop where
  split : ∃ taken, taken ++ reader.rest.pieces = image.pieces ∧
    taken.flatten.length = reader.offset

namespace SnapshotHooks

/-- The reader is one that the server has created. -/
def Serves (hooks : SnapshotHooks) (reader : SnapshotReader) : Prop :=
  ∃ createReader, hooks.createReader = some createReader ∧
    reader.Within (createReader ⟨reader.lastIndex, reader.lastTerm⟩)

/-- The message has a piece of what such a reader hands out. -/
def Supplies (hooks : SnapshotHooks) (msg : InstallSnapshot) : Prop :=
  ∃ createReader, hooks.createReader = some createReader ∧
    (createReader ⟨msg.lastIndex, msg.lastTerm⟩).HasPiece msg.offset msg.data msg.done

end SnapshotHooks

/-- Every peer has an index to send from. -/
def IndexManager.Stocked (indices : IndexManager) (peers : List Addr) : Prop :=
  ∀ q ∈ peers, q ∈ indices.keys ∧ 0 < indices.getNext q

/-- A node with the configuration `rc`, ready to write to every peer. -/
structure Wired (rc : RaftConfig) (n : Node) : Prop extends Fixed rc n where
  indices : n.indexMgr.Stocked rc.peers
  readers : ∀ dest reader, (n.snapshotMgr.val dest).reader = some reader → n.hooks.Serves reader

/-- Effects that do not depend on the message that is being handled: a leader writes to
its peers, and it sends pieces of what its readers hand out. -/
def Effect.Onward (rc : RaftConfig) (hooks : SnapshotHooks) : Effect → Prop
  | .send (.requestVote _) => False
  | .send (.requestVoteReply _) => False
  | .send (.appendEntriesReply _) => False
  | .send (.installSnapshotReply _) => False
  | .send (.appendEntries msg) => msg.dest ∈ rc.peers
  | .send (.installSnapshot msg) => msg.dest ∈ rc.peers ∧ hooks.Supplies msg
  | .becomeLeader _ => False
  | .swapStateMachine _ _ _ => False
  | .countSelf _ addr => addr = rc.me
  | _ => True

/-- The node is still wired, and what it has done goes onward. -/
structure Conveys (rc : RaftConfig) (n n' : Node) : Prop where
  wired : Wired rc n'
  hooks : n'.hooks = n.hooks
  writers : ∀ src, (n'.snapshotMgr.val src).writer = (n.snapshotMgr.val src).writer
  effects : ∃ more, n'.effects = n.effects ++ more ∧ ∀ effect ∈ more, effect.Onward rc n.hooks

/-! ## Readers -/

section Readers

variable {image : Image} {reader : SnapshotReader}

theorem SnapshotReader.within_create (lastIndex lastTerm : ℕ) :
    (SnapshotReader.create lastIndex lastTerm image).Within image :=
  ⟨[], rfl, rfl⟩

theorem SnapshotReader.read_same :
    reader.read.2.lastIndex = reader.lastIndex ∧ reader.read.2.lastTerm = reader.lastTerm := by
  rcases reader with ⟨lastIndex, lastTerm, data, offset, done, ⟨pieces, nonempty⟩⟩
  cases pieces with
  | nil => exact ⟨rfl, rfl⟩
  | cons piece rest => exact ⟨rfl, rfl⟩

/-- A piece that is read is one of the image, and reading goes on behind it. -/
theorem SnapshotReader.Within.read (within : reader.Within image) :
    reader.read.2.Within image ∧
      image.HasPiece reader.offset reader.read.2.data (reader.read.1 = 0) := by
  rcases reader with ⟨lastIndex, lastTerm, data, offset, done, ⟨pieces, nonempty⟩⟩
  obtain ⟨taken, split, length⟩ := within
  have bytes : image.bytes = taken.flatten ++ pieces.flatten := by
    rw [Image.bytes, ← split, List.flatten_append]
  replace length : taken.flatten.length = offset := length
  cases pieces with
  | nil =>
      have all : image.bytes = taken.flatten := by simpa using bytes
      refine ⟨⟨taken, split, length⟩, ⟨⟨taken.flatten, [], by simp [all, SnapshotReader.read], ?_⟩, ?_⟩⟩
      · exact congrArg Nat.cast length.symm
      · intro _
        rw [all, length]
        exact ⟨rfl, rfl⟩
  | cons piece rest =>
      refine ⟨⟨taken ++ [piece], ?_, ?_⟩, ⟨⟨taken.flatten, rest.flatten, ?_, ?_⟩, ?_⟩⟩
      · rw [List.append_assoc]
        exact split
      · simp [SnapshotReader.read, length]
      · rw [bytes, List.flatten_cons, List.append_assoc]
        rfl
      · exact congrArg Nat.cast length.symm
      · intro ends
        have positive : 0 < piece.length :=
          List.length_pos_of_ne_nil (nonempty piece List.mem_cons_self)
        have zero : offset + piece.length = 0 := of_decide_eq_true ends
        omega

end Readers

/-! ## Indices -/

namespace IndexManager

variable {indices : IndexManager} {peers : List Addr}

theorem Stocked.set (stocked : indices.Stocked peers) (addr : Addr) (item : IndexItem)
    (positive : 0 < item.next ∨ item.next = (indices.val addr).next) :
    IndexManager.Stocked (Table.set indices addr item) peers := by
  intro q mem
  obtain ⟨inside, next⟩ := stocked q mem
  refine ⟨(Table.mem_set_keys _ _).mpr (.inr inside), ?_⟩
  rw [getNext, Table.set_val]
  split
  · rename_i same
    subst same
    rcases positive with positive | kept
    · exact positive
    · rw [kept]
      exact next
  · exact next

theorem Stocked.touch (stocked : indices.Stocked peers) (addr : Addr) :
    IndexManager.Stocked (Table.touch indices addr) peers :=
  stocked.set addr _ (.inr rfl)

theorem Stocked.setNext (stocked : indices.Stocked peers) (addr : Addr) {index : ℕ}
    (positive : 0 < index) : (indices.setNext addr index).Stocked peers :=
  stocked.set addr _ (.inl positive)

theorem Stocked.setMatch (stocked : indices.Stocked peers) (addr : Addr) (index : ℕ) :
    (indices.setMatch addr index).Stocked peers :=
  stocked.set addr _ (.inr rfl)

theorem Stocked.renew {index : ℕ} (positive : 0 < index) (known : ∀ q ∈ peers, q ∈ indices.keys) :
    ((indices.resetNext index).resetMatch 0).Stocked peers := by
  intro q mem
  have inside := known q mem
  have inside' : q ∈ (indices.resetNext index).keys := inside
  refine ⟨inside, ?_⟩
  rw [getNext, resetMatch, Table.mapValues_val_of_mem _ _ inside', resetNext,
    Table.mapValues_val_of_mem _ _ inside]
  exact positive

theorem Stocked.reset (stocked : indices.Stocked peers) {index : ℕ} (positive : 0 < index) :
    ((indices.resetNext index).resetMatch 0).Stocked peers :=
  .renew positive fun q mem => (stocked q mem).1

end IndexManager

section Conveys

variable {rc : RaftConfig} {input : Input} {n n₁ n' : Node}

/-- Anything may fail. -/
abbrev Fails (_ : AssertSite × Node) : Prop := True

theorem check_conveys {site : AssertSite} {c : Prop} [Decidable c] :
    Meets (n.check site c) (fun n' => c ∧ n = n') Fails := by
  unfold Node.check
  split
  · rename_i holds
    exact Meets.ok ⟨holds, rfl⟩
  · exact Meets.error trivial

theorem Conveys.refl (wired : Wired rc n) : Conveys rc n n :=
  ⟨wired, rfl, fun _ => rfl, [], by simp, by simp⟩

theorem Conveys.trans (first : Conveys rc n n₁) (second : Conveys rc n₁ n') :
    Conveys rc n n' := by
  obtain ⟨early, early_eq, early_onward⟩ := first.effects
  obtain ⟨late, late_eq, late_onward⟩ := second.effects
  refine ⟨second.wired, second.hooks.trans first.hooks,
    fun src => (second.writers src).trans (first.writers src), early ++ late, ?_, ?_⟩
  · rw [late_eq, early_eq, List.append_assoc]
  · intro effect mem
    rcases List.mem_append.mp mem with mem | mem
    · exact early_onward effect mem
    · rw [← first.hooks]
      exact late_onward effect mem

/-- The managers and the log have not changed. -/
theorem Conveys.of_same (wired : Wired rc n) (more : List Effect)
    (onward : ∀ effect ∈ more, effect.Onward rc n.hooks) (configMgr : n'.configMgr = n.configMgr)
    (log : n'.log = n.log) (indexMgr : n'.indexMgr = n.indexMgr)
    (snapshotMgr : n'.snapshotMgr = n.snapshotMgr) (hooks : n'.hooks = n.hooks)
    (effects : n'.effects = n.effects ++ more) : Conveys rc n n' where
  wired := {
    toFixed := wired.toFixed.congr configMgr log
    indices := by
      rw [indexMgr]
      exact wired.indices
    readers := by
      rw [snapshotMgr, hooks]
      exact wired.readers }
  hooks := hooks
  writers src := by rw [snapshotMgr]
  effects := ⟨more, effects, onward⟩

/-- Nothing has been sent either. -/
theorem Conveys.silent (wired : Wired rc n) (configMgr : n'.configMgr = n.configMgr)
    (log : n'.log = n.log) (indexMgr : n'.indexMgr = n.indexMgr)
    (snapshotMgr : n'.snapshotMgr = n.snapshotMgr) (hooks : n'.hooks = n.hooks)
    (effects : n'.effects = n.effects) : Conveys rc n n' :=
  .of_same wired [] (by simp) configMgr log indexMgr snapshotMgr hooks
    (effects.trans (List.append_nil _).symm)

/-- One effect. -/
theorem Conveys.emit (wired : Wired rc n) (effect : Effect) (onward : effect.Onward rc n.hooks)
    (configMgr : n'.configMgr = n.configMgr) (log : n'.log = n.log)
    (indexMgr : n'.indexMgr = n.indexMgr) (snapshotMgr : n'.snapshotMgr = n.snapshotMgr)
    (hooks : n'.hooks = n.hooks) (effects : n'.effects = n.effects ++ [effect]) :
    Conveys rc n n' := by
  refine .of_same wired [effect] (fun other mem => ?_) configMgr log indexMgr snapshotMgr hooks
    effects
  obtain rfl := List.mem_singleton.mp mem
  exact onward

/-- The table of indices has changed. -/
theorem Conveys.indexed (wired : Wired rc n) {indices : IndexManager}
    (stocked : indices.Stocked rc.peers) : Conveys rc n { n with indexMgr := indices } where
  wired := { wired with indices := stocked }
  hooks := rfl
  writers _ := rfl
  effects := ⟨[], by simp, by simp⟩

/-! ## Commitment -/

theorem applyOne_conveys (wired : Wired rc n) (index : ℕ) :
    Meets (n.applyOne index) (Conveys rc n) Fails := by
  unfold Node.applyOne
  split
  · exact Meets.error trivial
  · split
    · split
      · exact Meets.ok (.emit wired (.apply _) trivial rfl rfl rfl rfl rfl rfl)
      · exact Meets.ok (.refl wired)
    · refine Meets.ok ?_
      split
      · exact .silent wired rfl rfl rfl rfl rfl rfl
      · exact .refl wired
    · exact Meets.ok (.refl wired)
    · exact Meets.error trivial

theorem applyFrom_conveys (wired : Wired rc n) (index count : ℕ) :
    Meets (n.applyFrom index count) (Conveys rc n) Fails := by
  induction count generalizing n index with
  | zero => exact Meets.ok (.refl wired)
  | succ count ih =>
      refine Meets.bind (applyOne_conveys wired index) fun n₁ conveys => ?_
      exact (ih conveys.wired (index + 1)).mono (fun _ => conveys.trans) fun _ => id

theorem stateMachineApply_conveys (wired : Wired rc n) :
    Meets n.stateMachineApply (Conveys rc n) Fails := by
  unfold Node.stateMachineApply
  split
  · refine Meets.bind (applyFrom_conveys wired _ _) fun n₁ conveys => Meets.ok ?_
    exact conveys.trans (.silent conveys.wired rfl rfl rfl rfl rfl rfl)
  · exact Meets.ok (.refl wired)

theorem maybeCommit_conveys (wired : Wired rc n) : Meets n.maybeCommit (Conveys rc n) Fails := by
  unfold Node.maybeCommit
  refine Meets.bind check_conveys ?_
  rintro _ ⟨-, rfl⟩
  dsimp only
  split
  · exact Meets.ok (.refl wired)
  refine Meets.bind check_conveys ?_
  rintro _ ⟨-, rfl⟩
  split
  · exact Meets.error trivial
  · split
    · exact Meets.ok (.refl wired)
    · have raised : Conveys rc n { n with commit := n.indexMgr.majorityMax n.lastIndex } :=
        .silent wired rfl rfl rfl rfl rfl rfl
      refine Meets.bind check_conveys ?_
      rintro _ ⟨-, rfl⟩
      exact (stateMachineApply_conveys raised.wired).mono (fun _ => raised.trans) fun _ => id

theorem learnCommit_conveys (wired : Wired rc n) (index : ℕ) :
    Meets (n.learnCommit index) (Conveys rc n) Fails := by
  unfold Node.learnCommit
  split
  · dsimp only
    have raised : Conveys rc n { n with commit := index } :=
      .silent wired rfl rfl rfl rfl rfl rfl
    refine Meets.bind check_conveys ?_
    rintro _ ⟨-, rfl⟩
    exact (stateMachineApply_conveys raised.wired).mono (fun _ => raised.trans) fun _ => id
  · exact Meets.ok (.refl wired)

/-! ## Writes to the log -/

/-- The log has changed, and what was done went onward. -/
theorem Conveys.written (wired : Wired rc n) (fixed : Fixed rc n') (effect : Effect)
    (onward : effect.Onward rc n.hooks) (indexMgr : n'.indexMgr = n.indexMgr)
    (snapshotMgr : n'.snapshotMgr = n.snapshotMgr) (hooks : n'.hooks = n.hooks)
    (effects : n'.effects = n.effects ++ [effect]) : Conveys rc n n' where
  wired := {
    toFixed := fixed
    indices := by
      rw [indexMgr]
      exact wired.indices
    readers := by
      rw [snapshotMgr, hooks]
      exact wired.readers }
  hooks := hooks
  writers src := by rw [snapshotMgr]
  effects := by
    refine ⟨[effect], effects, fun other mem => ?_⟩
    obtain rfl := List.mem_singleton.mp mem
    exact onward

theorem appendOne_conveys (wired : Wired rc n) {entry : AppendEntry} (plain : entry.Plain) :
    Meets (n.appendOne entry) (Conveys rc n) Fails := by
  have still := @appendOne_still rc n True wired.toFixed entry plain
  rw [Node.appendOne_eq plain] at still ⊢
  exact Meets.ok (.written wired (still.of_ok rfl).fixed (.appendLog entry) trivial rfl rfl rfl rfl)

theorem appendAll_conveys (wired : Wired rc n) {entries : List LogEntry}
    (plain : ∀ entry ∈ entries, entry.appendEntry.Plain) :
    Meets (n.appendAll entries) (Conveys rc n) Fails := by
  induction entries generalizing n with
  | nil => exact Meets.ok (.refl wired)
  | cons entry rest ih =>
      refine Meets.bind (appendOne_conveys wired (plain entry List.mem_cons_self)) fun n₁ conveys => ?_
      exact (ih conveys.wired fun other mem => plain other (List.mem_cons_of_mem _ mem)).mono
        (fun _ => conveys.trans) fun _ => id

theorem deleteFrom_conveys (wired : Wired rc n) (from_ : ℕ) :
    Meets (n.deleteFrom from_) (Conveys rc n) Fails := by
  refine Meets.intro_ (fun n' done => ?_) fun _ _ => trivial
  have fixed := ((@deleteFrom_still rc n True wired.toFixed from_).of_ok done).fixed
  rcases deleteFrom_cases done with ⟨-, rfl⟩ | ⟨-, -, rfl⟩ | ⟨index, n₁, something, one, -, -⟩
  · exact .refl wired
  · exact .written wired fixed (.truncateLog from_) trivial rfl rfl rfl rfl
  · have mem : index ∈ n.log.configsFrom from_ := by rw [one]; exact List.mem_singleton_self _
    have nonempty : n.log.entries ≠ [] := fun empty => something (.inl empty)
    have first : n.log.first = n.log.base + 1 := if_neg nonempty
    rw [Log.configsFrom, if_neg something, wired.configs] at mem
    simp [first] at mem

theorem acceptEntries_conveys (wired : Wired rc n) {index : ℕ} {entries : List LogEntry}
    (plain : ∀ entry ∈ entries, entry.appendEntry.Plain) :
    Meets (n.acceptEntries index entries) (Conveys rc n) Fails := by
  induction entries generalizing index with
  | nil => exact Meets.ok (.refl wired)
  | cons entry rest ih =>
      have onward : Meets (n.acceptEntries (index + 1) rest) (Conveys rc n) Fails :=
        ih fun other mem => plain other (List.mem_cons_of_mem _ mem)
      unfold Node.acceptEntries
      refine Meets.bind check_conveys ?_
      rintro _ ⟨-, rfl⟩
      split
      · exact onward
      split
      · split
        · exact Meets.error trivial
        · split
          · exact onward
          · refine Meets.bind check_conveys ?_
            rintro _ ⟨-, rfl⟩
            refine Meets.bind (deleteFrom_conveys wired _) fun n₁ conveys => ?_
            exact (appendAll_conveys conveys.wired plain).mono (fun _ => conveys.trans) fun _ => id
      · exact appendAll_conveys wired plain

/-! ## Sends of a leader -/

/-- A reader that is at hand or new serves what the server has created. -/
theorem Wired.readerFor (wired : Wired rc n) {dest : Addr} {reader : SnapshotReader}
    (found : n.readerFor dest = some reader) : n.hooks.Serves reader := by
  unfold Node.readerFor at found
  rcases Option.or_eq_some_iff.mp found with open_ | ⟨-, new⟩
  · exact wired.readers dest reader open_
  · obtain ⟨createReader, created, rfl⟩ := Option.map_eq_some_iff.mp new
    exact ⟨createReader, created, SnapshotReader.within_create _ _⟩

theorem sendInstallSnapshot_conveys (wired : Wired rc n) {dest : Addr} (peer : dest ∈ rc.peers) :
    Meets (n.sendInstallSnapshot dest) (Conveys rc n) Fails := by
  refine Meets.intro_ (fun n' done => ?_) fun _ _ => trivial
  obtain ⟨reader, found, pieces⟩ := Node.sendInstallSnapshot_cases done
  obtain ⟨createReader, created, within⟩ := wired.readerFor found
  obtain ⟨onward, piece⟩ := within.read
  obtain ⟨lastIndex, lastTerm⟩ := @SnapshotReader.read_same reader
  have hooks : n'.hooks = n.hooks := by rw [pieces.same]
  refine ⟨⟨wired.toFixed.congr ?_ ?_, ?_, fun addr other open_ => ?_⟩, hooks, pieces.writers,
    _, pieces.effects, fun effect mem => ?_⟩
  · rw [pieces.same]
  · rw [pieces.same]
  · rw [pieces.same]
    exact wired.indices
  · rw [hooks]
    rw [pieces.readers] at open_
    split at open_
    · obtain rfl := Option.some.inj open_
      refine ⟨createReader, created, ?_⟩
      rw [lastIndex, lastTerm]
      exact onward
    · exact wired.readers addr other open_
  · obtain rfl := List.mem_singleton.mp mem
    exact ⟨peer, createReader, created, piece⟩

theorem sendAppendEntries_conveys (wired : Wired rc n) {dest : Addr} (peer : dest ∈ rc.peers) :
    Meets (n.sendAppendEntries dest) (Conveys rc n) Fails := by
  unfold Node.sendAppendEntries
  dsimp only
  have touched : Conveys rc n { n with indexMgr := n.indexMgr.touch dest } :=
    .indexed wired (wired.indices.touch dest)
  have streams := (sendInstallSnapshot_conveys touched.wired peer).mono (fun _ => touched.trans)
    fun _ => id
  refine Meets.bind check_conveys ?_
  rintro _ ⟨-, rfl⟩
  split
  · exact streams
  · refine Meets.bind (Meets.intro_ (fun _ _ => trivial) fun _ _ => trivial) fun preTerm _ => ?_
    split
    · exact streams
    · refine Meets.bind (Meets.intro_ (fun _ _ => trivial) fun _ _ => trivial) fun entries _ =>
        Meets.ok ?_
      refine touched.trans
        (.emit touched.wired (.send (.appendEntries _)) ?_ rfl rfl rfl rfl rfl rfl)
      exact peer

theorem sendAndBeat_conveys (wired : Wired rc n) {dest : Addr} (peer : dest ∈ rc.peers) :
    Meets (do
      let n ← n.sendAppendEntries dest
      Except.ok { n with timerMgr := n.timerMgr.againHeartBeatOf dest }) (Conveys rc n) Fails := by
  refine Meets.bind (sendAppendEntries_conveys wired peer) fun n₁ conveys => Meets.ok ?_
  exact conveys.trans (.silent conveys.wired rfl rfl rfl rfl rfl rfl)

theorem replicate_conveys (wired : Wired rc n) {dests : List Addr}
    (peers : ∀ dest ∈ dests, dest ∈ rc.peers) : Meets (n.replicate dests) (Conveys rc n) Fails := by
  induction dests generalizing n with
  | nil => exact Meets.ok (.refl wired)
  | cons dest rest ih =>
      rw [List.forall_mem_cons] at peers
      refine Meets.bind (sendAppendEntries_conveys wired peers.1) fun n₁ conveys => ?_
      have beaten : Conveys rc n₁ { n₁ with timerMgr := n₁.timerMgr.againHeartBeatOf dest } :=
        .silent conveys.wired rfl rfl rfl rfl rfl rfl
      exact (ih beaten.wired peers.2).mono (fun _ => (conveys.trans beaten).trans) fun _ => id

theorem doPropose_conveys (wired : Wired rc n) (value : Bytes) :
    Meets (n.doPropose value .data) (Conveys rc n) Fails := by
  unfold Node.doPropose
  refine Meets.bind (appendOne_conveys wired (.inl rfl)) fun n₁ appended => ?_
  refine Meets.bind (maybeCommit_conveys appended.wired) fun n₂ committed => ?_
  have conveys := appended.trans committed
  refine (replicate_conveys conveys.wired fun dest mem => ?_).mono (fun _ => conveys.trans) fun _ => id
  rwa [Node.peers, conveys.wired.current] at mem

/-! ## Changing role -/

theorem stepDown_conveys (wired : Wired rc n) (newTerm : ℕ) :
    Meets (n.stepDown newTerm) (Conveys rc n) Fails := by
  unfold Node.stepDown
  refine Meets.bind check_conveys ?_
  rintro _ ⟨-, rfl⟩
  dsimp only
  split
  · refine Meets.ok (.of_same wired [.persistTerm newTerm, .persistVote 0] ?_ rfl rfl rfl rfl rfl ?_)
    · simp [Effect.Onward]
    · simp [Node.setVote, Node.setTerm, Node.emit]
  · exact Meets.ok (.silent wired rfl rfl rfl rfl rfl rfl)

theorem maybeStepDown_conveys (wired : Wired rc n) (newTerm : ℕ) :
    Meets (n.maybeStepDown newTerm) (Conveys rc n) Fails := by
  unfold Node.maybeStepDown
  split
  · exact stepDown_conveys wired newTerm
  · exact Meets.ok (.refl wired)

theorem hearLeader_conveys (wired : Wired rc n) (src : Addr) (term : ℕ) (now : ℤ) :
    Meets (n.hearLeader src term now) (Conveys rc n) Fails := by
  unfold Node.hearLeader
  refine Meets.bind (stepDown_conveys wired term) fun n₁ down => ?_
  dsimp only
  have noted : Conveys rc n₁ { n₁ with
      timerMgr := n₁.timerMgr.stopRequestVote.againElection
      lastHeartbeatTimestamp := now } := .silent down.wired rfl rfl rfl rfl rfl rfl
  split
  · exact Meets.ok ((down.trans noted).trans (.silent noted.wired rfl rfl rfl rfl rfl rfl))
  · refine check_conveys.mono ?_ fun _ => id
    rintro _ ⟨-, rfl⟩
    exact down.trans noted

theorem countSelf_conveys (wired : Wired rc n) : Conveys rc n n.countSelf := by
  unfold Node.countSelf
  split
  · refine .emit wired (.countSelf _ _) ?_ rfl rfl rfl rfl rfl rfl
    exact wired.toFixed.me
  · exact .refl wired

theorem maybeVote_conveys (wired : Wired rc n) (msg : RequestVote) (ok : Bool) :
    Meets (n.maybeVote msg ok) (Conveys rc n) Fails := by
  unfold Node.maybeVote
  split
  · split
    · refine Meets.bind (stepDown_conveys wired n.solid.term) fun n₁ down => ?_
      dsimp only
      split
      · exact Meets.ok (down.trans (.silent down.wired rfl rfl rfl rfl rfl rfl))
      · exact Meets.ok (down.trans
          (.emit down.wired (.persistVote msg.src) trivial rfl rfl rfl rfl rfl rfl))
    · exact Meets.ok (.refl wired)
  · exact Meets.ok (.refl wired)

/-! ## Replies to a leader -/

theorem raiseMatch_conveys (wired : Wired rc n) (src : Addr) (acked : ℕ) :
    Meets (n.raiseMatch src acked) (Conveys rc n) Fails := by
  unfold Node.raiseMatch
  dsimp only
  have touched := wired.indices.touch src
  split
  · exact Meets.ok (.indexed wired touched)
  · have raised : Conveys rc n { n with
        indexMgr := IndexManager.setMatch (n.indexMgr.touch src) src acked } :=
      .indexed wired (touched.setMatch src acked)
    exact (maybeCommit_conveys raised.wired).mono (fun _ => raised.trans) fun _ => id

theorem onMismatch_conveys (wired : Wired rc n) (msg : AppendEntriesReply) :
    Conveys rc n (n.onMismatch msg) := by
  refine .indexed wired ?_
  have touched : IndexManager.Stocked (n.indexMgr.touch msg.src) rc.peers :=
    wired.indices.touch msg.src
  split
  · rename_i above
    have stepped : IndexManager.Stocked (IndexManager.setNext (n.indexMgr.touch msg.src) msg.src
        (IndexManager.getNext (n.indexMgr.touch msg.src) msg.src - 1)) rc.peers :=
      touched.setNext msg.src (by omega)
    split
    · exact stepped.setNext msg.src (by omega)
    · exact stepped
  · split
    · exact touched.setNext msg.src (by omega)
    · exact touched

theorem onIndexReply_conveys (wired : Wired rc n) (msg : AppendEntriesReply) :
    Meets (n.onIndexReply msg) (Conveys rc n) Fails := by
  unfold Node.onIndexReply
  split
  · refine Meets.bind (raiseMatch_conveys wired _ _) fun n₁ conveys => Meets.ok ?_
    exact conveys.trans (.indexed conveys.wired (conveys.wired.indices.setNext _ (by omega)))
  · exact Meets.ok (onMismatch_conveys wired msg)

/-- No reader has been opened. -/
theorem Conveys.snapshots (wired : Wired rc n) {snapshots : SnapshotManager}
    (readers : ∀ dest reader, (snapshots.val dest).reader = some reader →
      (n.snapshotMgr.val dest).reader = some reader)
    (writers : ∀ src, (snapshots.val src).writer = (n.snapshotMgr.val src).writer) :
    Conveys rc n { n with snapshotMgr := snapshots } where
  wired := { wired with
    readers := fun dest reader open_ => wired.readers dest reader (readers dest reader open_) }
  hooks := rfl
  writers := writers
  effects := ⟨[], by simp, by simp⟩

theorem onSnapshotStored_conveys (wired : Wired rc n) (msg : InstallSnapshotReply)
    (reader : SnapshotReader) : Meets (n.onSnapshotStored msg reader) (Conveys rc n) Fails := by
  unfold Node.onSnapshotStored
  split
  · dsimp only
    have raised : Conveys rc n { n with
        indexMgr := IndexManager.setNext (n.indexMgr.setMatch msg.src reader.lastIndex) msg.src
          (IndexManager.getMatch (n.indexMgr.setMatch msg.src reader.lastIndex) msg.src + 1) } :=
      .indexed wired ((wired.indices.setMatch _ _).setNext _ (by omega))
    refine Meets.bind (maybeCommit_conveys raised.wired) fun n₁ committed => Meets.ok ?_
    refine (raised.trans committed).trans (.snapshots committed.wired (fun dest other open_ => ?_)
      fun src => SnapshotManager.setReader_writer _ _ _ _)
    rw [SnapshotManager.setReader_reader] at open_
    split at open_
    · contradiction
    · exact open_
  · exact Meets.ok (.refl wired)

theorem sendNext_conveys (wired : Wired rc n) {dest : Addr} (peer : dest ∈ rc.peers) :
    Meets (n.sendNext dest) (Conveys rc n) Fails := by
  unfold Node.sendNext
  have looked : Conveys rc n { n with indexMgr := n.indexMgr.touch dest } :=
    .indexed wired (wired.indices.touch dest)
  dsimp only
  split
  · exact (sendAndBeat_conveys looked.wired peer).mono (fun _ => looked.trans) fun _ => id
  · exact Meets.ok looked

/-! ## Elections -/

/-- The node is still wired.  If it has become leader it is one, in the term in which
it became leader, and all else that it has done goes onward. -/
structure Runs (rc : RaftConfig) (n n' : Node) : Prop where
  wired : Wired rc n'
  hooks : n'.hooks = n.hooks
  writers : ∀ src, (n'.snapshotMgr.val src).writer = (n.snapshotMgr.val src).writer
  effects : ∃ more, n'.effects = n.effects ++ more ∧ ∀ effect ∈ more,
    effect.Onward rc n.hooks ∨ effect = .becomeLeader n'.solid.term ∧ n'.state = .leader

theorem Conveys.runs (conveys : Conveys rc n n') : Runs rc n n' := by
  obtain ⟨more, more_eq, onward⟩ := conveys.effects
  exact ⟨conveys.wired, conveys.hooks, conveys.writers, more, more_eq,
    fun effect mem => .inl (onward effect mem)⟩

theorem Conveys.trans_runs (first : Conveys rc n n₁) (second : Runs rc n₁ n') : Runs rc n n' := by
  obtain ⟨early, early_eq, early_onward⟩ := first.effects
  obtain ⟨late, late_eq, late_onward⟩ := second.effects
  refine ⟨second.wired, second.hooks.trans first.hooks,
    fun src => (second.writers src).trans (first.writers src), early ++ late, ?_, ?_⟩
  · rw [late_eq, early_eq, List.append_assoc]
  · intro effect mem
    rcases List.mem_append.mp mem with mem | mem
    · exact .inl (early_onward effect mem)
    · rw [← first.hooks]
      exact late_onward effect mem

theorem becomeLeader_runs (wired : Wired rc n) : Meets n.becomeLeader (Runs rc n) Fails := by
  unfold Node.becomeLeader
  refine Meets.bind check_conveys ?_
  rintro _ ⟨-, rfl⟩
  dsimp only
  unfold Node.appendNoop
  have plain : AppendEntry.Plain ⟨n.solid.term, .noop, Node.noopValue⟩ := .inr rfl
  rw [Node.appendOne_eq (.inr rfl)]
  refine Meets.ok ⟨⟨⟨wired.current, ?_, fun entry mem => ?_⟩,
    wired.indices.reset (by omega), wired.readers⟩, rfl, fun _ => rfl,
    [.becomeLeader n.solid.term, .appendLog ⟨n.solid.term, .noop, Node.noopValue⟩], ?_, ?_⟩
  · exact (Log.appendOne_configs plain n.log).trans wired.configs
  · rcases List.mem_append.mp mem with mem | mem
    · exact wired.plain entry mem
    · obtain rfl := List.mem_singleton.mp mem
      exact plain
  · simp [Node.emit]
  · intro effect mem
    simp only [List.mem_cons, List.not_mem_nil, or_false] at mem
    rcases mem with rfl | rfl
    · exact .inr ⟨rfl, rfl⟩
    · exact .inl trivial

theorem doRequestVote_runs (wired : Wired rc n) : Meets n.doRequestVote (Runs rc n) Fails := by
  unfold Node.doRequestVote
  dsimp only
  set standing := (n.incrTerm.becomeCandidate).setVote n.incrTerm.becomeCandidate.me with standing_eq
  have stands : Conveys rc n standing := by
    refine .of_same wired [.persistTerm (n.solid.term + 1), .persistVote n.me] ?_ rfl rfl rfl rfl
      rfl ?_
    · simp [Effect.Onward]
    · simp [standing_eq, Node.setVote, Node.becomeCandidate, Node.incrTerm, Node.setTerm, Node.emit,
        Node.me]
  have counted := stands.trans (countSelf_conveys stands.wired)
  split
  · exact (becomeLeader_runs counted.wired).mono (fun _ => counted.trans_runs) fun _ => id
  · refine Meets.ok (Conveys.runs (counted.trans ?_))
    exact .silent counted.wired rfl rfl rfl rfl rfl rfl

theorem elect_runs (wired : Wired rc n) : Meets n.elect (Runs rc n) Fails := by
  unfold Node.elect
  refine Meets.bind check_conveys ?_
  rintro _ ⟨-, rfl⟩
  split
  · refine Meets.ok (Conveys.runs ?_)
    exact .silent wired rfl rfl rfl rfl rfl rfl
  split
  · refine Meets.ok (Conveys.runs ?_)
    exact .silent wired rfl rfl rfl rfl rfl rfl
  · have silent : Conveys rc n { n with preVoting := false } :=
      .silent wired rfl rfl rfl rfl rfl rfl
    exact (doRequestVote_runs silent.wired).mono (fun _ => silent.trans_runs) fun _ => id

theorem onRequestVoteReply_runs (wired : Wired rc n) (msg : RequestVoteReply) :
    Meets (n.onRequestVoteReply msg) (Runs rc n) Fails := by
  unfold Node.onRequestVoteReply
  split
  · exact Meets.ok (Conveys.refl wired).runs
  split
  · exact Meets.ok (Conveys.refl wired).runs
  split
  · exact Meets.ok (Conveys.refl wired).runs
  split
  · exact (stepDown_conveys wired msg.term).mono (fun _ => Conveys.runs) fun _ => id
  refine Meets.bind check_conveys ?_
  rintro _ ⟨-, rfl⟩
  split
  · rw [onPreVote_eq]
    split
    · have silent : Conveys rc n { n with
          timerMgr := n.timerMgr.stopRequestVoteOf msg.src
          voteMgr := n.voteMgr.noted msg
          preVoting := false } := .silent wired rfl rfl rfl rfl rfl rfl
      exact (doRequestVote_runs silent.wired).mono (fun _ => silent.trans_runs) fun _ => id
    · refine Meets.ok (Conveys.runs ?_)
      exact .silent wired rfl rfl rfl rfl rfl rfl
  · unfold Node.onRealVote
    dsimp only
    split
    · have silent : Conveys rc n { n with
          voteMgr := VoteManager.getVote (n.voteMgr.done msg.src) msg.src
          timerMgr := n.timerMgr.stopRequestVoteOf msg.src } := .silent wired rfl rfl rfl rfl rfl rfl
      have counted := silent.trans (countSelf_conveys silent.wired)
      split
      · exact (becomeLeader_runs counted.wired).mono (fun _ => counted.trans_runs) fun _ => id
      · exact Meets.ok counted.runs
    · refine Meets.ok (Conveys.runs ?_)
      exact .silent wired rfl rfl rfl rfl rfl rfl

/-! ## All inputs -/

/-- The peers that an input names are peers, and entries bring no configuration. -/
def Input.Placed (rc : RaftConfig) : Input → Prop
  | .heartbeatTimer dest => dest ∈ rc.peers
  | .recv (.appendEntries msg) _ => ∀ entry ∈ msg.entries, entry.appendEntry.Plain
  | .recv (.appendEntriesReply msg) _ => msg.src ∈ rc.peers
  | .recv (.installSnapshotReply msg) _ => msg.src ∈ rc.peers
  | _ => True

/-- What a handler may do: replies answer what has come, vote requests leave with their
timer, a snapshot is installed with its last piece, and who becomes leader is one. -/
def Input.Emits (rc : RaftConfig) (input : Input) (n n' : Node) : Effect → Prop
  | .send (.requestVote msg) => (∃ dest, input = .requestVoteTimer dest) ∧ n.state = .candidate ∧
      msg.term = n.solid.term ∧ msg.preVote = n.preVoting
  | .send (.requestVoteReply reply) => ∃ msg now, input = .recv (.requestVote msg) now ∧
      reply.dest = msg.src ∧ reply.reqTerm = msg.term ∧ reply.preVote = msg.preVote
  | .send (.appendEntriesReply reply) => ∃ msg now, input = .recv (.appendEntries msg) now ∧
      reply.src = msg.dest ∧ reply.dest = msg.src ∧ reply.reqTerm = msg.term
  | .send (.installSnapshotReply reply) => ∃ msg now, input = .recv (.installSnapshot msg) now ∧
      reply.src = msg.dest ∧ reply.dest = msg.src
  | .becomeLeader term => n'.state = .leader ∧ n'.solid.term = term
  | .swapStateMachine lastIndex lastTerm _ => ∃ msg now,
      input = .recv (.installSnapshot msg) now ∧ msg.lastIndex = lastIndex ∧ msg.lastTerm = lastTerm
  | effect => effect.Onward rc n.hooks

/-- What a handler has done. -/
structure Handled (rc : RaftConfig) (input : Input) (n n' : Node) : Prop where
  wired : Wired rc n'
  hooks : n'.hooks = n.hooks
  writers : (∀ msg now, input ≠ .recv (.installSnapshot msg) now) → ∀ src,
    (n'.snapshotMgr.val src).writer = (n.snapshotMgr.val src).writer
  effects : ∃ more, n'.effects = n.effects ++ more ∧ ∀ effect ∈ more, input.Emits rc n n' effect

theorem Effect.Onward.emits {effect : Effect} (onward : effect.Onward rc n.hooks) :
    input.Emits rc n n' effect := by
  cases effect with
  | becomeLeader term => exact onward.elim
  | swapStateMachine lastIndex lastTerm bytes => exact onward.elim
  | send msg =>
      cases msg with
      | requestVote msg => exact onward.elim
      | requestVoteReply msg => exact onward.elim
      | appendEntriesReply msg => exact onward.elim
      | installSnapshotReply msg => exact onward.elim
      | _ => exact onward
  | _ => exact onward

theorem Runs.handled (runs : Runs rc n n') : Handled rc input n n' := by
  obtain ⟨more, more_eq, onward⟩ := runs.effects
  refine ⟨runs.wired, runs.hooks, fun _ => runs.writers, more, more_eq, fun effect mem => ?_⟩
  rcases onward effect mem with onward | ⟨rfl, leader⟩
  · exact onward.emits
  · exact ⟨leader, rfl⟩

theorem Conveys.handled (conveys : Conveys rc n n') : Handled rc input n n' :=
  conveys.runs.handled

/-- The last thing a handler does is to send a message that belongs to the input. -/
theorem Conveys.sends (conveys : Conveys rc n n₁) (msg : Message)
    (emits : ∀ n', input.Emits rc n n' (.send msg)) : Handled rc input n (n₁.send msg) := by
  obtain ⟨more, more_eq, onward⟩ := conveys.effects
  refine ⟨⟨conveys.wired.toFixed.congr rfl rfl, conveys.wired.indices, conveys.wired.readers⟩,
    conveys.hooks, fun _ => conveys.writers, more ++ [.send msg], ?_, fun effect mem => ?_⟩
  · show n₁.effects ++ [.send msg] = _
    rw [more_eq, List.append_assoc]
  · rcases List.mem_append.mp mem with mem | mem
    · exact (onward effect mem).emits
    · obtain rfl := List.mem_singleton.mp mem
      exact emits _

theorem onRequestVote_handled (wired : Wired rc n) (msg : RequestVote) (now : ℤ) :
    Meets (n.onRequestVote msg now) (Handled rc (.recv (.requestVote msg) now) n) Fails := by
  unfold Node.onRequestVote
  split
  · exact Meets.ok (Conveys.refl wired).handled
  dsimp only
  split
  · refine Meets.bind (maybeStepDown_conveys wired msg.term) fun n₁ down => ?_
    refine Meets.bind check_conveys ?_
    rintro _ ⟨-, rfl⟩
    refine Meets.bind (maybeVote_conveys down.wired msg _) fun n₂ voted => Meets.ok ?_
    exact (down.trans voted).sends _ fun _ => ⟨msg, now, rfl, rfl, rfl, rfl⟩
  · exact Meets.ok ((Conveys.refl wired).sends _ fun _ => ⟨msg, now, rfl, rfl, rfl, rfl⟩)

theorem onAppendEntries_handled (wired : Wired rc n) {msg : AppendEntries} {now : ℤ}
    (plain : ∀ entry ∈ msg.entries, entry.appendEntry.Plain) :
    Meets (n.onAppendEntries msg now) (Handled rc (.recv (.appendEntries msg) now) n) Fails := by
  have replies (term : ℕ) (success : Bool) (last : ℕ) (n' : Node) :
      Input.Emits rc (.recv (.appendEntries msg) now) n n'
        (.send (.appendEntriesReply (Node.appendReply msg term success last))) :=
    ⟨msg, now, rfl, rfl, rfl, rfl⟩
  unfold Node.onAppendEntries
  split
  · exact Meets.ok (Conveys.refl wired).handled
  dsimp only
  split
  · exact Meets.ok ((Conveys.refl wired).sends _ (replies _ _ _))
  refine Meets.bind (hearLeader_conveys wired msg.src msg.term now) fun n₁ heard => ?_
  refine Meets.bind (Meets.intro_ (fun _ _ => trivial) fun _ _ => trivial) fun mismatch _ => ?_
  split
  · exact Meets.ok (heard.sends _ (replies _ _ _))
  refine Meets.bind (acceptEntries_conveys heard.wired plain) fun n₂ accepted => ?_
  refine Meets.bind (learnCommit_conveys accepted.wired _) fun n₃ learned => Meets.ok ?_
  have conveys := (heard.trans accepted).trans learned
  have noted : Conveys rc n₃ { n₃ with
      timerMgr := n₃.timerMgr.stopRequestVote.againElection
      lastHeartbeatTimestamp := now } := .silent conveys.wired rfl rfl rfl rfl rfl rfl
  exact (conveys.trans noted).sends _ (replies _ _ _)

theorem onAppendEntriesReply_conveys (wired : Wired rc n) {msg : AppendEntriesReply}
    (peer : msg.src ∈ rc.peers) : Meets (n.onAppendEntriesReply msg) (Conveys rc n) Fails := by
  unfold Node.onAppendEntriesReply
  split
  · exact Meets.ok (.refl wired)
  split
  · exact Meets.ok (.refl wired)
  split
  · exact Meets.ok (.refl wired)
  refine Meets.bind check_conveys ?_
  rintro _ ⟨-, rfl⟩
  split
  · exact stepDown_conveys wired msg.term
  refine Meets.bind check_conveys ?_
  rintro _ ⟨-, rfl⟩
  refine Meets.bind (onIndexReply_conveys wired msg) fun n₁ indexed => ?_
  split
  · exact (sendAndBeat_conveys indexed.wired peer).mono (fun _ => indexed.trans) fun _ => id
  · exact Meets.ok indexed

theorem onInstallSnapshotReply_conveys (wired : Wired rc n) {msg : InstallSnapshotReply}
    (peer : msg.src ∈ rc.peers) : Meets (n.onInstallSnapshotReply msg) (Conveys rc n) Fails := by
  unfold Node.onInstallSnapshotReply
  split
  · exact Meets.ok (.refl wired)
  dsimp only
  have touched : Conveys rc n { n with snapshotMgr := n.snapshotMgr.touch msg.src } := by
    refine .snapshots wired (fun dest reader open_ => ?_) fun src => ?_
    · rwa [Table.touch_val] at open_
    · rw [Table.touch_val]
  split
  · exact Meets.error trivial
  split
  · exact Meets.ok touched
  split
  · exact Meets.ok touched
  refine Meets.bind check_conveys ?_
  rintro _ ⟨-, rfl⟩
  split
  · exact (stepDown_conveys touched.wired msg.term).mono (fun _ => touched.trans) fun _ => id
  refine Meets.bind check_conveys ?_
  rintro _ ⟨-, rfl⟩
  refine Meets.bind (onSnapshotStored_conveys touched.wired msg _) fun n₁ stored => ?_
  have conveys := touched.trans stored
  exact (sendNext_conveys conveys.wired peer).mono (fun _ => conveys.trans) fun _ => id

/-- A piece has been taken or refused: nothing but the writer of its sender has
changed, and the reply answers it. -/
theorem Conveys.replies (conveys : Conveys rc n n₁) {msg : InstallSnapshot} {now : ℤ}
    {reply : InstallSnapshotReply} (src : reply.src = msg.dest) (dest : reply.dest = msg.src)
    (more : List Effect)
    (emits : ∀ effect ∈ more, ∀ n', Input.Emits rc (.recv (.installSnapshot msg) now) n n' effect)
    (configMgr : n'.configMgr = n₁.configMgr) (log : n'.log = n₁.log)
    (indexMgr : n'.indexMgr = n₁.indexMgr) (hooks : n'.hooks = n₁.hooks)
    (readers : ∀ addr, (n'.snapshotMgr.val addr).reader = (n₁.snapshotMgr.val addr).reader)
    (effects : n'.effects = n₁.effects ++ more) :
    Handled rc (.recv (.installSnapshot msg) now) n (n'.send (.installSnapshotReply reply)) := by
  obtain ⟨early, early_eq, early_onward⟩ := conveys.effects
  refine ⟨⟨conveys.wired.toFixed.congr configMgr log, ?_, fun addr reader open_ => ?_⟩,
    hooks.trans conveys.hooks, fun other => absurd rfl (other msg now),
    early ++ more ++ [.send (.installSnapshotReply reply)], ?_, fun effect mem => ?_⟩
  · show n'.indexMgr.Stocked rc.peers
    rw [indexMgr]
    exact conveys.wired.indices
  · show n'.hooks.Serves reader
    rw [hooks]
    refine conveys.wired.readers addr reader ?_
    rw [← readers addr]
    exact open_
  · show n'.effects ++ [.send (.installSnapshotReply reply)] = _
    rw [effects, early_eq]
    simp only [List.append_assoc]
  · simp only [List.mem_append, List.mem_singleton] at mem
    rcases mem with (mem | mem) | rfl
    · exact (early_onward effect mem).emits
    · exact emits effect mem _
    · exact ⟨msg, now, rfl, src, dest⟩

theorem onInstallSnapshot_handled (wired : Wired rc n) (msg : InstallSnapshot) (now : ℤ) :
    Meets (n.onInstallSnapshot msg now) (Handled rc (.recv (.installSnapshot msg) now) n)
      Fails := by
  refine Meets.intro_ (fun n' done => ?_) fun _ _ => trivial
  cases Node.onInstallSnapshot_installs done with
  | off stopped => exact (Conveys.refl wired).handled
  | stale late =>
      exact (Conveys.refl wired).sends _ fun _ => ⟨msg, now, rfl, rfl, rfl⟩
  | again n₁ heard writer found held =>
      have conveys := (hearLeader_conveys wired msg.src msg.term now).of_ok heard
      exact conveys.replies rfl rfl [] (by simp) rfl rfl rfl rfl
        (fun addr => (Node.openWriter_val addr).2) (List.append_nil _).symm
  | next n₁ heard writer found beyond =>
      have conveys := (hearLeader_conveys wired msg.src msg.term now).of_ok heard
      by_cases swaps : n₁.Swaps msg
      · have same := Node.receive_of_swaps swaps writer
        refine conveys.replies rfl rfl
          [.swapStateMachine writer.lastIndex writer.lastTerm (writer.bytes ++ msg.data)] ?_
          ?_ ?_ ?_ ?_ (fun addr => (Node.receive_val msg writer addr).2) ?_
        · intro effect memE _
          obtain rfl := List.mem_singleton.mp memE
          obtain ⟨lastIndex, lastTerm⟩ := Node.writerFor_same found
          exact ⟨msg, now, rfl, lastIndex.symm, lastTerm.symm⟩
        all_goals rw [same]
      · have same := Node.receive_of_not_swaps swaps writer
        refine conveys.replies rfl rfl [] (by simp) ?_ ?_ ?_ ?_
          (fun addr => (Node.receive_val msg writer addr).2) ?_
        all_goals rw [same]
        exact (List.append_nil _).symm

theorem onTimeoutNow_conveys (wired : Wired rc n) (msg : TimeoutNow) :
    Meets (n.onTimeoutNow msg) (Conveys rc n) Fails := by
  unfold Node.onTimeoutNow
  split
  · exact Meets.ok (.refl wired)
  dsimp only
  have transfers : Conveys rc n { n with
      leaderTransfer := true, transferMaxTerm := n.solid.term + Node.maxTransferTerm } :=
    .silent wired rfl rfl rfl rfl rfl rfl
  refine Meets.bind (maybeStepDown_conveys transfers.wired msg.term) fun n₁ down => ?_
  refine Meets.bind check_conveys ?_
  rintro _ ⟨-, rfl⟩
  have conveys := transfers.trans down
  split
  · exact Meets.ok conveys
  split
  · exact Meets.ok (conveys.trans (.silent conveys.wired rfl rfl rfl rfl rfl rfl))
  · exact Meets.ok conveys

theorem sendRequestVote_handled (wired : Wired rc n) (candidate : n.state = .candidate)
    (dest : Addr) : Handled rc (.requestVoteTimer dest) n (n.sendRequestVote dest) := by
  unfold Node.sendRequestVote
  dsimp only
  split
  · refine (Conveys.refl wired).sends (.requestVote _) fun _ => ?_
    exact ⟨⟨dest, rfl⟩, candidate, rfl, rfl⟩
  · have reset : Conveys rc n { n with leaderTransfer := false, transferMaxTerm := 0 } :=
      .silent wired rfl rfl rfl rfl rfl rfl
    refine reset.sends (.requestVote _) fun _ => ?_
    exact ⟨⟨dest, rfl⟩, candidate, rfl, rfl⟩

/-- What a handler sends belongs to its input. -/
theorem handle_handled (wired : Wired rc n) (placed : input.Placed rc) :
    Meets (n.handle input) (Handled rc input n) Fails := by
  cases input with
  | electionTimer => exact (elect_runs wired).mono (fun _ => Runs.handled) fun _ => id
  | requestVoteTimer dest =>
      refine Meets.bind check_conveys ?_
      rintro _ ⟨candidate, rfl⟩
      exact Meets.ok (sendRequestVote_handled wired candidate dest)
  | heartbeatTimer dest =>
      refine Meets.bind check_conveys ?_
      rintro _ ⟨-, rfl⟩
      exact (sendAppendEntries_conveys wired placed).mono (fun _ => Conveys.handled) fun _ => id
  | propose value =>
      show Meets (n.propose value) _ _
      unfold Node.propose
      split
      · exact Meets.ok (Conveys.refl wired).handled
      · exact (doPropose_conveys wired value).mono (fun _ => Conveys.handled) fun _ => id
  | leaderTransfer dest =>
      show Meets (n.leaderTransferTo dest) _ _
      unfold Node.leaderTransferTo
      split
      · exact Meets.ok (Conveys.refl wired).handled
      · refine Meets.ok (Conveys.handled ?_)
        exact .emit wired (.send (.timeoutNow _)) trivial rfl rfl rfl rfl rfl rfl
  | setFlags flags =>
      refine Meets.ok (Conveys.handled ?_)
      exact .silent wired rfl rfl rfl rfl rfl rfl
  | recv msg now =>
      cases msg with
      | requestVote msg => exact onRequestVote_handled wired msg now
      | requestVoteReply msg =>
          exact (onRequestVoteReply_runs wired msg).mono (fun _ => Runs.handled) fun _ => id
      | appendEntries msg => exact onAppendEntries_handled wired placed
      | appendEntriesReply msg =>
          exact (onAppendEntriesReply_conveys wired placed).mono (fun _ => Conveys.handled) fun _ => id
      | timeoutNow msg =>
          exact (onTimeoutNow_conveys wired msg).mono (fun _ => Conveys.handled) fun _ => id
      | installSnapshot msg => exact onInstallSnapshot_handled wired msg now
      | installSnapshotReply msg =>
          exact (onInstallSnapshotReply_conveys wired placed).mono (fun _ => Conveys.handled)
            fun _ => id

end Conveys

end Vraft
