import Vraft.Raft.Follow

/-!
# The pieces of a snapshot

What sending a piece does to its reader, and what receiving one does to the
writer it goes to.
-/

namespace Vraft

namespace SnapshotManager

variable (snapshots : SnapshotManager) (addr other : Addr)

@[simp]
theorem setReader_reader (reader : Option SnapshotReader) :
    ((snapshots.setReader addr reader).val other).reader =
      if other = addr then reader else (snapshots.val other).reader := by
  rw [setReader, Table.set_val]
  split
  · rfl
  · rfl

@[simp]
theorem setReader_writer (reader : Option SnapshotReader) :
    ((snapshots.setReader addr reader).val other).writer = (snapshots.val other).writer := by
  rw [setReader, Table.set_val]
  split
  · rename_i same
    rw [same]
  · rfl

@[simp]
theorem setWriter_writer (writer : Option SnapshotWriter) :
    ((snapshots.setWriter addr writer).val other).writer =
      if other = addr then writer else (snapshots.val other).writer := by
  rw [setWriter, Table.set_val]
  split
  · rfl
  · rfl

@[simp]
theorem setWriter_reader (writer : Option SnapshotWriter) :
    ((snapshots.setWriter addr writer).val other).reader = (snapshots.val other).reader := by
  rw [setWriter, Table.set_val]
  split
  · rename_i same
    rw [same]
  · rfl

end SnapshotManager

namespace Node

variable {n n' : Node} {dest : Addr} {now : ℤ}

/-! ## Sending -/

/-- The reader that the next piece is taken from: the open one, or a new one. -/
def readerFor (n : Node) (dest : Addr) : Option SnapshotReader :=
  (n.snapshotMgr.val dest).reader.or (n.hooks.createReader.map fun createReader =>
    SnapshotReader.create n.storedSm.lastIndex n.storedSm.lastTerm (createReader n.storedSm))

/-- The next piece from a reader. -/
def piece (n : Node) (dest : Addr) (reader : SnapshotReader) : InstallSnapshot where
  src := n.me
  dest := dest
  term := n.solid.term
  lastIndex := reader.lastIndex
  lastTerm := reader.lastTerm
  offset := reader.offset
  data := reader.read.2.data
  done := reader.read.1 = 0

/-- A piece has been sent from a reader, and nothing else has happened. -/
structure Pieces (dest : Addr) (reader : SnapshotReader) (n n' : Node) : Prop where
  same : n' = { n with snapshotMgr := n'.snapshotMgr, effects := n'.effects }
  effects : n'.effects = n.effects ++ [.send (.installSnapshot (n.piece dest reader))]
  readers : ∀ addr, (n'.snapshotMgr.val addr).reader =
    if addr = dest then some reader.read.2 else (n.snapshotMgr.val addr).reader
  writers : ∀ addr, (n'.snapshotMgr.val addr).writer = (n.snapshotMgr.val addr).writer

theorem openReader_eq : n.openReader dest =
    { n with snapshotMgr := (n.openReader dest).snapshotMgr } := by
  unfold openReader
  dsimp only
  split <;> rfl

theorem openReader_val (addr : Addr) :
    (((n.openReader dest).snapshotMgr.val addr).reader =
      if addr = dest then n.readerFor dest else (n.snapshotMgr.val addr).reader) ∧
    ((n.openReader dest).snapshotMgr.val addr).writer = (n.snapshotMgr.val addr).writer := by
  unfold openReader readerFor
  dsimp only
  rw [Table.touch_val]
  split
  · rename_i createReader closed hooks
    simp [closed, hooks]
  · rename_i open_
    rw [Table.touch_val]
    refine ⟨?_, rfl⟩
    split
    · rename_i same
      rw [same]
      cases reader : (n.snapshotMgr.val dest).reader with
      | some reader => rfl
      | none =>
          cases hooks : n.hooks.createReader with
          | none => rfl
          | some createReader => exact absurd hooks (open_ createReader reader)
    · rfl

theorem sendInstallSnapshot_ok {reader : SnapshotReader}
    (found : n.readerFor dest = some reader) :
    ∃ n', n.sendInstallSnapshot dest = .ok n' ∧ Pieces dest reader n n' := by
  have open_ : ((n.openReader dest).snapshotMgr.val dest).reader = some reader := by
    rw [(openReader_val dest).1, if_pos rfl, found]
  unfold sendInstallSnapshot
  dsimp only
  split
  · rename_i none_
    rw [open_] at none_
    contradiction
  · rename_i reader' some_
    rw [open_] at some_
    obtain rfl := Option.some.inj some_
    refine ⟨_, rfl, ?_, ?_, fun addr => ?_, fun addr => ?_⟩
    · rw [openReader_eq]
      rfl
    · rw [openReader_eq]
      rfl
    · show (((n.openReader dest).snapshotMgr.setReader dest _).val addr).reader = _
      rw [SnapshotManager.setReader_reader]
      split
      · rfl
      · rename_i other
        rw [(openReader_val addr).1, if_neg other]
    · show (((n.openReader dest).snapshotMgr.setReader dest _).val addr).writer = _
      rw [SnapshotManager.setReader_writer]
      exact (openReader_val addr).2

theorem sendInstallSnapshot_cases (done : n.sendInstallSnapshot dest = .ok n') :
    ∃ reader, n.readerFor dest = some reader ∧ Pieces dest reader n n' := by
  cases found : n.readerFor dest with
  | none =>
      unfold sendInstallSnapshot at done
      dsimp only at done
      rw [(openReader_val dest).1, if_pos rfl, found] at done
      contradiction
  | some reader =>
      obtain ⟨n'', done', pieces⟩ := sendInstallSnapshot_ok found
      rw [done'] at done
      obtain rfl := Except.ok.inj done
      exact ⟨reader, rfl, pieces⟩

/-! ## Receiving -/

/-- The writer that a piece goes to: the one at hand if it is for the same snapshot, or
a new one. -/
def writerFor (n : Node) (msg : InstallSnapshot) : Option SnapshotWriter :=
  ((n.snapshotMgr.val msg.src).writer.filter fun writer =>
    writer.lastIndex = msg.lastIndex && writer.lastTerm = msg.lastTerm).or
  (if n.hooks.createWriter then some (SnapshotWriter.create msg.lastIndex msg.lastTerm) else none)

theorem writerFor_same {msg : InstallSnapshot} {writer : SnapshotWriter}
    (found : n.writerFor msg = some writer) :
    writer.lastIndex = msg.lastIndex ∧ writer.lastTerm = msg.lastTerm := by
  unfold writerFor at found
  rcases Option.or_eq_some_iff.mp found with kept | ⟨-, fresh⟩
  · have same := (Option.filter_eq_some_iff.mp kept).2
    simpa using same
  · split at fresh
    · obtain rfl := Option.some.inj fresh
      exact ⟨rfl, rfl⟩
    · contradiction

/-- The node once a piece has been written. -/
def receive (n : Node) (msg : InstallSnapshot) (writer : SnapshotWriter) : Node :=
  let n := n.openWriter msg
  let n := { n with
    snapshotMgr := n.snapshotMgr.setWriter msg.src (some (writer.write msg.data))
    timerMgr := n.timerMgr.stopRequestVote.againElection }
  if msg.done then n.finishSnapshot msg (writer.write msg.data) else n

theorem openWriter_val {msg : InstallSnapshot} (addr : Addr) :
    ((n.openWriter msg).snapshotMgr.val addr).writer =
      (if addr = msg.src then n.writerFor msg else (n.snapshotMgr.val addr).writer) ∧
    ((n.openWriter msg).snapshotMgr.val addr).reader = (n.snapshotMgr.val addr).reader := by
  unfold openWriter writerFor
  dsimp only
  rw [Table.touch_val]
  refine ⟨?_, ?_⟩
  · rw [SnapshotManager.setWriter_writer, Table.touch_val]
  · rw [SnapshotManager.setWriter_reader, Table.touch_val]

/-- A piece of the current term, stage by stage. -/
theorem onInstallSnapshot_eq {msg : InstallSnapshot} (started : n.started = true)
    (current : n.solid.term ≤ msg.term) :
    n.onInstallSnapshot msg now = n.hearLeader msg.src msg.term now >>= fun n₁ =>
      match n₁.writerFor msg with
      | none => .error (.snapshotWriter, n₁.openWriter msg)
      | some writer =>
          if msg.offset < writer.stored then
            .ok ((n₁.openWriter msg).snapshotReply msg now msg.term writer.stored)
          else (n₁.openWriter msg).check .snapshotOffset (writer.stored < msg.offset) >>= fun _ =>
            .ok ((n₁.receive msg writer).snapshotReply msg now msg.term
              (writer.write msg.data).stored) := by
  unfold onInstallSnapshot
  rw [if_neg (by simp [started]), if_neg (not_lt.mpr current)]
  refine congrArg _ (funext fun n₁ => ?_)
  dsimp only
  rw [(openWriter_val msg.src).1, if_pos rfl]
  cases n₁.writerFor msg with
  | none => rfl
  | some writer =>
      dsimp only
      split
      · rfl
      · unfold check
        split
        · rfl
        · rfl

/-- The ways in which a piece is handled. -/
inductive Installs (n : Node) (msg : InstallSnapshot) (now : ℤ) : Node → Prop
  | off (stopped : n.started = false) : Installs n msg now n
  | stale (late : msg.term < n.solid.term) :
      Installs n msg now (n.snapshotReply msg now n.solid.term 0)
  | again (n₁ : Node) (heard : n.hearLeader msg.src msg.term now = .ok n₁)
      (writer : SnapshotWriter) (found : n₁.writerFor msg = some writer)
      (held : msg.offset < writer.stored) :
      Installs n msg now ((n₁.openWriter msg).snapshotReply msg now msg.term writer.stored)
  | next (n₁ : Node) (heard : n.hearLeader msg.src msg.term now = .ok n₁)
      (writer : SnapshotWriter) (found : n₁.writerFor msg = some writer)
      (beyond : writer.stored < msg.offset) :
      Installs n msg now ((n₁.receive msg writer).snapshotReply msg now msg.term
        (writer.write msg.data).stored)

theorem onInstallSnapshot_installs {msg : InstallSnapshot}
    (done : n.onInstallSnapshot msg now = .ok n') : Installs n msg now n' := by
  by_cases started : n.started = true
  · by_cases current : n.solid.term ≤ msg.term
    · rw [onInstallSnapshot_eq started current] at done
      obtain ⟨n₁, heard, done⟩ := ok_of_bind_ok done
      split at done
      · contradiction
      · rename_i writer found
        split at done
        · rename_i held
          obtain rfl := Except.ok.inj done
          exact .again n₁ heard writer found held
        · obtain ⟨_, checked, done⟩ := ok_of_bind_ok done
          obtain rfl := Except.ok.inj done
          exact .next n₁ heard writer found (of_check_ok checked).1
    · unfold onInstallSnapshot at done
      rw [if_neg (by simp [started]), if_pos (not_le.mp current)] at done
      obtain rfl := Except.ok.inj done
      exact .stale (not_le.mp current)
  · unfold onInstallSnapshot at done
    rw [if_pos (by simpa using started)] at done
    obtain rfl := Except.ok.inj done
    exact .off (by simpa using started)

/-- The snapshot of the message is put in the place of the state machine. -/
def Swaps (n : Node) (msg : InstallSnapshot) : Prop :=
  msg.done = true ∧ ¬(n.sm.isSome ∧ msg.lastIndex < n.smLast)

instance (n : Node) (msg : InstallSnapshot) : Decidable (n.Swaps msg) :=
  inferInstanceAs (Decidable (_ ∧ ¬_))

theorem receive_of_swaps {msg : InstallSnapshot} (swaps : n.Swaps msg)
    (writer : SnapshotWriter) :
    n.receive msg writer = { n with
      sm := n.sm.map fun _ => ⟨writer.lastIndex, writer.lastTerm⟩
      snapshotMgr := (n.receive msg writer).snapshotMgr
      timerMgr := n.timerMgr.stopRequestVote.againElection
      effects := n.effects ++
        [.swapStateMachine writer.lastIndex writer.lastTerm (writer.bytes ++ msg.data)] } := by
  obtain ⟨ends, newest⟩ := swaps
  unfold receive finishSnapshot
  dsimp only
  rw [if_pos ends]
  split
  · rename_i older
    exact absurd older newest
  · rfl

/-- Without a swap only a writer changes. -/
theorem receive_of_not_swaps {msg : InstallSnapshot} (stays : ¬n.Swaps msg)
    (writer : SnapshotWriter) :
    n.receive msg writer = { n with
      snapshotMgr := (n.receive msg writer).snapshotMgr
      timerMgr := n.timerMgr.stopRequestVote.againElection } := by
  unfold receive finishSnapshot
  dsimp only
  split
  · rename_i ends
    split
    · rfl
    · rename_i newest
      exact absurd ⟨ends, newest⟩ stays
  · rfl

theorem receive_snapshotMgr (msg : InstallSnapshot) (writer : SnapshotWriter) :
    (n.receive msg writer).snapshotMgr =
      if msg.done then ((n.openWriter msg).snapshotMgr.setWriter msg.src
        (some (writer.write msg.data))).setWriter msg.src none
      else (n.openWriter msg).snapshotMgr.setWriter msg.src (some (writer.write msg.data)) := by
  unfold receive finishSnapshot
  dsimp only
  split
  · split <;> rfl
  · rfl

theorem receive_val (msg : InstallSnapshot) (writer : SnapshotWriter) (addr : Addr) :
    (((n.receive msg writer).snapshotMgr.val addr).writer = if addr = msg.src then
      (if msg.done then none else some (writer.write msg.data))
      else (n.snapshotMgr.val addr).writer) ∧
    ((n.receive msg writer).snapshotMgr.val addr).reader = (n.snapshotMgr.val addr).reader := by
  have val : ((n.openWriter msg).snapshotMgr.val addr).writer = _ ∧ _ := openWriter_val addr
  obtain ⟨opened, readers⟩ := val
  rw [receive_snapshotMgr]
  by_cases own : addr = msg.src
  · subst own
    rw [if_pos rfl]
    split
    · simp [readers]
    · simp [readers]
  · rw [if_neg own] at opened ⊢
    split
    · simp [own, opened, readers]
    · simp [own, opened, readers]

end Node

end Vraft
