import Vraft.RaftLog.View

/-!
# What a node keeps on disk

Term and vote are two records of a database of their own, beside the two databases of
the log.  A shelf is what a running node has open: it carries out the effects of
handlers one by one, and can be closed and opened again.  The state machine has its
own files and is left out.
-/

namespace Vraft

/-! ## Term and vote -/

/-- The key of the term. -/
def termKey : Bytes := [0]

/-- The key of the vote. -/
def voteKey : Bytes := [1]

/-- `SolidData` and its database, whose keys are ordered bytewise. -/
structure SolidStore where
  db : List (Bytes × Bytes)
  term : ℕ
  vote : Addr
  deriving DecidableEq, Repr

namespace SolidStore

open OrderedStore (get put)

/-- Read a number, or write what it is at first; `none` if the record has another size. -/
def readOrInit (db : List (Bytes × Bytes)) (key : Bytes) (initial : ℕ) :
    Option (List (Bytes × Bytes) × ℕ) :=
  match get compare db key with
  | none => some (put compare key (encodeFixed64 initial) db, initial)
  | some value => if value.length = 8 then some (db, decodeFixed64 value) else none

/-- `SolidData::Init`: term and vote are read, or written if they are not there. -/
def init (db : List (Bytes × Bytes)) : Option SolidStore := do
  let (db, term) ← readOrInit db termKey 1
  let (db, vote) ← readOrInit db voteKey 0
  return ⟨db, term, vote⟩

/-- `SolidData::SetTerm`. -/
def setTerm (solid : SolidStore) (term : ℕ) : SolidStore :=
  { solid with term := term, db := put compare termKey (encodeFixed64 term) solid.db }

/-- `SolidData::SetVote`. -/
def setVote (solid : SolidStore) (vote : Addr) : SolidStore :=
  { solid with vote := vote, db := put compare voteKey (encodeFixed64 vote) solid.db }

/-- The records of a term and a vote, and the fields that go with them. -/
structure Keeps (solid : SolidStore) (term : ℕ) (vote : Addr) : Prop where
  db_eq : solid.db = [(termKey, encodeFixed64 term), (voteKey, encodeFixed64 vote)]
  term_eq : solid.term = term
  vote_eq : solid.vote = vote
  term_lt : term < 2 ^ 64
  vote_lt : vote < 2 ^ 64

section Keeps

variable {solid : SolidStore} {term : ℕ} {vote : Addr}

theorem init_empty : ∃ solid, init [] = some solid ∧ solid.Keeps 1 0 :=
  ⟨_, rfl, rfl, rfl, rfl, by decide, by decide⟩

theorem Keeps.setTerm (keeps : solid.Keeps term vote) {newTerm : ℕ} (bound : newTerm < 2 ^ 64) :
    (solid.setTerm newTerm).Keeps newTerm vote where
  db_eq := by
    rw [SolidStore.setTerm, keeps.db_eq]
    rfl
  term_eq := rfl
  vote_eq := keeps.vote_eq
  term_lt := bound
  vote_lt := keeps.vote_lt

theorem Keeps.setVote (keeps : solid.Keeps term vote) {newVote : Addr} (bound : newVote < 2 ^ 64) :
    (solid.setVote newVote).Keeps term newVote where
  db_eq := by
    rw [SolidStore.setVote, keeps.db_eq]
    rfl
  term_eq := keeps.term_eq
  vote_eq := rfl
  term_lt := keeps.term_lt
  vote_lt := bound

theorem decodeFixed64_self {value : ℕ} (bound : value < 2 ^ 64) :
    decodeFixed64 (encodeFixed64 value) = value := by
  have decoded := decodeFixed64_encodeFixed64 bound []
  rwa [List.append_nil] at decoded

/-- What was kept is read back. -/
theorem Keeps.init (keeps : solid.Keeps term vote) :
    ∃ solid', SolidStore.init solid.db = some solid' ∧ solid'.Keeps term vote := by
  refine ⟨solid, ?_, keeps⟩
  have found : get compare solid.db termKey = some (encodeFixed64 term) := by
    rw [keeps.db_eq]
    rfl
  have found' : get compare solid.db voteKey = some (encodeFixed64 vote) := by
    rw [keeps.db_eq]
    rfl
  have termRead : readOrInit solid.db termKey 1 = some (solid.db, term) := by
    unfold readOrInit
    rw [found]
    dsimp only
    rw [if_pos (encodeFixed64_length term), decodeFixed64_self keeps.term_lt]
  have voteRead : readOrInit solid.db voteKey 0 = some (solid.db, vote) := by
    unfold readOrInit
    rw [found']
    dsimp only
    rw [if_pos (encodeFixed64_length vote), decodeFixed64_self keeps.vote_lt]
  rw [SolidStore.init, termRead]
  show (readOrInit solid.db voteKey 0).bind _ = _
  rw [voteRead]
  show some (SolidStore.mk solid.db term vote) = some solid
  rw [← keeps.term_eq, ← keeps.vote_eq]

end Keeps

end SolidStore

/-! ## Shelves -/

/-- The open databases of a node. -/
structure Shelf where
  log : RaftLog
  solid : SolidStore

namespace Shelf

/-- The first start of a node; `none` if an assertion fails, here and below. -/
def create (rc : RaftConfig) : Option Shelf := do
  let log ← (RaftLog.create rc).toOption
  let solid ← SolidStore.init []
  return ⟨log, solid⟩

/-- An operation on the log. -/
def operate (shelf : Shelf) (op : RaftLog.Op) : Option Shelf :=
  (shelf.log.apply op).toOption.map fun done => { shelf with log := done.log }

/-- Carry out one effect. -/
def perform (shelf : Shelf) : Effect → Option Shelf
  | .persistTerm term => some { shelf with solid := shelf.solid.setTerm term }
  | .persistVote vote => some { shelf with solid := shelf.solid.setVote vote }
  | .appendLog entry => shelf.operate (.appendOne entry)
  | .truncateLog from_ => shelf.operate (.deleteFrom from_)
  | _ => some shelf

/-- The databases after several effects. -/
def performAll (shelf : Shelf) (effects : List Effect) : Option Shelf :=
  effects.foldlM perform shelf

/-- Close the databases and open them again. -/
def reopen (shelf : Shelf) : Option Shelf := do
  let log ← shelf.operate .reopen
  let solid ← SolidStore.init shelf.solid.db
  return { log with solid := solid }

/-- All that a node reads from its shelf is what its disk says. -/
structure Shows (shelf : Shelf) (disk : Disk) : Prop where
  log : Vraft.Shows shelf.log disk.log
  term : shelf.solid.term = disk.term
  vote : shelf.solid.vote = disk.vote

/-- The databases behind a disk. -/
structure Backs (rc : RaftConfig) (shelf : Shelf) (disk : Disk) : Prop where
  log : ∃ h, RaftLog.Consistent shelf.log rc h ∧ disk.log = h.view rc
  solid : shelf.solid.Keeps disk.term disk.vote

end Shelf

/-- Numbers fit their fields, values the buffer of their checksum, and config entries hold a
configuration. -/
def Effect.Fits (disk : Disk) : Effect → Prop
  | .persistTerm term => term < 2 ^ 64
  | .persistVote vote => vote < 2 ^ 64
  | .appendLog entry => entry.term < 2 ^ 64 ∧ disk.log.append < maxIndex ∧
      entry.value.length < 2 ^ 28 ∧
        (entry.type = .config → (RaftConfig.fromString entry.value).isSome)
  | _ => True

/-- Every effect fits when it is carried out. -/
def Disk.Takes (disk : Disk) : List Effect → Prop
  | [] => True
  | effect :: rest => effect.Fits disk ∧ (disk.perform effect).Takes rest

namespace Shelf

section Backs

variable {rc : RaftConfig} {shelf : Shelf} {disk : Disk}

theorem Backs.shows (backs : Backs rc shelf disk) (encodes : rc.Encodes) : shelf.Shows disk where
  log := by
    obtain ⟨h, consistent, log⟩ := backs.log
    rw [log]
    exact shows_view encodes consistent
  term := backs.solid.term_eq
  vote := backs.solid.vote_eq

/-- A configuration is on record. -/
theorem Backs.recorded (backs : Backs rc shelf disk) :
    ∃ found, disk.log.lastConfig = some found := by
  obtain ⟨h, -, log⟩ := backs.log
  have nonempty : disk.log.configs ≠ [] := by
    rw [log]
    exact List.cons_ne_nil _ _
  refine ⟨(disk.log.configs.getLast nonempty).2, ?_⟩
  rw [Log.lastConfig, List.getLast?_eq_some_getLast nonempty]
  rfl

theorem backs_create (rc : RaftConfig) (sm : Option StateMachine) :
    ∃ shelf, create rc = some shelf ∧
      Backs rc shelf ⟨1, 0, Log.empty.appendFirstConfig rc, sm⟩ := by
  obtain ⟨log, created, consistent⟩ := RaftLog.create_consistent rc
  obtain ⟨solid, opened, keeps⟩ := SolidStore.init_empty
  refine ⟨⟨log, solid⟩, ?_, ⟨History.empty, consistent, rfl⟩, keeps⟩
  rw [create, created, opened]
  rfl

/-- An operation on the log goes through, and does to the disk what it does there. -/
theorem Backs.operate (backs : Backs rc shelf disk) (op : RaftLog.Op)
    (proper : ∀ h, disk.log = h.view rc → op.Proper h) :
    ∃ shelf', shelf.operate op = some shelf' ∧
      Backs rc shelf' { disk with log := disk.log.apply op } := by
  obtain ⟨h, consistent, log⟩ := backs.log
  obtain ⟨done, survives⟩ := RaftLog.apply_survives consistent (proper h log)
  refine ⟨{ shelf with log := done.log }, ?_, ⟨h.apply op, survives.consistent, ?_⟩, backs.solid⟩
  · rw [Shelf.operate, survives.done_eq]
    rfl
  · rw [log]
    exact (h.view_apply rc op).symm

theorem Backs.perform (backs : Backs rc shelf disk) {effect : Effect} (fits : effect.Fits disk) :
    ∃ shelf', shelf.perform effect = some shelf' ∧ Backs rc shelf' (disk.perform effect) := by
  cases effect with
  | persistTerm term => exact ⟨_, rfl, backs.log, backs.solid.setTerm fits⟩
  | persistVote vote => exact ⟨_, rfl, backs.log, backs.solid.setVote fits⟩
  | appendLog entry =>
      refine backs.operate (.appendOne entry) fun h log => ?_
      obtain ⟨term_lt, append_lt, short, value⟩ := fits
      rw [log] at append_lt
      exact ⟨term_lt, append_lt, short, value⟩
  | truncateLog from_ => exact backs.operate (.deleteFrom from_) fun _ _ => trivial
  | apply entry => exact ⟨shelf, rfl, backs.log, backs.solid⟩
  | swapStateMachine lastIndex lastTerm bytes => exact ⟨shelf, rfl, backs.log, backs.solid⟩
  | send msg => exact ⟨shelf, rfl, backs⟩
  | becomeLeader term => exact ⟨shelf, rfl, backs⟩
  | countSelf term addr => exact ⟨shelf, rfl, backs⟩

theorem Backs.performAll (backs : Backs rc shelf disk) {effects : List Effect}
    (takes : disk.Takes effects) :
    ∃ shelf', shelf.performAll effects = some shelf' ∧ Backs rc shelf' (disk.performAll effects) := by
  induction effects generalizing shelf disk with
  | nil => exact ⟨shelf, rfl, backs⟩
  | cons effect rest ih =>
      obtain ⟨shelf₁, performed, backs₁⟩ := backs.perform takes.1
      obtain ⟨shelf', done, backs'⟩ := ih backs₁ takes.2
      refine ⟨shelf', ?_, backs'⟩
      show (shelf.perform effect).bind _ = _
      rw [performed]
      exact done

theorem Backs.reopen (backs : Backs rc shelf disk) :
    ∃ shelf', shelf.reopen = some shelf' ∧ Backs rc shelf' disk := by
  obtain ⟨shelf₁, opened, backs₁⟩ := backs.operate .reopen fun _ _ => trivial
  obtain ⟨solid, loaded, keeps⟩ := backs.solid.init
  refine ⟨{ shelf₁ with solid := solid }, ?_, backs₁.log, keeps⟩
  rw [Shelf.reopen, opened]
  show (SolidStore.init shelf.solid.db).bind _ = _
  rw [loaded]
  rfl

end Backs

end Shelf

end Vraft
