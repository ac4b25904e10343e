import Vraft.Refine.Progress

/-!
# Log writes refine the protocol

A leader's append extends the log of its term, a follower's append follows it,
and a truncation removes a suffix that conflicts with it.
-/

namespace Vraft

open Consensus (Inv Steps)

section LogWrites

variable {m : Membership} {meets : m.Intersecting} {o : Origin m meets} {a a' : Ghost} {n : Node}

/-! ## Reading a related node -/

namespace At

theorem term_eq (at_ : At o a n) : n.solid.term = a.term o.p :=
  at_.live.term

theorem me_eq (at_ : At o a n) : n.me = o.p := by
  show n.view.config.me = o.p
  rw [at_.live.config]
  rfl

theorem peers_eq (at_ : At o a n) : n.peers = m.peersOf o.p := by
  show n.view.config.peers = m.peersOf o.p
  rw [at_.live.config]

theorem last_eq (at_ : At o a n) : n.log.last = (a.log o.p).length := by
  have base : n.log.base = 0 := at_.live.base
  rw [Log.last_of_base_zero base]
  exact congrArg List.length at_.live.entries

theorem smLast_le (at_ : At o a n) : n.smLast ≤ n.log.last := by
  rw [at_.last_eq]
  exact at_.live.settled.length_le

theorem lastIndex_eq (at_ : At o a n) : n.lastIndex = (a.log o.p).length := by
  rw [Node.lastIndex, max_eq_right at_.smLast_le, at_.last_eq]

theorem entryAt_eq (at_ : At o a n) {index : ℕ} (positive : 0 < index) :
    n.log.entryAt index = (a.log o.p)[index - 1]? := by
  have base : n.log.base = 0 := at_.live.base
  have entries : n.log.entries = a.log o.p := at_.live.entries
  rw [Log.entryAt_of_base_zero base, if_neg (by omega), entries]

theorem lastTerm_eq (at_ : At o a n) :
    n.lastTerm = Consensus.lastTerm AppendEntry.term (a.log o.p) := by
  rw [Node.lastTerm, if_pos at_.smLast_le, at_.last_eq, Consensus.lastTerm,
    List.getLast?_eq_getElem?]
  split
  · rename_i empty
    simp [List.length_eq_zero_iff.mp empty]
  · rename_i nonempty
    rw [Log.getMeta, at_.entryAt_eq (by omega)]
    cases (a.log o.p)[(a.log o.p).length - 1]? <;> rfl

end At

/-! ## Writing without configurations -/

theorem Node.appendOne_eq {entry : AppendEntry} (plain : entry.Plain) (n : Node) :
    n.appendOne entry = .ok { n.emit (.appendLog entry) with log := n.log.appendOne entry } := by
  have type_ne : entry.type ≠ .config := by
    rcases plain with data | noop
    · simp [data]
    · simp [noop]
  rw [Node.appendOne, Node.configWritten, if_neg type_ne]
  rfl

theorem Log.appendOne_entries (log : Log) (entry : AppendEntry) :
    (log.appendOne entry).entries = log.entries ++ [entry] :=
  rfl

theorem Log.appendOne_configs {entry : AppendEntry} (plain : entry.Plain) (log : Log) :
    (log.appendOne entry).configs = log.configs := by
  rcases plain with data | noop
  · simp [Log.appendOne, data]
  · simp [Log.appendOne, noop]

/-- Nothing is recorded at an index that can be truncated. -/
theorem At.deleteFrom_eq (at_ : At o a n) {from_ : ℕ} (positive : 0 < from_)
    (bound : from_ ≤ n.log.last) :
    n.deleteFrom from_ =
      .ok { n.emit (.truncateLog from_) with log := n.log.deleteFrom from_ } := by
  have configs : n.log.configs = [(0, m.config o.p)] := at_.live.configs
  have nonempty : n.log.entries ≠ [] := by
    intro empty
    simp [Log.last, empty] at bound
    omega
  have inside : ¬n.log.NothingFrom from_ := by
    simp only [Log.NothingFrom, nonempty, false_or]
    omega
  have dropped : n.log.configsFrom from_ = [] := by
    have above : ¬max from_ n.log.first ≤ 0 := by omega
    simp [Log.configsFrom, inside, configs]
    omega
  rw [Node.deleteFrom, if_neg inside, dropped]
  rfl

theorem At.deleteFrom_configs (at_ : At o a n) {from_ : ℕ} (positive : 0 < from_) :
    (n.log.deleteFrom from_).configs = n.log.configs := by
  have configs : n.log.configs = [(0, m.config o.p)] := at_.live.configs
  rw [Log.deleteFrom]
  split
  · rfl
  · simp [configs]
    omega

/-! ## Abstract moves of a log -/

theorem moves_extend {p : Addr} {entry : AppendEntry} (leads : a.leader (a.term p) = some p)
    (own : entry.term = a.term p) : Moves m meets p a (a.extend p entry) :=
  Moves.single (.extend p entry leads own) fun q ne =>
    ⟨rfl, rfl, by simp [Consensus.State.extend, ne]⟩

theorem moves_follow {p : Addr} {entry : AppendEntry}
    (next : a.log p ++ [entry] <+: a.tlog (a.term p)) :
    Moves m meets p a (a.setLog p (a.log p ++ [entry])) :=
  Moves.single (.follow p entry next) fun q ne =>
    ⟨rfl, rfl, by simp [Consensus.State.setLog, ne]⟩

theorem moves_truncate {p : Addr} {kept : ℕ} {mine theirs : AppendEntry}
    (mineAt : (a.log p)[kept]? = some mine) (theirsAt : (a.tlog (a.term p))[kept]? = some theirs)
    (conflict : mine.term ≠ theirs.term) :
    Moves m meets p a (a.setLog p ((a.log p).take kept)) :=
  Moves.single (.truncate p kept mine theirs mineAt theirsAt conflict) fun q ne =>
    ⟨rfl, rfl, by simp [Consensus.State.setLog, ne]⟩

/-! ## Writes of a node -/

theorem plain_concat {log : List AppendEntry} {entry : AppendEntry}
    (all : ∀ entry ∈ log, entry.Plain) (plain : entry.Plain) :
    ∀ found ∈ log ++ [entry], found.Plain := by
  intro found mem
  rcases List.mem_append.mp mem with mem | mem
  · exact all found mem
  · obtain rfl := List.mem_singleton.mp mem
    exact plain

/-- A leader appends an entry of its own term. -/
theorem appendOne_leader (at_ : At o a n) (leader : n.state = .leader) (entry : AppendEntry)
    (own : entry.term = n.solid.term) (plain : entry.Plain) :
    Ends o (n.appendOne entry) fun _ n' => n'.state = .leader := by
  have leads := at_.live.leads leader
  have moves : Moves m meets o.p a (a.extend o.p entry) :=
    moves_extend leads (own.trans at_.term_eq)
  have log_eq : (a.extend o.p entry).log o.p = a.log o.p ++ [entry] := by
    simp [Consensus.State.extend]
  have entries : (n.log.appendOne entry).entries = (a.extend o.p entry).log o.p := by
    rw [log_eq, Log.appendOne_entries, show n.log.entries = a.log o.p from at_.live.entries]
  rw [Node.appendOne_eq plain]
  refine Ends.ok (a := a.extend o.p entry) ?_ leader
  refine at_.write moves (unbroken_singleton (.appendLog entry)) rfl rfl rfl (by simp [EffectOk]) ?_
  refine at_.live.relog at_.inv moves.steps rfl rfl at_.live.base entries
    (Log.appendOne_configs plain _) ?_ (fun _ => ?_) (fun _ => ?_)
  · rw [log_eq]
    exact plain_concat at_.live.plain plain
  · simp [Consensus.State.extend]
  · simp [log_eq]

/-- A follower appends the next entry of the leader of its term. -/
theorem appendOne_follower (at_ : At o a n) (follower : n.state = .follower)
    {entry : AppendEntry} (plain : entry.Plain)
    (next : a.log o.p ++ [entry] <+: a.tlog (a.term o.p)) :
    Ends o (n.appendOne entry) fun a' n' =>
      n'.state = .follower ∧ a'.log o.p = a.log o.p ++ [entry] ∧
        a'.term o.p = a.term o.p ∧ a'.tlog = a.tlog := by
  have moves : Moves m meets o.p a (a.setLog o.p (a.log o.p ++ [entry])) := moves_follow next
  have log_eq : (a.setLog o.p (a.log o.p ++ [entry])).log o.p = a.log o.p ++ [entry] := by
    simp [Consensus.State.setLog]
  have entries : (n.log.appendOne entry).entries =
      (a.setLog o.p (a.log o.p ++ [entry])).log o.p := by
    rw [log_eq, Log.appendOne_entries, show n.log.entries = a.log o.p from at_.live.entries]
  rw [Node.appendOne_eq plain]
  refine Ends.ok (a := a.setLog o.p (a.log o.p ++ [entry])) ?_ ⟨follower, log_eq, rfl, rfl⟩
  refine at_.write moves (unbroken_singleton (.appendLog entry)) rfl rfl rfl (by simp [EffectOk]) ?_
  refine at_.live.relog at_.inv moves.steps rfl rfl at_.live.base entries
    (Log.appendOne_configs plain _) ?_ (fun leader => ?_) (fun leader => ?_)
  · rw [log_eq]
    exact plain_concat at_.live.plain plain
  · exact absurd (follower.symm.trans leader) (by simp)
  · exact absurd (follower.symm.trans leader) (by simp)

/-- A follower drops a suffix that conflicts with the leader of its term. -/
theorem deleteFrom_follower (at_ : At o a n) (follower : n.state = .follower) {kept : ℕ}
    {mine theirs : AppendEntry} (mineAt : (a.log o.p)[kept]? = some mine)
    (theirsAt : (a.tlog (a.term o.p))[kept]? = some theirs) (conflict : mine.term ≠ theirs.term) :
    Ends o (n.deleteFrom (kept + 1)) fun a' n' =>
      n'.state = .follower ∧ a'.log o.p = (a.log o.p).take kept ∧
        a'.term o.p = a.term o.p ∧ a'.tlog = a.tlog := by
  have lt := (List.getElem?_eq_some_iff.mp mineAt).1
  have entries_eq : n.log.entries = a.log o.p := at_.live.entries
  have base : n.log.base = 0 := at_.live.base
  have bound : kept + 1 ≤ n.log.last := by
    rw [at_.last_eq]
    omega
  have moves : Moves m meets o.p a (a.setLog o.p ((a.log o.p).take kept)) :=
    moves_truncate mineAt theirsAt conflict
  have log_eq : (a.setLog o.p ((a.log o.p).take kept)).log o.p = (a.log o.p).take kept := by
    simp [Consensus.State.setLog]
  have entries : (n.log.deleteFrom (kept + 1)).entries =
      (a.setLog o.p ((a.log o.p).take kept)).log o.p := by
    rw [log_eq, Log.deleteFrom_of_base_zero base (by omega) (by rw [entries_eq]; omega), entries_eq]
    rfl
  rw [at_.deleteFrom_eq (by omega) bound]
  refine Ends.ok (a := a.setLog o.p ((a.log o.p).take kept)) ?_ ⟨follower, log_eq, rfl, rfl⟩
  refine at_.write moves (unbroken_singleton (.truncateLog (kept + 1))) rfl rfl rfl
    (by simp [EffectOk]) ?_
  refine at_.live.relog at_.inv moves.steps rfl rfl (Log.deleteFrom_base.trans base) entries
    (at_.deleteFrom_configs (by omega)) ?_ (fun leader => ?_) (fun leader => ?_)
  · rw [log_eq]
    exact fun entry mem => at_.live.plain entry (List.mem_of_mem_take mem)
  · exact absurd (follower.symm.trans leader) (by simp)
  · exact absurd (follower.symm.trans leader) (by simp)

end LogWrites

end Vraft
