import Vraft.Stored.Shelf
import Vraft.Stored.Writes

/-!
# Clusters on their disks

Beside every member of a cluster stand the databases it has open.  The effects of a
handler are carried out on them one by one, a crash leaves those that were reached,
and a restart opens them again.  In every run, with crashes anywhere and compaction,
the databases go through it without a failed assertion, and what a member can read
from them is the term, the vote and the log it has.
-/

namespace Vraft

/-- A cluster and the databases of its members. -/
structure Shelved where
  cluster : Cluster
  shelf : Addr → Shelf

namespace Shelved

/-- One server has taken a turn, and its databases with it. -/
def update (s : Shelved) (p : Addr) (n : Node) (effects : List Effect) (shelf : Shelf) : Shelved where
  cluster := s.cluster.update p n effects
  shelf := Function.update s.shelf p shelf

/-- One step.  What is written has room in its fields. -/
inductive Step (m : Membership) (s : Shelved) : Shelved → Prop
  | handle (p : Addr) (mem : p ∈ m.members) (input : Input) (enabled : s.cluster.Enabled m p input)
      (n : Node) (done : (s.cluster.node p).handle input = .ok n)
      (takes : (s.cluster.node p).disk.Takes n.effects) (shelf : Shelf)
      (written : (s.shelf p).performAll n.effects = some shelf) :
      Step m s (s.update p n n.effects shelf)
  | crash (p : Addr) (mem : p ∈ m.members) (input : Input) (enabled : s.cluster.Enabled m p input)
      (performed : List Effect)
      (reached : performed <+: ((s.cluster.node p).handle input).node.effects) (flags : Flags)
      (takes : (s.cluster.node p).disk.Takes performed) (shelf reopened : Shelf)
      (written : (s.shelf p).performAll performed = some shelf)
      (opened : shelf.reopen = some reopened) :
      Step m s (s.update p
        (Node.boot (m.config p) flags ((s.cluster.node p).disk.performAll performed)) performed
        reopened)
  | compact (p : Addr) (mem : p ∈ m.members) (to_ : ℕ) (shelf : Shelf)
      (written : (s.shelf p).operate (.deleteUtil to_) = some shelf) :
      Step m s (s.update p ((s.cluster.node p).deleteUtil to_) [] shelf)

/-- Every member started on empty databases. -/
structure Started (m : Membership) (flags : Addr → Flags) (s : Shelved) : Prop where
  cluster : s.cluster = Cluster.init m flags
  created : ∀ p ∈ m.members, Shelf.create (m.config p) = some (s.shelf p)

/-- A state that is reached from a start. -/
def Reachable (m : Membership) (s : Shelved) : Prop :=
  ∃ flags first, Started m flags first ∧ Relation.ReflTransGen (Step m) first s

/-- The databases of a member are those of its disk. -/
structure Backed (m : Membership) (s : Shelved) (p : Addr) : Prop where
  idle : (s.cluster.node p).effects = []
  backs : (s.shelf p).Backs (m.config p) (s.cluster.node p).disk

section Runs

variable {m : Membership} {s s' : Shelved} {p q : Addr} {shelf : Shelf}

/-- A restart with a configuration on record changes nothing that is stored. -/
theorem boot_disk {rc : RaftConfig} {flags : Flags} {disk : Disk} {found : RaftConfig}
    (recorded : disk.log.lastConfig = some found) : (Node.boot rc flags disk).disk = disk := by
  simp only [Node.boot, Node.disk, recorded]

/-- Without one the configuration is recorded. -/
theorem boot_fresh {rc : RaftConfig} {flags : Flags} (sm : Bool) :
    (Node.boot rc flags (Disk.fresh sm)).disk =
      ⟨1, 0, Log.empty.appendFirstConfig rc, (Disk.fresh sm).sm⟩ :=
  rfl

theorem backed_start {flags : Addr → Flags} (started : Started m flags s) (mem : p ∈ m.members) :
    Backed m s p := by
  have node : s.cluster.node p =
      Node.boot (m.config p) (flags p) (Disk.fresh (m.hasSm p)) := by
    rw [started.cluster]
    rfl
  obtain ⟨shelf, created, backs⟩ := Shelf.backs_create (m.config p) (Disk.fresh (m.hasSm p)).sm
  obtain rfl := Option.some.inj (created.symm.trans (started.created p mem))
  constructor
  · rw [node]
    rfl
  · rw [node, boot_fresh]
    exact backs

/-- The member that moves, and the others. -/
theorem backed_update {n : Node} {effects : List Effect} (backed : ∀ q ∈ m.members, Backed m s q)
    (backs : shelf.Backs (m.config p) n.disk) :
    ∀ q ∈ m.members, Backed m (s.update p n effects shelf) q := by
  intro q mem
  by_cases same : q = p
  · subst same
    constructor
    · show (Function.update s.cluster.node q { n with effects := [] } q).effects = []
      rw [Function.update_self]
    · show (Function.update s.shelf q shelf q).Backs (m.config q)
        (Function.update s.cluster.node q { n with effects := [] } q).disk
      rw [Function.update_self, Function.update_self]
      exact backs
  · have node : (s.update p n effects shelf).cluster.node q = s.cluster.node q :=
      Function.update_of_ne same ..
    have kept : (s.update p n effects shelf).shelf q = s.shelf q := Function.update_of_ne same ..
    obtain ⟨idle, held⟩ := backed q mem
    exact ⟨by rwa [node], by rwa [node, kept]⟩

/-- What a handler leaves on disk. -/
theorem Backed.disk_eq (backed : Backed m s p) {input : Input} {n : Node}
    (done : (s.cluster.node p).handle input = .ok n) :
    n.disk = (s.cluster.node p).disk.performAll n.effects := by
  obtain ⟨more, effects, disk⟩ := handle_records _ input n done
  rw [backed.idle, List.nil_append] at effects
  rw [disk, effects]

theorem backed_step (backed : ∀ q ∈ m.members, Backed m s q) (step : Step m s s') :
    ∀ q ∈ m.members, Backed m s' q := by
  cases step with
  | handle p mem input enabled n done takes shelf written =>
      obtain ⟨shelf', performed, backs⟩ := (backed p mem).backs.performAll takes
      obtain rfl := Option.some.inj (performed.symm.trans written)
      refine backed_update backed ?_
      rw [(backed p mem).disk_eq done]
      exact backs
  | crash p mem input enabled performed reached flags takes shelf reopened written opened =>
      obtain ⟨shelf', done, backs⟩ := (backed p mem).backs.performAll takes
      obtain rfl := Option.some.inj (done.symm.trans written)
      obtain ⟨reopened', again, backs'⟩ := backs.reopen
      obtain rfl := Option.some.inj (again.symm.trans opened)
      refine backed_update backed ?_
      obtain ⟨found, recorded⟩ := backs'.recorded
      rw [boot_disk recorded]
      exact backs'
  | compact p mem to_ shelf written =>
      obtain ⟨shelf', done, backs⟩ := (backed p mem).backs.operate (.deleteUtil to_) fun _ _ => trivial
      obtain rfl := Option.some.inj (done.symm.trans written)
      exact backed_update backed backs

theorem backed_of_reachable (reachable : s.Reachable m) : ∀ p ∈ m.members, Backed m s p := by
  obtain ⟨flags, first, started, run⟩ := reachable
  induction run with
  | refl => exact fun p mem => backed_start started mem
  | tail _ step ih => exact backed_step ih step

/-- The databases of a member show what it has; a handler, whether it ends or is cut
off by a crash, and a compaction do to them what they do to the member, and opening
them again changes nothing. -/
theorem stored_as_modelled (encodes : ∀ p ∈ m.members, (m.config p).Encodes)
    (reachable : s.Reachable m) (mem : p ∈ m.members) :
    (s.shelf p).Shows (s.cluster.node p).disk ∧
    (∀ input n, (s.cluster.node p).handle input = .ok n →
      (s.cluster.node p).disk.Takes n.effects →
        ∃ shelf, (s.shelf p).performAll n.effects = some shelf ∧ shelf.Shows n.disk) ∧
    (∀ input performed, performed <+: ((s.cluster.node p).handle input).node.effects →
      (s.cluster.node p).disk.Takes performed →
        ∃ shelf reopened, (s.shelf p).performAll performed = some shelf ∧
          shelf.reopen = some reopened ∧ ∀ flags, reopened.Shows
            (Node.boot (m.config p) flags ((s.cluster.node p).disk.performAll performed)).disk) ∧
    ∀ to_, ∃ shelf, (s.shelf p).operate (.deleteUtil to_) = some shelf ∧
      shelf.Shows ((s.cluster.node p).deleteUtil to_).disk := by
  have encode := encodes p mem
  have backed := backed_of_reachable reachable p mem
  refine ⟨backed.backs.shows encode, ?_, ?_, ?_⟩
  · intro input n done takes
    obtain ⟨shelf, performed, backs⟩ := backed.backs.performAll takes
    refine ⟨shelf, performed, ?_⟩
    rw [backed.disk_eq done]
    exact backs.shows encode
  · intro input performed reached takes
    obtain ⟨shelf, done, backs⟩ := backed.backs.performAll takes
    obtain ⟨reopened, again, backs'⟩ := backs.reopen
    refine ⟨shelf, reopened, done, again, fun flags => ?_⟩
    obtain ⟨found, recorded⟩ := backs'.recorded
    rw [boot_disk recorded]
    exact backs'.shows encode
  · intro to_
    obtain ⟨shelf, done, backs⟩ := backed.backs.operate (.deleteUtil to_) fun _ _ => trivial
    exact ⟨shelf, done, backs.shows encode⟩

/-- A member of three has stood for election, and is restarted before it sends. -/
theorem stored_as_modelled_three :
    ∃ s : Shelved, s.Reachable (.upTo 3) ∧ ∃ shelf reopened : Shelf,
      (s.shelf 1).performAll [.persistTerm 2, .persistVote 1] = some shelf ∧
      shelf.reopen = some reopened ∧ reopened.solid.term = 2 ∧ reopened.solid.vote = 1 ∧
      reopened.log.append = 1 := by
  have opens (p : Addr) : ∃ shelf, Shelf.create ((Membership.upTo 3).config p) = some shelf :=
    (Shelf.backs_create _ none).imp fun _ => And.left
  choose shelf created using opens
  let s : Shelved := ⟨Cluster.start (.upTo 3), shelf⟩
  have reachable : s.Reachable (.upTo 3) := ⟨_, s, ⟨rfl, fun p _ => created p⟩, .refl⟩
  have encodes : ∀ p ∈ (Membership.upTo 3).members, ((Membership.upTo 3).config p).Encodes := by
    intro p mem
    have cases : p = 1 ∨ p = 2 ∨ p = 3 := by simpa [Membership.upTo, List.range_succ] using mem
    rcases cases with rfl | rfl | rfl
    all_goals constructor <;> decide
  obtain ⟨-, -, crashes, -⟩ := stored_as_modelled (p := 1) encodes reachable (by decide)
  have reached : [.persistTerm 2, .persistVote 1] <+:
      (((Cluster.start (.upTo 3)).node 1).handle .electionTimer).node.effects := by decide +kernel
  obtain ⟨shelf₁, reopened, performed, opened, shows⟩ := crashes .electionTimer _ reached
    ⟨show 2 < 2 ^ 64 by decide, show 1 < 2 ^ 64 by decide, trivial⟩
  have shown := shows ⟨false, false, false, {}⟩
  exact ⟨s, reachable, shelf₁, reopened, performed, opened, shown.term, shown.vote,
    shown.log.append⟩

end Runs

end Shelved

end Vraft
