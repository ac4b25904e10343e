import Vraft.Raft.Cluster

/-!
# Clusters that compact their logs

`RaftLog::DeleteUtil` drops entries from the front of a log.  Nothing in the
handlers calls it: it is an operation of its own, at any time.  Members restart
between two handlers.
-/

namespace Vraft

/-- Drop the entries up to `to_`, at most all of them.  The configurations on
record stay. -/
def Log.deleteUtil (log : Log) (to_ : ℕ) : Log :=
  if log.entries = [] then log
  else if to_ < log.first then log
  else
    { log with
      base := min to_ log.last
      entries := log.entries.drop (min to_ log.last - log.base) }

/-- The log of a node is compacted. -/
def Node.deleteUtil (n : Node) (to_ : ℕ) : Node :=
  { n with log := n.log.deleteUtil to_ }

theorem Log.deleteUtil_configs (log : Log) (to_ : ℕ) :
    (log.deleteUtil to_).configs = log.configs := by
  unfold deleteUtil
  split
  · rfl
  · split <;> rfl

theorem Log.mem_deleteUtil {log : Log} {to_ : ℕ} {entry : AppendEntry}
    (mem : entry ∈ (log.deleteUtil to_).entries) : entry ∈ log.entries := by
  unfold deleteUtil at mem
  split at mem
  · exact mem
  · split at mem
    · exact mem
    · exact List.mem_of_mem_drop mem

namespace Cluster

/-- One step of a cluster: a member handles an input to the end, restarts, or
compacts its log. -/
inductive LongStep (m : Membership) (s : Cluster) : Cluster → Prop
  | handle (p : Addr) (mem : p ∈ m.members) (input : Input) (enabled : s.Enabled m p input)
      (n : Node) (done : (s.node p).handle input = .ok n) :
      LongStep m s (s.update p n n.effects)
  | restart (p : Addr) (mem : p ∈ m.members) (flags : Flags) :
      LongStep m s (s.update p (Node.boot (m.config p) flags (s.node p).disk) [])
  | compact (p : Addr) (mem : p ∈ m.members) (to_ : ℕ) :
      LongStep m s (s.update p ((s.node p).deleteUtil to_) [])

/-- Several steps in a row. -/
abbrev LongRun (m : Membership) : Cluster → Cluster → Prop :=
  Relation.ReflTransGen (LongStep m)

/-- States reached from the start of a cluster. -/
def LongReachable (m : Membership) (s : Cluster) : Prop :=
  ∃ flags, LongRun m (init m flags) s

/-- A run whose restarts all fall between two handlers is such a run. -/
theorem longRun_of_run {m : Membership} {crash : List Effect → Prop}
    (between : ∀ performed, crash performed → performed = []) {s s' : Cluster}
    (run : Run m crash s s') : LongRun m s s' := by
  induction run with
  | refl => exact .refl
  | tail _ step ih =>
      refine ih.tail ?_
      cases step with
      | handle p mem input enabled n done => exact .handle p mem input enabled n done
      | crash p mem input enabled performed reached allowed flags =>
          obtain rfl := between performed allowed
          exact .restart p mem flags

end Cluster

end Vraft
