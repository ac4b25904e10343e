import Vraft.Members.Following

/-!
# A new server

A server that is to be added starts with nobody but itself in its configuration
and stands by.  While it stands by it accepts only changes that add members, so it
can replay the log of a cluster if the first change in that log is the one that
adds it, if it is never removed, and if no removal reaches it before a change that
it has appended is applied.
-/

namespace Vraft

open RaftConfig

/-! ## Replaying a log -/

namespace Log

theorem appendAll_numbered (log : Log) (index : ℕ) (entries : List AppendEntry) :
    (log.appendAll (numbered index entries)).entries = log.entries ++ entries ∧
      (log.appendAll (numbered index entries)).base = log.base := by
  induction entries generalizing log index with
  | nil => exact ⟨(List.append_nil _).symm, rfl⟩
  | cons entry rest ih =>
      rw [numbered, appendAll_cons]
      obtain ⟨entries_eq, base_eq⟩ := ih (log.appendOne entry) (index + 1)
      rw [entries_eq, base_eq]
      exact ⟨List.append_assoc _ [entry] rest, rfl⟩

theorem divide_of_empty {log : Log} (empty : log.entries = []) (pre : ℕ)
    (entries : List LogEntry) : log.divide pre entries = (log.append, entries) := by
  have first_eq : log.first = 0 := if_pos empty
  have last_eq : log.last = 0 := if_pos empty
  cases entries with
  | nil => rfl
  | cons entry rest =>
      rw [divide, if_neg (by omega), if_neg (by omega)]

/-- Nothing of a log is dropped by entries of a longer one, and it grows along it. -/
theorem divide_front {log : Log} (base : log.base = 0) {full : List AppendEntry}
    (front : log.entries <+: full) {pre : ℕ} (reaches : pre ≤ log.last) (count : ℕ) :
    log.divide pre (numbered pre ((full.drop pre).take count)) =
      (log.append, numbered log.entries.length
        (((full.drop pre).take count).drop (log.entries.length - pre))) := by
  by_cases empty : log.entries = []
  · rw [divide_of_empty empty]
    have last_eq : log.last = 0 := if_pos empty
    obtain rfl : pre = 0 := by omega
    rw [empty]
    rfl
  · have last_eq : log.last = log.entries.length := by
      rw [last, if_neg empty, base, Nat.zero_add]
    have append_eq : log.append = log.entries.length + 1 := by
      rw [append, base, Nat.zero_add]
    have divided := divide_numbered empty ((full.drop pre).take count) reaches
    generalize log.divide pre (numbered pre ((full.drop pre).take count)) = d at divided
    obtain ⟨cut, tail⟩ := d
    have below : cut ≤ log.append := divided.below
    have above : max pre log.base < cut := divided.above
    have same : cut = log.append := by
      by_contra earlier
      obtain ⟨stored, sent, held, given, differs⟩ := divided.differs (show cut ≤ log.last by omega)
      rw [entryAt_of_base_zero base, if_neg (show cut ≠ 0 by omega)] at held
      rw [List.getElem?_take] at given
      split at given
      · rw [List.getElem?_drop, show pre + (cut - pre - 1) = cut - 1 by omega] at given
        obtain ⟨rest, rfl⟩ := front
        rw [List.getElem?_append_left (List.getElem?_eq_some_iff.mp held).1, held] at given
        exact differs (congrArg AppendEntry.term (Option.some.inj given))
      · contradiction
    subst same
    have tail_eq := divided.tail
    dsimp only at tail_eq
    rw [tail_eq, append_eq, Nat.add_sub_cancel]

/-- The log goes on along the longer one. -/
theorem accept_front {log : Log} (base : log.base = 0) {full : List AppendEntry}
    (front : log.entries <+: full) {pre : ℕ} (reaches : pre ≤ log.last) (count : ℕ) :
    (log.accept pre (numbered pre ((full.drop pre).take count))).entries <+: full ∧
      (log.accept pre (numbered pre ((full.drop pre).take count))).base = 0 := by
  have pre_le : pre ≤ log.entries.length := by
    rwa [last_of_base_zero base] at reaches
  rw [accept, divide_front base front reaches count, deleteFrom, if_pos log.nothingFrom_append]
  obtain ⟨entries, base'⟩ := log.appendAll_numbered log.entries.length
    (((full.drop pre).take count).drop (log.entries.length - pre))
  rw [entries, base', base]
  refine ⟨?_, rfl⟩
  obtain ⟨rest, rfl⟩ := front
  rw [List.drop_take, List.drop_drop, show pre + (log.entries.length - pre) = log.entries.length
    by omega, List.drop_left]
  exact (List.prefix_append_right_inj _).mpr (List.take_prefix _ _)

end Log

theorem mem_of_mem_numbered {index : ℕ} {entries : List AppendEntry} {entry : LogEntry}
    (mem : entry ∈ numbered index entries) : entry.appendEntry ∈ entries := by
  induction entries generalizing index with
  | nil => contradiction
  | cons first rest ih =>
      rcases List.mem_cons.mp mem with rfl | mem
      · exact List.mem_cons_self
      · exact List.mem_cons_of_mem _ (ih mem)

/-! ## Histories -/

/-- A cluster of the members of `initial` changes one server at a time. -/
structure OneByOne (initial : RaftConfig) (full : List AppendEntry) : Prop where
  decodes : ∀ entry ∈ full, entry.type = .config → entry.proposal.isSome
  steps : Log.Steps (fun a b => a.OneServer b ∧ b.toVector.Nodup) initial ⟨0, full, []⟩

/-- The message carries a part of the log. -/
def AppendEntries.Replays (msg : AppendEntries) (full : List AppendEntry) : Prop :=
  ∃ count, msg.entries = numbered msg.preLogIndex ((full.drop msg.preLogIndex).take count)

/-- While the node stands by, its log only ever gains members. -/
def AppendEntries.Grows (msg : AppendEntries) (first : RaftConfig) (n : Node) : Prop :=
  n.standby = true → (n.log.accept msg.preLogIndex msg.entries).Steps RaftConfig.Within first

/-- A new server that replays the log. -/
structure Joins (own : Addr) (full : List AppendEntry) (n : Node) : Prop where
  mirrors : Mirrors ⟨own, []⟩ n
  me : n.me = own
  base : n.log.base = 0
  front : n.log.entries <+: full
  smLast : n.smLast ≤ n.log.last

section Joins

variable {own : Addr} {initial : RaftConfig} {full : List AppendEntry} {n n' : Node}
  {msg : AppendEntries} {now : ℤ}

/-- The first change that adds a server leads from that server alone to more. -/
theorem RaftConfig.OneServer.joins {rc : RaftConfig} (one : initial.OneServer rc)
    (outside : own ∉ initial.toVector) (member : own ∈ rc.toVector) :
    RaftConfig.Within ⟨own, []⟩ rc := by
  constructor
  · intro addr mem
    obtain rfl : addr = own := List.mem_singleton.mp mem
    exact member
  · intro back
    have leader : initial.me ∈ rc.toVector := by
      obtain ⟨addr, ⟨-, members⟩ | ⟨-, members⟩⟩ := one
      · exact (members initial.me).mpr (.inr List.mem_cons_self)
      · exact absurd ((members own).mp member).2 outside
    have same : initial.me = own := List.mem_singleton.mp (back leader)
    exact outside (same ▸ List.mem_cons_self)

/-- Every change in a front part of the history is one that the new server
accepts, once it no longer stands by or if the part only gains members. -/
theorem OneByOne.steps_front (changes : OneByOne initial full)
    (outside : own ∉ initial.toVector)
    (member : ∀ entry ∈ full, ∀ rc, entry.proposal = some rc → own ∈ rc.toVector)
    {log : Log} (front : log.entries <+: full) {standby : Bool}
    (grows : standby = true → log.Steps RaftConfig.Within ⟨own, []⟩) :
    log.Steps (fun a b => b.toVector.Nodup ∧
      (a.Within b ∨ standby = false ∧ b.Within a)) ⟨own, []⟩ := by
  intro before rc after split_
  obtain ⟨rest, rfl⟩ := front
  have whole : Log.proposals ⟨0, log.entries ++ rest, []⟩ =
      before ++ rc :: (after ++ rest.filterMap AppendEntry.proposal) := by
    rw [Log.proposals, List.filterMap_append]
    show log.proposals ++ _ = _
    rw [split_, List.append_assoc, List.cons_append]
  obtain ⟨one, nodup⟩ := changes.steps before rc _ whole
  refine ⟨nodup, ?_⟩
  have mem : own ∈ rc.toVector := by
    have proposed : rc ∈ log.entries.filterMap AppendEntry.proposal := by
      show rc ∈ log.proposals
      rw [split_]
      exact List.mem_append_right _ List.mem_cons_self
    obtain ⟨entry, mem, proposes⟩ := List.mem_filterMap.mp proposed
    exact member entry (List.mem_append_left _ mem) rc proposes
  rcases List.eq_nil_or_concat before with rfl | ⟨earlier, last, rfl⟩
  · exact .inl (one.joins outside mem)
  · cases standby with
    | true => exact .inl (grows rfl _ rc after split_)
    | false =>
        rw [List.concat_eq_append, List.getLast?_concat, Option.getD_some] at one ⊢
        exact one.comparable.imp_right fun shrinks => ⟨rfl, shrinks⟩

theorem Joins.hears (joins : Joins own full n) (hears : Node.Hears n n') : Joins own full n' where
  mirrors := joins.mirrors.hears hears
  me := (congrArg (fun mgr : ConfigManager => mgr.current.me) hears.configMgr).trans joins.me
  base := hears.log ▸ joins.base
  front := hears.log ▸ joins.front
  smLast := by
    rw [Node.smLast, hears.sm, hears.log]
    exact joins.smLast

theorem Joins.acceptEntries (joins : Joins own full n) (changes : OneByOne initial full)
    (outside : own ∉ initial.toVector)
    (member : ∀ entry ∈ full, ∀ rc, entry.proposal = some rc → own ∈ rc.toVector)
    (replays : msg.Replays full) (grows : msg.Grows ⟨own, []⟩ n)
    (reaches : msg.preLogIndex ≤ n.lastIndex) :
    Meets (n.acceptEntries msg.preLogIndex msg.entries) (Joins own full)
      fun failed => ¬failed.1.OfConfig := by
  obtain ⟨count, entries⟩ := replays
  have smLast := joins.smLast
  have reaches_log : msg.preLogIndex ≤ n.log.last := by
    rw [Node.lastIndex, max_eq_right smLast] at reaches
    exact reaches
  have divided := Log.divide_front joins.base joins.front reaches_log count
  obtain ⟨front, base⟩ := Log.accept_front joins.base joins.front reaches_log count
  rw [← entries] at divided front base
  rcases Node.acceptEntries_cases (n := n) msg.preLogIndex msg.entries with
    ⟨site, walk, failed⟩ | ⟨-, ran⟩
  · rw [failed]
    exact Meets.error walk.not_ofConfig
  have steps := changes.steps_front outside member front grows
  rw [Log.accept, Log.deleteFrom, divided, if_pos n.log.nothingFrom_append] at steps front base
  rw [divided, Node.deleteFrom_append, ok_bind] at ran
  dsimp only at ran steps front base
  rw [ran]
  generalize tail_eq : numbered n.log.entries.length
    (((full.drop msg.preLogIndex).take count).drop (n.log.entries.length - msg.preLogIndex)) =
    tail at ran steps front base ⊢
  have known : ∀ entry ∈ tail, entry.appendEntry ∈ full := by
    intro entry mem
    rw [← tail_eq] at mem
    exact List.mem_of_mem_drop (List.mem_of_mem_take (List.mem_of_mem_drop
      (mem_of_mem_numbered mem)))
  have acceptable : AllAcceptable ⟨own, []⟩ n.me n.standby n.log tail := by
    refine allAcceptable_of_steps steps (fun _ _ sound => sound) ?_ ?_
    · exact fun entry mem => changes.decodes entry.appendEntry (known entry mem)
    · rw [joins.me]
      exact fun entry mem => member entry.appendEntry (known entry mem)
  refine Meets.intro_ (fun n' done => ?_) fun failed stopped => ?_
  · obtain ⟨mirrors, log, me, -⟩ := (joins.mirrors.appendAll acceptable).of_ok done
    have writes := Node.writes_appendAll done
    refine ⟨mirrors, me.trans joins.me, ?_, ?_, ?_⟩
    · rw [log]
      exact base
    · rw [log]
      exact front
    · have longer : (n.log.appendAll tail).last = (n.log.appendAll tail).entries.length :=
        Log.last_of_base_zero base
      have last := Log.last_of_base_zero joins.base
      have grown : n.log.entries.length ≤ (n.log.appendAll tail).entries.length := by
        rw [← tail_eq, (Log.appendAll_numbered _ _ _).1, List.length_append]
        omega
      rw [Node.smLast, writes.sm, log]
      rw [Node.smLast] at smLast
      omega
  · exact ((joins.mirrors.appendAll acceptable).of_error stopped).elim

/-- A message that replays the log is handled without failing a change. -/
theorem Joins.onAppendEntries (joins : Joins own full n) (changes : OneByOne initial full)
    (outside : own ∉ initial.toVector)
    (member : ∀ entry ∈ full, ∀ rc, entry.proposal = some rc → own ∈ rc.toVector)
    (replays : msg.Replays full) (grows : n.Accepts msg → msg.Grows ⟨own, []⟩ n) :
    Meets (n.onAppendEntries msg now) (Joins own full) fun failed => ¬failed.1.OfConfig := by
  refine Node.meets_onAppendEntries (Joins own full) (Joins own full)
    (fun failed head => head.not_ofConfig) ?_ ?_ ?_ ?_
  · exact fun n₁ hears => joins.hears hears
  · intro n₁ hears accepts
    refine (joins.hears hears).acceptEntries changes outside member replays ?_ ?_
    · intro standby
      rw [hears.log]
      exact grows accepts (hears.standby.symm.trans standby)
    · rw [Node.lastIndex, Node.smLast, hears.sm, hears.log]
      exact accepts.2.2.1
  · intro n₂ joins
    refine Node.applies_learnCommit.mono (fun n₃ applies => ?_) fun failed site => ?_
    · refine ⟨joins.mirrors.congr applies.log applies.configMgr ?_ ?_, ?_, ?_, ?_, ?_⟩
      · rw [applies.timerMgr]
      · rw [applies.timerMgr]
      · exact (congrArg (fun mgr : ConfigManager => mgr.current.me) applies.configMgr).trans joins.me
      · rw [applies.log]
        exact joins.base
      · rw [applies.log]
        exact joins.front
      · rw [applies.log]
        exact applies.smLast.trans (max_le joins.smLast le_rfl)
    · rcases site with site | site
      · simp [site, AssertSite.OfConfig]
      · exact site.not_ofConfig
  · exact fun n₃ n₄ joins hears => joins.hears hears

theorem Joins.boot (own : Addr) (full : List AppendEntry) (flags : Flags) (sm : Bool) :
    Joins own full (Node.boot ⟨own, []⟩ flags (Disk.fresh sm)) where
  mirrors := ⟨rfl, .refl _, boot_timesMembers _ _ _, List.nodup_singleton own, nofun⟩
  me := rfl
  base := rfl
  front := List.nil_prefix
  smLast := by cases sm <;> exact le_rfl

end Joins

/-! ## Along runs -/

/-- The new server receives a part of the log, in whatever order the parts come. -/
inductive Node.JoinStep (own : Addr) (full : List AppendEntry) (n : Node) : Node → Prop
  | deliver (msg : AppendEntries) (now : ℤ) (replays : msg.Replays full)
      (grows : n.Accepts msg → msg.Grows ⟨own, []⟩ n) (n' : Node)
      (done : n.onAppendEntries msg now = .ok n') : JoinStep own full n n'

/-- A server that stands by and is a member from the first change on replays every
history of changes, as long as no removal reaches it while it stands by: no
change fails, and its configuration is the newest one it has received. -/
theorem new_server_replays {initial : RaftConfig} {full : List AppendEntry} {own : Addr}
    (changes : OneByOne initial full) (outside : own ∉ initial.toVector)
    (member : ∀ entry ∈ full, ∀ rc, entry.proposal = some rc → own ∈ rc.toVector)
    {flags : Flags} {sm : Bool} {n : Node}
    (run : Relation.ReflTransGen (Node.JoinStep own full)
      (Node.boot ⟨own, []⟩ flags (Disk.fresh sm)) n) :
    n.log.entries <+: full ∧
    n.configMgr.current.SameMembers (n.log.newest ⟨own, []⟩) ∧
    ∀ msg now, msg.Replays full → (n.Accepts msg → msg.Grows ⟨own, []⟩ n) →
      ∀ site m, n.onAppendEntries msg now = .error (site, m) → ¬site.OfConfig := by
  have joins : Joins own full n := by
    induction run with
    | refl => exact .boot own full flags sm
    | tail _ step joins =>
        cases step with
        | deliver msg now replays grows n' done =>
            exact (joins.onAppendEntries changes outside member replays grows).of_ok done
  refine ⟨joins.front, joins.mirrors.members, ?_⟩
  intro msg now replays grows site m failed
  exact (joins.onAppendEntries changes outside member replays grows).of_error failed

/-! ## Two histories -/

/-- Server `4` before it is added. -/
def joiner : Node :=
  Node.boot ⟨4, []⟩ ⟨false, false, true, {}⟩ (Disk.fresh true)

/-- Leader `1` sends the first entries of the log and has committed them. -/
def sends (full : List AppendEntry) (count : ℕ) : AppendEntries where
  src := 1
  dest := 4
  term := 2
  preLogIndex := 0
  preLogTerm := 0
  commitIndex := count
  entries := numbered 0 ((full.drop 0).take count)

/-- `1` writes down the members. -/
def proposing (peers : List Addr) : AppendEntry :=
  ⟨2, .config, RaftConfig.toString ⟨1, peers⟩⟩

theorem RaftConfig.OneServer.add {me addr : Addr} {peers : List Addr} (new : addr ∉ me :: peers) :
    RaftConfig.OneServer ⟨me, peers⟩ ⟨me, peers ++ [addr]⟩ := by
  refine ⟨addr, .inl ⟨new, fun x => ?_⟩⟩
  show x ∈ me :: (peers ++ [addr]) ↔ x = addr ∨ x ∈ me :: peers
  rw [← List.cons_append, List.mem_append, List.mem_singleton, or_comm]

theorem proposing_steps {log : Log} {initial : RaftConfig} (addr : Addr) {me : Addr}
    {peers : List Addr} (steps : log.Steps (fun a b => a.OneServer b ∧ b.toVector.Nodup) initial)
    (newest : log.newest initial = ⟨me, peers⟩) {entry : AppendEntry}
    (proposes : entry.proposal = some ⟨me, peers ++ [addr]⟩)
    (nodup : (me :: (peers ++ [addr])).Nodup) :
    (log.appendOne entry).Steps (fun a b => a.OneServer b ∧ b.toVector.Nodup) initial := by
  refine steps.appendOne fun rc found => ?_
  rw [proposes] at found
  cases found
  rw [newest]
  refine ⟨.add ?_, nodup⟩
  rw [← List.cons_append, List.nodup_append] at nodup
  exact fun mem => nodup.2.2 addr mem addr (List.mem_singleton_self addr) rfl

theorem empty_steps {R : RaftConfig → RaftConfig → Prop} {initial : RaftConfig} :
    Log.empty.Steps R initial := by
  intro before rc after none_
  have empty : ([] : List RaftConfig) = before ++ rc :: after := none_
  simp at empty

/-- The log of a cluster whose first change adds `4`. -/
def joinsFirst : List AppendEntry :=
  [proposing [2, 3, 4], ⟨2, .data, [7]⟩]

theorem joinsFirst_oneByOne : OneByOne ⟨1, [2, 3]⟩ joinsFirst where
  decodes := by decide +kernel
  steps := by
    have first : (Log.empty.appendOne (proposing [2, 3, 4])).Steps
        (fun a b => a.OneServer b ∧ b.toVector.Nodup) ⟨1, [2, 3]⟩ :=
      proposing_steps 4 empty_steps rfl (by decide +kernel) (by decide)
    exact first.appendOne nofun

theorem joinsFirst_grows : (sends joinsFirst 2).Grows ⟨4, []⟩ joiner := by
  intro _
  have log : joiner.log.accept (sends joinsFirst 2).preLogIndex (sends joinsFirst 2).entries =
      (joiner.log.appendOne (proposing [2, 3, 4])).appendOne ⟨2, .data, [7]⟩ := by decide +kernel
  rw [log]
  refine Log.Steps.appendOne (Log.Steps.appendOne empty_steps fun rc found => ?_) nofun
  have proposes : (proposing [2, 3, 4]).proposal = some ⟨1, [2, 3, 4]⟩ := by decide +kernel
  rw [proposes] at found
  cases found
  exact ⟨by decide, by decide⟩

/-- `4` has received the whole log. -/
theorem new_server_replays_first :
    ∃ n, Relation.ReflTransGen (Node.JoinStep 4 joinsFirst) joiner n ∧
      n.log.entries = joinsFirst ∧ n.standby = false ∧
      n.configMgr.current.SameMembers ⟨1, [2, 3, 4]⟩ := by
  have run : Relation.ReflTransGen (Node.JoinStep 4 joinsFirst) joiner
      (joiner.onAppendEntries (sends joinsFirst 2) 0).node :=
    .single (.deliver (sends joinsFirst 2) 0 ⟨2, rfl⟩ (fun _ => joinsFirst_grows) _
      (ok_node (by decide +kernel)))
  obtain ⟨-, members, -⟩ :=
    new_server_replays joinsFirst_oneByOne (by decide) (by decide +kernel) run
  have newest : (joiner.onAppendEntries (sends joinsFirst 2) 0).node.log.newest ⟨4, []⟩ =
      ⟨1, [2, 3, 4]⟩ := by decide +kernel
  rw [newest] at members
  exact ⟨_, run, by decide +kernel, by decide +kernel, members⟩

/-- The log of a cluster that has added `5` before it adds `4`. -/
def joinsSecond : List AppendEntry :=
  [proposing [2, 3, 5], proposing [2, 3, 5, 4]]

/-- A server that is added by the second change fails on the first one, in whose
configuration it is not. -/
theorem new_server_fails :
    OneByOne ⟨1, [2, 3]⟩ joinsSecond ∧ 4 ∉ RaftConfig.toVector ⟨1, [2, 3]⟩ ∧
    (proposing [2, 3, 5, 4]).proposal = some ⟨1, [2, 3, 5, 4]⟩ ∧
    (sends joinsSecond 1).Replays joinsSecond ∧
    ∃ m, joiner.onAppendEntries (sends joinsSecond 1) 0 = .error (.configDirection, m) := by
  refine ⟨⟨by decide +kernel, ?_⟩, by decide, by decide +kernel, ⟨1, rfl⟩, ?_⟩
  · have first : (Log.empty.appendOne (proposing [2, 3, 5])).Steps
        (fun a b => a.OneServer b ∧ b.toVector.Nodup) ⟨1, [2, 3]⟩ :=
      proposing_steps 5 empty_steps rfl (by decide +kernel) (by decide)
    have newest : (Log.empty.appendOne (proposing [2, 3, 5])).newest ⟨1, [2, 3]⟩ =
        ⟨1, [2, 3, 5]⟩ := by decide +kernel
    have proposes : (proposing [2, 3, 5, 4]).proposal = some ⟨1, [2, 3, 5, 4]⟩ := by
      decide +kernel
    exact proposing_steps 4 first newest proposes (by decide)
  · have failed : (match joiner.onAppendEntries (sends joinsSecond 1) 0 with
        | .error (site, _) => decide (site = .configDirection)
        | .ok _ => false) = true := by decide +kernel
    split at failed
    · rename_i site m outcome
      rw [decide_eq_true_eq] at failed
      exact ⟨m, failed ▸ outcome⟩
    · contradiction

end Vraft
