import Vraft.Votes.Trace

/-!
# Votes across crashes

A single node with an arbitrary environment: it may be sent anything, and it may
crash after any of its effects and restart from what it has written.  It never
gives its vote to two candidates in one term.  That every vote rests on a check
of the candidate's log fails in one place: a crash between the write of a term
and the write of the vote that clears the old one leaves the new term with the
vote of the term before.
-/

namespace Vraft

/-- A node over its whole life: the node as it is, everything it has done, and
every input it has begun to handle together with the node it then was. -/
structure Life where
  node : Node
  hist : List Effect
  seen : List (Node × Input)

namespace Life

/-- The first start. -/
def init (rc : RaftConfig) (flags : Flags) (sm : Bool) : Life :=
  ⟨Node.boot rc flags (Disk.fresh sm), [], []⟩

/-- Anybody else with an address. -/
def Others (rc : RaftConfig) (addr : Addr) : Prop :=
  addr ≠ 0 ∧ addr ≠ rc.me
  deriving Decidable

/-- A node handles an input to the end, or crashes on the way and restarts.
`asks` are those who may ask for its vote, and `crash` says on which disk it may
restart, given what it had performed. -/
inductive Step (rc : RaftConfig) (asks : Addr → Prop) (crash : List Effect → Disk → Prop)
    (s : Life) : Life → Prop
  | handle (input : Input) (named : input.Named asks) (n : Node)
      (done : s.node.handle input = .ok n) :
      Step rc asks crash s
        ⟨{ n with effects := [] }, s.hist ++ n.effects, s.seen ++ [(s.node, input)]⟩
  | crash (input : Input) (named : input.Named asks) (performed : List Effect)
      (reached : performed <+: (s.node.handle input).node.effects)
      (allowed : crash performed (s.node.disk.performAll performed)) (flags : Flags) :
      Step rc asks crash s
        ⟨Node.boot rc flags (s.node.disk.performAll performed), s.hist ++ performed,
          s.seen ++ [(s.node, input)]⟩

/-- States reached from a first start. -/
def Reachable (rc : RaftConfig) (asks : Addr → Prop) (crash : List Effect → Disk → Prop)
    (s : Life) : Prop :=
  ∃ flags sm, Relation.ReflTransGen (Step rc asks crash) (init rc flags sm) s

/-- A crash may happen after any effect. -/
def Anywhere (_ : List Effect) (_ : Disk) : Prop :=
  True

/-- The candidate has been given the vote of the term. -/
def Grants (hist : List Effect) (term : ℕ) (addr : Addr) : Prop :=
  ∃ effect ∈ hist, effect.grant = some (term, addr)
  deriving Decidable

/-- The terms written to disk, in order. -/
def persistedTerms (hist : List Effect) : List ℕ :=
  hist.filterMap fun
    | .persistTerm term => some term
    | _ => none

/-! ## Ledgers -/

/-- What a history says about the ballot it has led to. -/
structure Ledger (hist : List Effect) (b : Ballot) : Prop where
  given_le : ∀ {term addr}, Grants hist term addr → term ≤ b.term
  given_eq : ∀ {addr}, Grants hist b.term addr → b.pending = false ∧ addr = b.vote
  given_ne : ∀ {term addr}, Grants hist term addr → addr ≠ 0
  unique : ∀ {term first second}, Grants hist term first → Grants hist term second →
    first = second
  terms : (1 :: persistedTerms hist).Pairwise (· < ·)
  terms_le : ∀ term ∈ 1 :: persistedTerms hist, term ≤ b.term

theorem grants_snoc {hist : List Effect} {effect : Effect} {term : ℕ} {addr : Addr} :
    Grants (hist ++ [effect]) term addr ↔
      Grants hist term addr ∨ effect.grant = some (term, addr) := by
  simp only [Grants, List.mem_append, List.mem_singleton]
  constructor
  · rintro ⟨found, mem | rfl, given⟩
    · exact Or.inl ⟨found, mem, given⟩
    · exact Or.inr given
  · rintro (⟨found, mem, given⟩ | given)
    · exact ⟨found, Or.inl mem, given⟩
    · exact ⟨effect, Or.inr rfl, given⟩

/-- An effect that gives no vote and writes no term. -/
theorem Ledger.idle {hist : List Effect} {b b' : Ballot} (ledger : Ledger hist b) {effect : Effect}
    (none_given : effect.grant = none) (no_term : persistedTerms [effect] = [])
    (term_eq : b'.term = b.term)
    (given_eq : ∀ {addr}, Grants hist b.term addr → b'.pending = false ∧ addr = b'.vote) :
    Ledger (hist ++ [effect]) b' := by
  have same : ∀ {term addr}, Grants (hist ++ [effect]) term addr → Grants hist term addr := by
    intro term addr given
    rcases grants_snoc.mp given with given | new
    · exact given
    · simp [none_given] at new
  have terms_eq : persistedTerms (hist ++ [effect]) = persistedTerms hist := by
    rw [persistedTerms, List.filterMap_append]
    exact (congrArg _ no_term).trans (List.append_nil _)
  refine ⟨fun given => ?_, fun given => ?_, fun given => ledger.given_ne (same given),
    fun first second => ledger.unique (same first) (same second), ?_, ?_⟩
  · rw [term_eq]
    exact ledger.given_le (same given)
  · rw [term_eq] at given
    exact given_eq (same given)
  · rw [terms_eq]
    exact ledger.terms
  · rw [terms_eq, term_eq]
    exact ledger.terms_le

theorem Ledger.step {sc : Scope} {hist : List Effect} {b b' : Ballot} {effect : Effect}
    (ledger : Ledger hist b) (step : Ballot.Step sc b effect b') :
    Ledger (hist ++ [effect]) b' := by
  cases step with
  | term t later =>
      have same : ∀ {term addr}, Grants (hist ++ [.persistTerm t]) term addr →
          Grants hist term addr := by
        intro term addr given
        rcases grants_snoc.mp given with given | new
        · exact given
        · simp [Effect.grant] at new
      have terms_eq : persistedTerms (hist ++ [.persistTerm t]) = persistedTerms hist ++ [t] := by
        simp [persistedTerms]
      refine ⟨fun given => (ledger.given_le (same given)).trans later.le, fun given => ?_,
        fun given => ledger.given_ne (same given),
        fun first second => ledger.unique (same first) (same second), ?_, ?_⟩
      · have := ledger.given_le (same given)
        dsimp only at this
        omega
      · rw [terms_eq, ← List.cons_append, List.pairwise_append]
        refine ⟨ledger.terms, by simp, fun x mem y memY => ?_⟩
        obtain rfl := List.mem_singleton.mp memY
        exact (ledger.terms_le x mem).trans_lt later
      · rw [terms_eq, ← List.cons_append]
        intro x mem
        rcases List.mem_append.mp mem with mem | mem
        · exact (ledger.terms_le x mem).trans later.le
        · exact (List.mem_singleton.mp mem).le
  | vote v free justified =>
      refine ledger.idle rfl rfl rfl fun given => ?_
      obtain ⟨settled, vote_eq⟩ := ledger.given_eq given
      rcases free with pending | none_yet
      · simp [settled] at pending
      · exact absurd (vote_eq.trans none_yet) (ledger.given_ne given)
  | append entry settled named => exact ledger.idle rfl rfl rfl ledger.given_eq
  | passive _ settled passive given =>
      have no_term : persistedTerms [effect] = [] := by
        cases effect with
        | persistTerm term => exact passive.elim
        | _ => rfl
      cases new : effect.grant with
      | none => exact ledger.idle new no_term rfl ledger.given_eq
      | some pair =>
          obtain ⟨term_eq, vote_eq, nonnull⟩ := given pair.1 pair.2 new
          have cases_ : ∀ {term addr}, Grants (hist ++ [effect]) term addr →
              Grants hist term addr ∨ term = b.term ∧ addr = b.vote := by
            intro term addr given
            rcases grants_snoc.mp given with given | isNew
            · exact Or.inl given
            · rw [new] at isNew
              obtain rfl := Option.some.inj isNew
              exact Or.inr ⟨term_eq, vote_eq⟩
          have terms_eq : persistedTerms (hist ++ [effect]) = persistedTerms hist := by
            rw [persistedTerms, List.filterMap_append]
            exact (congrArg _ no_term).trans (List.append_nil _)
          refine ⟨fun given => ?_, fun given => ?_, fun given => ?_, fun first second => ?_, ?_, ?_⟩
          · rcases cases_ given with given | ⟨rfl, -⟩
            · exact ledger.given_le given
            · exact le_rfl
          · rcases cases_ given with given | ⟨-, vote_eq⟩
            · exact ledger.given_eq given
            · exact ⟨settled, vote_eq⟩
          · rcases cases_ given with given | ⟨-, rfl⟩
            · exact ledger.given_ne given
            · exact vote_eq ▸ nonnull
          · rcases cases_ first with first | ⟨rfl, rfl⟩ <;>
              rcases cases_ second with second | ⟨same, rfl⟩
            · exact ledger.unique first second
            · subst same
              exact (ledger.given_eq first).2
            · exact (ledger.given_eq second).2.symm
            · rfl
          · rw [terms_eq]
            exact ledger.terms
          · rw [terms_eq]
            exact ledger.terms_le

theorem Ledger.trace {sc : Scope} {hist effects : List Effect} {start b : Ballot}
    (ledger : Ledger hist start) (trace : Ballot.Trace sc start effects b) :
    Ledger (hist ++ effects) b := by
  induction trace with
  | nil => simpa using ledger
  | snoc before step ih =>
      rw [← List.append_assoc]
      exact ih.step step

/-- A crash forgets that a vote was still to come. -/
theorem Ledger.crash {hist : List Effect} {b : Ballot} (ledger : Ledger hist b) :
    Ledger hist { b with pending := false } :=
  { ledger with given_eq := fun given => ⟨rfl, (ledger.given_eq given).2⟩ }

/-! ## Disks and traces -/

section Disks

variable {sc : Scope} {start b : Ballot} {effects : List Effect} {d : Disk}

/-- A ballot is what the disk says. -/
theorem trace_disk (trace : Ballot.Trace sc start effects b) (term_eq : d.term = start.term)
    (vote_eq : d.vote = start.vote) :
    (d.performAll effects).term = b.term ∧ (d.performAll effects).vote = b.vote := by
  induction trace with
  | nil => exact ⟨term_eq, vote_eq⟩
  | @snoc effects b b' effect before step ih =>
      rw [Disk.performAll, List.foldl_append]
      show (Disk.perform (d.performAll effects) effect).term = _ ∧
        (Disk.perform (d.performAll effects) effect).vote = _
      cases step with
      | term t later => exact ⟨rfl, ih.2⟩
      | vote v free justified => exact ⟨ih.1, rfl⟩
      | append entry settled named => exact ih
      | passive _ settled passive given =>
          cases effect with
          | persistTerm term => exact passive.elim
          | persistVote vote => exact passive.elim
          | _ => exact ih

/-- Recorded configurations keep an owner. -/
theorem trace_named (trace : Ballot.Trace sc start effects b) (named : d.log.Named) :
    (d.performAll effects).log.Named := by
  induction trace with
  | nil => exact named
  | @snoc effects b b' effect before step ih =>
      rw [Disk.performAll, List.foldl_append]
      show (Disk.perform (d.performAll effects) effect).log.Named
      cases step with
      | term t later => exact ih
      | vote v free justified => exact ih
      | append entry settled entry_named => exact ih.appendOne entry_named
      | passive _ settled passive given =>
          cases effect with
          | appendLog entry => exact passive.elim
          | truncateLog from_ => exact ih.deleteFrom from_
          | _ => exact ih

/-- A vote is only missing right after its term. -/
theorem trace_pending (trace : Ballot.Trace sc start effects b) (settled : start.pending = false)
    (pending : b.pending = true) : ∃ term, effects.getLast? = some (.persistTerm term) := by
  cases trace with
  | nil => simp [settled] at pending
  | snoc before step =>
      rw [List.getLast?_concat]
      cases step with
      | term t later => exact ⟨t, rfl⟩
      | vote v free justified => contradiction
      | append entry settled named => simp [settled] at pending
      | passive _ settled passive given => simp [settled] at pending

/-- Recorded and given votes are justified. -/
theorem trace_justified (trace : Ballot.Trace sc start effects b)
    (first : sc.justified start.vote start.term) :
    (b.pending = false → sc.justified b.vote b.term) ∧
      ∀ msg, Effect.send (.requestVoteReply msg) ∈ effects →
        sc.candidate msg.dest ∧
          (msg.granted = true → msg.preVote = false → sc.justified msg.dest msg.reqTerm) := by
  induction trace with
  | nil => exact ⟨fun _ => first, by simp⟩
  | @snoc effects b b' effect before step ih =>
      have earlier : ∀ msg, Effect.send (.requestVoteReply msg) ∈ effects ++ [effect] →
          (effect = .send (.requestVoteReply msg) → sc.candidate msg.dest ∧
            (msg.granted = true → msg.preVote = false → sc.justified msg.dest msg.reqTerm)) →
          sc.candidate msg.dest ∧
            (msg.granted = true → msg.preVote = false → sc.justified msg.dest msg.reqTerm) := by
        intro msg mem new
        rcases List.mem_append.mp mem with mem | mem
        · exact ih.2 msg mem
        · exact new (List.mem_singleton.mp mem).symm
      cases step with
      | term t later => exact ⟨by simp, fun msg mem => earlier msg mem (by simp)⟩
      | vote v free justified =>
          exact ⟨fun _ => justified, fun msg mem => earlier msg mem (by simp)⟩
      | append entry settled named => exact ⟨ih.1, fun msg mem => earlier msg mem (by simp)⟩
      | passive _ settled passive given =>
          refine ⟨ih.1, fun msg mem => earlier msg mem ?_⟩
          rintro rfl
          refine ⟨passive, fun granted real => ?_⟩
          obtain ⟨term_eq, vote_eq, -⟩ := given msg.reqTerm msg.dest
            (by simp [Effect.grant, granted, real])
          rw [term_eq, vote_eq]
          exact ih.1 settled

end Disks

/-! ## Steps of a life -/

/-- What holds of a node between two handlers. -/
structure Sound (own : Addr → Prop) (s : Life) : Prop where
  idle : s.node.effects = []
  current : own s.node.configMgr.current.me
  previous : ∀ rc, s.node.configMgr.previous = some rc → own rc.me
  recorded : s.node.log.Named
  ledger : Ledger s.hist ⟨s.node.solid.term, s.node.solid.vote, false⟩

/-- A restart takes the node's own address from the configuration on record, or
else from the one passed in. -/
theorem Sound.boot {own : Addr → Prop} (own_nonnull : ∀ addr, own addr → addr ≠ 0)
    {rc : RaftConfig} (ownRc : own rc.me) {disk : Disk} (named : disk.log.Named)
    (ownRecorded : ∀ recorded, disk.log.lastConfig = some recorded → own recorded.me)
    {hist : List Effect} (ledger : Ledger hist ⟨disk.term, disk.vote, false⟩) (flags : Flags)
    (seen : List (Node × Input)) : Sound own ⟨Node.boot rc flags disk, hist, seen⟩ := by
  cases found : disk.log.lastConfig with
  | none =>
      refine ⟨rfl, ?_, ?_, ?_, ledger⟩ <;> simp only [Node.boot, found]
      · exact ownRc
      · simp
      · intro recorded mem
        rcases List.mem_cons.mp mem with rfl | mem
        · exact own_nonnull _ ownRc
        · exact named recorded mem
  | some recorded =>
      refine ⟨rfl, ?_, ?_, ?_, ledger⟩ <;> simp only [Node.boot, found]
      · exact ownRecorded recorded found
      · intro before isBefore
        obtain rfl : rc = before := Option.some.inj isBefore
        exact ownRc
      · exact named

section Steps

variable {rc : RaftConfig} {crash : List Effect → Disk → Prop} {s s' : Life}

/-- A step adds lawful effects, and what it leaves on disk is what they led to. -/
theorem Sound.next (sc : Scope) (ownRc : sc.own rc.me) (sound : Sound sc.own s)
    (step : Step rc sc.candidate crash s s')
    (justified : ∀ msg now, s'.seen = s.seen ++ [(s.node, .recv (.requestVote msg) now)] →
      s.node.solid.term ≤ msg.term → s.node.intervalOk msg now = true →
      s.node.logOk msg = true → sc.justified msg.src msg.term)
    (restart : ∀ performed disk, crash performed disk → disk.log.Named →
      ∀ recorded, disk.log.lastConfig = some recorded → sc.own recorded.me) :
    Sound sc.own s' ∧ ∃ effects b, s'.hist = s.hist ++ effects ∧
      Ballot.Trace sc ⟨s.node.solid.term, s.node.solid.vote, false⟩ effects b ∧
      s'.node.solid = ⟨b.term, b.vote⟩ ∧
      (b.pending = true → crash effects (s.node.disk.performAll effects)) := by
  have start : Tracked sc ⟨s.node.solid.term, s.node.solid.vote, false⟩ s.node := by
    refine ⟨?_, sound.current, sound.previous, sound.recorded⟩
    rw [sound.idle]
    exact .nil
  cases step with
  | handle input named n done =>
      have tracked : Tracked sc ⟨s.node.solid.term, s.node.solid.vote, false⟩ n := by
        have keeps := handle_keeps start named
          fun msg now isVote => justified msg now (by rw [isVote])
        rw [done] at keeps
        exact keeps
      exact ⟨⟨rfl, tracked.current, tracked.previous, tracked.recorded,
        sound.ledger.trace tracked.trace⟩, _, _, rfl, tracked.trace, rfl, by simp⟩
  | crash input named performed reached allowed flags =>
      have keeps := handle_keeps start named
        fun msg now isVote => justified msg now (by rw [isVote])
      obtain ⟨b, trace⟩ := keeps.node.trace.of_initial reached
      have disk_eq := trace_disk (d := s.node.disk) trace rfl rfl
      have disk_named := trace_named (d := s.node.disk) trace sound.recorded
      refine ⟨?_, performed, b, rfl, trace, ?_, fun _ => allowed⟩
      · refine Sound.boot sc.own_nonnull ownRc disk_named
          (restart performed _ allowed disk_named) ?_ flags _
        rw [disk_eq.1, disk_eq.2]
        exact (sound.ledger.trace trace).crash
      · rw [← disk_eq.1, ← disk_eq.2]
        rfl

theorem Sound.init {own : Addr → Prop} (own_nonnull : ∀ addr, own addr → addr ≠ 0)
    (ownRc : own rc.me) (flags : Flags) (sm : Bool) : Sound own (init rc flags sm) := by
  refine Sound.boot own_nonnull ownRc (fun recorded mem => ?_) (fun recorded found => ?_) ?_ flags []
  · contradiction
  · contradiction
  · have nothing : ∀ {term addr}, ¬Grants [] term addr := by simp [Grants]
    exact ⟨fun given => absurd given nothing, fun given => absurd given nothing,
      fun given => absurd given nothing, fun given => absurd given nothing, by simp [persistedTerms],
      by simp [persistedTerms, Disk.fresh]⟩

end Steps

/-! ## A crash between a term and its vote -/

/-- Handle an input; `none` at an assert. -/
def move (s : Life) (input : Input) : Option Life :=
  match s.node.handle input with
  | .ok n => some ⟨{ n with effects := [] }, s.hist ++ n.effects, s.seen ++ [(s.node, input)]⟩
  | .error _ => none

/-- Crash after the first `count` effects of a handler. -/
def moveUntil (rc : RaftConfig) (s : Life) (input : Input) (count : ℕ) : Life :=
  let performed := (s.node.handle input).node.effects.take count
  ⟨Node.boot rc ⟨false, false, false, {}⟩ (s.node.disk.performAll performed), s.hist ++ performed,
    s.seen ++ [(s.node, input)]⟩

theorem step_of_move (rc : RaftConfig) {asks : Addr → Prop} (crash : List Effect → Disk → Prop)
    {s s' : Life} {i : Input} (named : i.Named asks) (moved : s.move i = some s') :
    Step rc asks crash s s' := by
  rw [move] at moved
  split at moved
  · rename_i n done
    obtain rfl := Option.some.inj moved
    exact .handle i named n done
  · contradiction

/-- The second of five nodes. -/
def voter : RaftConfig := ⟨2, [1, 3, 4, 5]⟩

/-- `1` asks for a vote in a term, with an empty log. -/
def ask (term : ℕ) : Input :=
  .recv (.requestVote ⟨1, 2, term, 0, 0, false, false⟩) 0

/-- `3` leads the second term and replicates its first entry. -/
def lead : Input :=
  .recv (.appendEntries ⟨3, 2, 2, 0, 0, 0, [⟨1, 2, .noop, Node.noopValue⟩]⟩) 0

/-- The reply to a candidate whose log is too old. -/
def staleReply : RequestVoteReply :=
  ⟨2, 1, 3, true, false, false, true, 3⟩

/-- The node votes for `1` in the second term, follows `3` there, and then enters
the third term at the request of `1`.  It crashes before the old vote is
cleared, and the request is repeated. -/
def stale : Option Life := do
  let s ← (init voter ⟨false, false, false, {}⟩ false).move (ask 2)
  let s ← s.move lead
  (s.moveUntil voter (ask 3) 1).move (ask 3)

theorem lead_named (asks : Addr → Prop) : lead.Named asks := by
  intro entry mem isConfig
  obtain rfl := List.mem_singleton.mp mem
  contradiction

theorem stale_reachable {asks : Addr → Prop} (one : asks 1) (observed : Life → Bool)
    (holds : stale.any observed = true) :
    ∃ s, Reachable voter asks Anywhere s ∧ observed s = true := by
  obtain ⟨s, found, seen⟩ := (Option.any_eq_true _ _).mp holds
  rw [stale] at found
  obtain ⟨voted, first, found⟩ := Option.bind_eq_some_iff.mp found
  obtain ⟨led, second, third⟩ := Option.bind_eq_some_iff.mp found
  refine ⟨s, ⟨⟨false, false, false, {}⟩, false, ?_⟩, seen⟩
  have votedStep := step_of_move voter Anywhere (i := ask 2) one first
  have ledStep := step_of_move voter Anywhere (lead_named asks) second
  have crashStep : Step voter asks Anywhere led (moveUntil voter led (ask 3) 1) :=
    .crash (ask 3) one _ (List.take_prefix 1 _) trivial _
  have lastStep := step_of_move voter Anywhere (i := ask 3) one third
  exact (((Relation.ReflTransGen.single votedStep).tail ledStep).tail crashStep).tail lastStep

/-! ## One vote per term -/

/-- A vote request of a candidate for a term, by a node not past that term, that
passes the check of the candidate's log. -/
def Checks (addr : Addr) (term : ℕ) : Node × Input → Prop
  | (n, .recv (.requestVote msg) _) =>
      msg.src = addr ∧ msg.term = term ∧ n.solid.term ≤ term ∧ n.logOk msg = true
  | _ => False

instance (addr : Addr) (term : ℕ) : DecidablePred (Checks addr term) := fun request => by
  unfold Checks
  split <;> infer_instance

/-- A request of the address in the term has been seen and has passed the test of the
log. -/
def Checked (seen : List (Node × Input)) (addr : Addr) (term : ℕ) : Prop :=
  ∃ request ∈ seen, Checks addr term request
  deriving Decidable

/-- Every vote given to a candidate rests on a check of its log in that term. -/
def VotesChecked (s : Life) : Prop :=
  ∀ msg, Effect.send (.requestVoteReply msg) ∈ s.hist → msg.granted = true →
    msg.preVote = false → Checked s.seen msg.dest msg.reqTerm

/-- A crash does not separate a new term from the vote of another node in the
term before, and the configuration on record is the node's own. -/
def Harmless (rc : RaftConfig) (performed : List Effect) (disk : Disk) : Prop :=
  (∀ term, performed.getLast? = some (.persistTerm term) → disk.vote = 0 ∨ disk.vote = rc.me) ∧
  ∀ recorded, disk.log.lastConfig = some recorded → recorded.me = rc.me

/-- A vote for nobody, for oneself, or for a candidate whose log was checked. -/
def Rests (rc : RaftConfig) (seen : List (Node × Input)) (vote : Addr) (term : ℕ) : Prop :=
  vote = 0 ∨ vote = rc.me ∨ Checked seen vote term

/-- One's own address is fixed, and votes rest on checks. -/
def strict (rc : RaftConfig) (nonnull : rc.me ≠ 0) (seen : List (Node × Input)) : Scope where
  own addr := addr = rc.me
  own_nonnull _ isOwn := isOwn ▸ nonnull
  candidate := Others rc
  candidate_nonnull _ other := other.1
  justified := Rests rc seen
  justified_zero _ := Or.inl rfl
  justified_own _ _ isOwn := Or.inr (Or.inl isOwn)

theorem Checked.mono {seen : List (Node × Input)} {addr : Addr} {term : ℕ}
    (checked : Checked seen addr term) (more : List (Node × Input)) :
    Checked (seen ++ more) addr term := by
  obtain ⟨request, mem, checks⟩ := checked
  exact ⟨request, List.mem_append_left _ mem, checks⟩

theorem Rests.mono {rc : RaftConfig} {seen : List (Node × Input)} {vote : Addr} {term : ℕ}
    (rests : Rests rc seen vote term) (more : List (Node × Input)) :
    Rests rc (seen ++ more) vote term := by
  rcases rests with null | own | checked
  · exact Or.inl null
  · exact Or.inr (Or.inl own)
  · exact Or.inr (Or.inr (checked.mono more))

theorem Step.seen_eq {rc : RaftConfig} {asks : Addr → Prop} {crash : List Effect → Disk → Prop}
    {s s' : Life} (step : Step rc asks crash s s') :
    ∃ input, s'.seen = s.seen ++ [(s.node, input)] := by
  cases step <;> exact ⟨_, rfl⟩

/-- One step keeps every vote, given or on record, resting on a check. -/
theorem VotesChecked.next {rc : RaftConfig} (nonnull : rc.me ≠ 0) {s s' : Life}
    (sound : Sound (fun addr => addr = rc.me) s)
    (rests : Rests rc s.seen s.node.solid.vote s.node.solid.term) (checked : VotesChecked s)
    (step : Step rc (Others rc) (Harmless rc) s s') :
    Sound (fun addr => addr = rc.me) s' ∧
      Rests rc s'.seen s'.node.solid.vote s'.node.solid.term ∧ VotesChecked s' := by
  obtain ⟨input, seen_eq⟩ := step.seen_eq
  have later : ∀ {vote term}, Rests rc s.seen vote term → Rests rc s'.seen vote term := by
    intro vote term rests
    rw [seen_eq]
    exact rests.mono _
  obtain ⟨sound', effects, b, hist_eq, trace, solid_eq, crashed⟩ :=
    Sound.next (strict rc nonnull s'.seen) rfl sound step
      (fun msg now isVote current _ logOk => Or.inr (Or.inr
        ⟨(s.node, .recv (.requestVote msg) now), by simp [isVote], rfl, rfl, current, logOk⟩))
      fun _ _ harmless _ => harmless.2
  obtain ⟨recorded, given⟩ := trace_justified trace (later rests)
  refine ⟨sound', ?_, fun msg mem granted real => ?_⟩
  · rw [solid_eq]
    cases pending : b.pending with
    | false => exact recorded pending
    | true =>
        obtain ⟨term, last⟩ := trace_pending trace rfl pending
        have vote_eq := (trace_disk (d := s.node.disk) trace rfl rfl).2
        rcases (crashed pending).1 term last with null | own
        · exact Or.inl (vote_eq ▸ null)
        · exact Or.inr (Or.inl (vote_eq ▸ own))
  · rw [hist_eq] at mem
    rcases List.mem_append.mp mem with mem | mem
    · rw [seen_eq]
      exact (checked msg mem granted real).mono _
    · obtain ⟨other, justified⟩ := given msg mem
      rcases justified granted real with null | own | rests
      · exact absurd null other.1
      · exact absurd own other.2
      · exact rests

/-- In every run whose crashes are harmless, a vote is only given to a candidate
whose log was checked in that term. -/
theorem votes_checked {rc : RaftConfig} (nonnull : rc.me ≠ 0) {s : Life}
    (reachable : Reachable rc (Others rc) (Harmless rc) s) : VotesChecked s := by
  obtain ⟨flags, sm, run⟩ := reachable
  suffices Sound (fun addr => addr = rc.me) s ∧
      Rests rc s.seen s.node.solid.vote s.node.solid.term ∧ VotesChecked s from this.2.2
  induction run with
  | refl =>
      exact ⟨Sound.init (strict rc nonnull []).own_nonnull rfl flags sm, Or.inl rfl,
        fun msg mem => by contradiction⟩
  | tail _ step ih => exact VotesChecked.next nonnull ih.1 ih.2.1 ih.2.2 step

/-- After a crash that loses no vote, the request is repeated and granted. -/
def repeated : Option Life :=
  ((init voter ⟨false, false, false, {}⟩ false).moveUntil voter (ask 2) 1).move (ask 2)

theorem votes_checked_repeated :
    ∃ s, Reachable voter (Others voter) (Harmless voter) s ∧ Grants s.hist 2 1 ∧
      VotesChecked s := by
  have granted : repeated.any (fun s => decide (Grants s.hist 2 1)) = true := by decide +kernel
  obtain ⟨s, found, given⟩ := (Option.any_eq_true _ _).mp granted
  have harmless : Harmless voter
      (((init voter ⟨false, false, false, {}⟩ false).node.handle (ask 2)).node.effects.take 1)
      ((init voter ⟨false, false, false, {}⟩ false).node.disk.performAll
        (((init voter ⟨false, false, false, {}⟩ false).node.handle (ask 2)).node.effects.take 1)) := by
    refine ⟨fun term last => Or.inl rfl, fun recorded isLast => ?_⟩
    obtain rfl := Option.some.inj isLast
    rfl
  have one : (ask 2).Named (Others voter) := (by decide : Others voter 1)
  have crashStep : Step voter (Others voter) (Harmless voter) (init voter ⟨false, false, false, {}⟩ false)
      (moveUntil voter (init voter ⟨false, false, false, {}⟩ false) (ask 2) 1) :=
    .crash (ask 2) one _ (List.take_prefix 1 _) harmless _
  have reachable : Reachable voter (Others voter) (Harmless voter) s :=
    ⟨⟨false, false, false, {}⟩, false, .tail (.single crashStep) (step_of_move voter _ one found)⟩
  exact ⟨s, reachable, of_decide_eq_true given, votes_checked (by decide) reachable⟩

/-- A crash at the wrong moment lets a candidate win the vote of a node that has
found its log too old every time it asked in that term. -/
theorem not_votesChecked :
    ¬∀ (rc : RaftConfig) (s : Life), rc.me ≠ 0 → Reachable rc (Others rc) Anywhere s →
      VotesChecked s := by
  intro all
  obtain ⟨s, reachable, seen⟩ := stale_reachable (by decide : Others voter 1)
    (fun s => decide (.send (.requestVoteReply staleReply) ∈ s.hist ∧
      ¬Checked s.seen 1 3)) (by decide +kernel)
  obtain ⟨replied, unchecked⟩ := of_decide_eq_true seen
  exact unchecked (all voter s (by decide) reachable staleReply replied rfl rfl)

end Life

end Vraft
