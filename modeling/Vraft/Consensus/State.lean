import Mathlib

/-!
# Term-indexed replicated logs

An abstract account of leader-based log replication.  Every participant holds a
current term, a vote for that term and a log.  Beside these the state records
history that no participant can see as a whole: the ballots cast in each term
together with the voter's log at that moment, the leader of each term, the log
with which that leader was elected, the log it has built since, and how much of
it each participant has acknowledged.

The participants, the entries and the two quorum families are parameters.  The
only thing asked of the quorums is that they meet.
-/

namespace Consensus

universe u v

/-- Families of vote and acknowledgement quorums.  Two vote quorums meet, and a
vote quorum meets every acknowledgement quorum. -/
structure Quorums (N : Type u) where
  vote : Finset N → Prop
  ack : Finset N → Prop
  vote_meets_vote : ∀ {first second : Finset N}, vote first → vote second →
    ∃ member ∈ first, member ∈ second
  vote_meets_ack : ∀ {voters holders : Finset N}, vote voters → ack holders →
    ∃ member ∈ voters, member ∈ holders

/-- Participants' states together with the history of ballots, elections and
acknowledgements. -/
structure State (N : Type u) (E : Type v) where
  term : N → ℕ
  vote : N → Option N
  log : N → List E
  ballot : ℕ → N → Option (N × List E)
  leader : ℕ → Option N
  base : ℕ → List E
  tlog : ℕ → List E
  acked : ℕ → N → ℕ

section Logs

variable {E : Type v} (τ : E → ℕ)

/-- The term of the last entry, zero on an empty log. -/
def lastTerm (log : List E) : ℕ :=
  (log.getLast?).elim 0 τ

/-- A log that ends at `index` with an entry of `term` is at least as up to
date as `log`. -/
def AsUpToDate (index term : ℕ) (log : List E) : Prop :=
  lastTerm τ log < term ∨ lastTerm τ log = term ∧ log.length ≤ index

@[simp]
theorem lastTerm_nil : lastTerm τ ([] : List E) = 0 :=
  rfl

@[simp]
theorem lastTerm_concat (log : List E) (entry : E) :
    lastTerm τ (log ++ [entry]) = τ entry := by
  simp [lastTerm]

theorem asUpToDate_refl (log : List E) :
    AsUpToDate τ log.length (lastTerm τ log) log :=
  Or.inr ⟨rfl, le_rfl⟩

end Logs

namespace State

variable {N : Type u} {E : Type v} [DecidableEq N]

/-- Every participant in `start` with an empty log and no history. -/
def init (start : ℕ) : State N E where
  term _ := start
  vote _ := none
  log _ := []
  ballot _ _ := none
  leader _ := none
  base _ := []
  tlog _ := []
  acked _ _ := 0

/-- Move to a later term without voting. -/
def adopt (s : State N E) (p : N) (t : ℕ) : State N E :=
  { s with
    term := Function.update s.term p t
    vote := Function.update s.vote p none }

/-- Cast the ballot of `p` for `c` in `p`'s current term. -/
def cast (s : State N E) (p c : N) : State N E :=
  { s with
    vote := Function.update s.vote p (some c)
    ballot := Function.update s.ballot (s.term p)
      (Function.update (s.ballot (s.term p)) p (some (c, s.log p))) }

/-- Begin a candidacy: move to the next term and vote for oneself. -/
def stand (s : State N E) (p : N) : State N E :=
  (s.adopt p (s.term p + 1)).cast p p

/-- Record `c` as the leader of its current term. -/
def elect (s : State N E) (c : N) : State N E :=
  { s with
    leader := Function.update s.leader (s.term c) (some c)
    base := Function.update s.base (s.term c) (s.log c)
    tlog := Function.update s.tlog (s.term c) (s.log c) }

/-- A leader appends an entry to its own log. -/
def extend (s : State N E) (c : N) (entry : E) : State N E :=
  { s with
    log := Function.update s.log c (s.log c ++ [entry])
    tlog := Function.update s.tlog (s.term c) (s.log c ++ [entry])
    acked := Function.update s.acked (s.term c)
      (Function.update (s.acked (s.term c)) c (s.log c ++ [entry]).length) }

/-- Replace the log of one participant. -/
def setLog (s : State N E) (p : N) (log : List E) : State N E :=
  { s with log := Function.update s.log p log }

/-- Acknowledge the first `count` entries of the current leader's log. -/
def ack (s : State N E) (p : N) (count : ℕ) : State N E :=
  { s with
    acked := Function.update s.acked (s.term p)
      (Function.update (s.acked (s.term p)) p (max (s.acked (s.term p) p) count)) }

end State

variable {N : Type u} {E : Type v}

/-- A vote request of `c` in `term` carrying the end of its log.  Once the term
has a leader the request can no longer decide anything, and the carried
position is left unconstrained. -/
def Solicited (τ : E → ℕ) (s : State N E) (term : ℕ) (c : N) (lastIndex lastTerm' : ℕ) : Prop :=
  ∃ log, s.ballot term c = some (c, log) ∧
    (s.leader term = none → lastIndex = log.length ∧ lastTerm' = lastTerm τ log)

/-- One transition of the replicated-log protocol. -/
inductive Step [DecidableEq N] (τ : E → ℕ) (qs : Quorums N) (s : State N E) : State N E → Prop
  | adopt (p : N) (t : ℕ) (later : s.term p < t) : Step τ qs s (s.adopt p t)
  | stand (p : N) : Step τ qs s (s.stand p)
  | grant (p c : N) (lastIndex lastTerm' : ℕ)
      (solicited : Solicited τ s (s.term p) c lastIndex lastTerm')
      (free : s.vote p = none)
      (current : AsUpToDate τ lastIndex lastTerm' (s.log p)) :
      Step τ qs s (s.cast p c)
  | elect (c : N) (voters : Finset N) (quorum : qs.vote voters)
      (granted : ∀ p ∈ voters, ∃ log, s.ballot (s.term c) p = some (c, log))
      (vacant : s.leader (s.term c) = none) :
      Step τ qs s (s.elect c)
  | extend (c : N) (entry : E) (leads : s.leader (s.term c) = some c)
      (own : τ entry = s.term c) :
      Step τ qs s (s.extend c entry)
  | truncate (p : N) (kept : ℕ) (mine theirs : E)
      (mineAt : (s.log p)[kept]? = some mine)
      (theirsAt : (s.tlog (s.term p))[kept]? = some theirs)
      (conflict : τ mine ≠ τ theirs) :
      Step τ qs s (s.setLog p ((s.log p).take kept))
  | follow (p : N) (entry : E)
      (next : s.log p ++ [entry] <+: s.tlog (s.term p)) :
      Step τ qs s (s.setLog p (s.log p ++ [entry]))
  | ack (p : N) (count : ℕ) (bound : count ≤ (s.tlog (s.term p)).length)
      (holds : (s.tlog (s.term p)).take count <+: s.log p) :
      Step τ qs s (s.ack p count)

/-- Any number of transitions. -/
abbrev Steps [DecidableEq N] (τ : E → ℕ) (qs : Quorums N) : State N E → State N E → Prop :=
  Relation.ReflTransGen (Step τ qs)

/-! ## What a transition leaves in place -/

/-- The recorded history of `after` continues that of `before`. -/
structure Extends (before after : State N E) : Prop where
  ballot : ∀ {t p b}, before.ballot t p = some b → after.ballot t p = some b
  leader : ∀ {t c}, before.leader t = some c → after.leader t = some c
  base : ∀ {t}, before.leader t ≠ none → after.base t = before.base t
  tlog : ∀ {t}, before.leader t ≠ none → before.tlog t <+: after.tlog t
  acked : ∀ {t p}, before.acked t p ≤ after.acked t p
  term : ∀ {p}, before.term p ≤ after.term p

namespace Extends

theorem refl (s : State N E) : Extends s s where
  ballot := id
  leader := id
  base _ := rfl
  tlog _ := List.prefix_rfl
  acked := le_rfl
  term := le_rfl

theorem leader_ne {s s' : State N E} (ext : Extends s s') {t : ℕ}
    (led : s.leader t ≠ none) : s'.leader t ≠ none := by
  obtain ⟨c, hc⟩ := Option.ne_none_iff_exists'.mp led
  rw [ext.leader hc]
  simp

theorem trans {s s' s'' : State N E} (first : Extends s s') (second : Extends s' s'') :
    Extends s s'' where
  ballot h := second.ballot (first.ballot h)
  leader h := second.leader (first.leader h)
  base h := (second.base (first.leader_ne h)).trans (first.base h)
  tlog h := (first.tlog h).trans (second.tlog (first.leader_ne h))
  acked := first.acked.trans second.acked
  term := first.term.trans second.term

/-- A prefix of a term's log keeps its contents. -/
theorem take_tlog {s s' : State N E} (ext : Extends s s') {t count : ℕ}
    (led : s.leader t ≠ none) (bound : count ≤ (s.tlog t).length) :
    (s'.tlog t).take count = (s.tlog t).take count := by
  obtain ⟨rest, hrest⟩ := ext.tlog led
  rw [← hrest, List.take_append_of_le_length bound]

end Extends

end Consensus
