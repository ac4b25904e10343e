import Vraft.Consensus.Invariant

/-!
# Voting and elections keep the invariant

Adopting a term and casting a ballot only touch votes.  An election fixes the
base of a term's log; until then no log holds an entry of the term, so nothing
on record depends on it.
-/

namespace Consensus

universe u v

variable {N : Type u} {E : Type v} [DecidableEq N] {τ : E → ℕ} {qs : Quorums N} {s : State N E}

/-! ## History only grows -/

theorem extends_adopt {p : N} {t : ℕ} (later : s.term p < t) : Extends s (s.adopt p t) where
  ballot := id
  leader := id
  base _ := rfl
  tlog _ := List.prefix_rfl
  acked := le_rfl
  term := by
    intro q
    by_cases same : q = p
    · subst same
      simpa [State.adopt] using later.le
    · simp [State.adopt, same]

theorem extends_cast {p c : N} (fresh : s.ballot (s.term p) p = none) :
    Extends s (s.cast p c) where
  ballot := by
    intro t q b hb
    by_cases sameTerm : t = s.term p
    · subst sameTerm
      by_cases same : q = p
      · subst same
        rw [fresh] at hb
        contradiction
      · simpa [State.cast, same] using hb
    · simpa [State.cast, sameTerm] using hb
  leader := id
  base _ := rfl
  tlog _ := List.prefix_rfl
  acked := le_rfl
  term := le_rfl

omit [DecidableEq N] in
theorem extends_elect {c : N} (vacant : s.leader (s.term c) = none) : Extends s (s.elect c) where
  ballot := id
  leader := by
    intro t d led
    have ne : t ≠ s.term c := by
      rintro rfl
      rw [vacant] at led
      contradiction
    simpa [State.elect, ne] using led
  base := by
    intro t led
    have ne : t ≠ s.term c := fun same => led (same ▸ vacant)
    simp [State.elect, ne]
  tlog := by
    intro t led
    have ne : t ≠ s.term c := fun same => led (same ▸ vacant)
    simp [State.elect, ne]
  acked := le_rfl
  term := le_rfl

theorem extends_extend (logs : LogInv τ s) (acks : AckInv τ qs s) {c : N} {entry : E}
    (leads : s.leader (s.term c) = some c) : Extends s (s.extend c entry) where
  ballot := id
  leader := id
  base _ := rfl
  tlog := by
    intro t _
    by_cases same : t = s.term c
    · subst same
      rw [← logs.leader_log leads rfl]
      simp [State.extend]
    · simp [State.extend, same]
  acked := by
    intro t p
    by_cases sameTerm : t = s.term c
    · subst sameTerm
      by_cases same : p = c
      · subst same
        have bound := acks.acked_le (s.term p) p
        rw [← logs.leader_log leads rfl] at bound
        simp only [State.extend, Function.update_self, List.length_append, List.length_cons,
          List.length_nil]
        omega
      · simp [State.extend, same]
    · simp [State.extend, sameTerm]
  term := le_rfl

theorem extends_setLog {p : N} {log : List E} : Extends s (s.setLog p log) where
  ballot := id
  leader := id
  base _ := rfl
  tlog _ := List.prefix_rfl
  acked := le_rfl
  term := le_rfl

theorem extends_ack {p : N} {count : ℕ} : Extends s (s.ack p count) where
  ballot := id
  leader := id
  base _ := rfl
  tlog _ := List.prefix_rfl
  acked := by
    intro t q
    by_cases sameTerm : t = s.term p
    · subst sameTerm
      by_cases same : q = p
      · subst same
        simp [State.ack]
      · simp [State.ack, same]
    · simp [State.ack, sameTerm]
  term := le_rfl

/-! ## Adopting a later term -/

omit [DecidableEq N] in
theorem VoteInv.ballot_none (votes : VoteInv s) {p : N} {t : ℕ} (later : s.term p < t) :
    s.ballot t p = none := by
  cases h : s.ballot t p with
  | none => rfl
  | some b =>
      have := votes.ballot_le h
      omega

theorem Inv.adopt (inv : Inv τ qs s) {p : N} {t : ℕ} (later : s.term p < t) :
    Inv τ qs (s.adopt p t) := by
  have grow : ∀ q, s.term q ≤ (s.adopt p t).term q := fun q => (extends_adopt later).term
  have moved : ∀ {q u}, (s.adopt p t).term q = u → q ≠ p → s.term q = u := by
    intro q u h ne
    simpa [State.adopt, ne] using h
  refine ⟨?_, ?_, ?_⟩
  · refine ⟨fun h => (inv.votes.ballot_le h).trans (grow _), ?_, inv.votes.stood⟩
    intro q
    by_cases same : q = p
    · subst same
      simp [State.adopt, inv.votes.ballot_none later]
    · simpa [State.adopt, same] using inv.votes.vote_eq q
  · refine ⟨inv.logs.vacant, inv.logs.base_tlog, inv.logs.base_lt, inv.logs.tlog_le,
      fun u => (inv.logs.tlog_genuine u).mono (extends_adopt later),
      fun q => (inv.logs.log_genuine q).mono (extends_adopt later),
      fun h => (inv.logs.log_le h).trans (grow _),
      fun h => (inv.logs.ballot_genuine h).mono (extends_adopt later),
      fun h => (inv.logs.leader_le h).trans (grow _), ?_, ?_⟩
    · intro u c led at_u
      by_cases same : c = p
      · subst same
        have := inv.logs.leader_le led
        have : u = t := by simpa [State.adopt] using at_u.symm
        omega
      · exact inv.logs.leader_log led (moved at_u same)
    · intro u c log free cast at_u
      by_cases same : c = p
      · subst same
        have := inv.votes.ballot_le cast
        have : u = t := by simpa [State.adopt] using at_u.symm
        omega
      · exact inv.logs.candidate_log free cast (moved at_u same)
  · refine ⟨inv.acks.acked_le, fun h => (inv.acks.acked_term h).trans (grow _), ?_,
      inv.acks.pending, inv.acks.elected⟩
    intro u q j bound carried
    exact inv.acks.kept bound fun w after before => carried w after (before.trans (grow q))

/-! ## Casting a ballot -/

/-- The ballots after `p` voted are the earlier ones and the new one. -/
theorem ballot_cast {p c : N} {t : ℕ} {q : N} {b : N × List E}
    (h : (s.cast p c).ballot t q = some b) :
    t = s.term p ∧ q = p ∧ b = (c, s.log p) ∨ s.ballot t q = some b := by
  by_cases sameTerm : t = s.term p
  · subst sameTerm
    by_cases same : q = p
    · subst same
      left
      simpa [State.cast, eq_comm] using h
    · right
      simpa [State.cast, same] using h
  · right
    simpa [State.cast, sameTerm] using h

@[simp]
theorem ballot_cast_self {p c : N} :
    (s.cast p c).ballot (s.term p) p = some (c, s.log p) := by
  simp [State.cast]

theorem VoteInv.cast (votes : VoteInv s) {p c : N} (fresh : s.ballot (s.term p) p = none)
    (stood : c = p ∨ ∃ own, s.ballot (s.term p) c = some (c, own)) :
    VoteInv (s.cast p c) where
  ballot_le := by
    intro t q b h
    rcases ballot_cast h with ⟨rfl, rfl, -⟩ | h
    · exact le_rfl
    · exact votes.ballot_le h
  vote_eq := by
    intro q
    by_cases same : q = p
    · subst same
      simp [State.cast]
    · by_cases sameTerm : s.term q = s.term p
      · simpa [State.cast, same, sameTerm] using votes.vote_eq q
      · simpa [State.cast, same, sameTerm] using votes.vote_eq q
  stood := by
    intro t q d log h
    rcases ballot_cast h with ⟨rfl, rfl, hb⟩ | h
    · cases hb
      rcases stood with rfl | ⟨own, hown⟩
      · exact ⟨_, ballot_cast_self⟩
      · exact ⟨own, (extends_cast fresh).ballot hown⟩
    · obtain ⟨own, hown⟩ := votes.stood h
      exact ⟨own, (extends_cast fresh).ballot hown⟩

theorem LogInv.cast (logs : LogInv τ s) {p c : N} (fresh : s.ballot (s.term p) p = none) :
    LogInv τ (s.cast p c) where
  vacant := logs.vacant
  base_tlog := logs.base_tlog
  base_lt := logs.base_lt
  tlog_le := logs.tlog_le
  tlog_genuine t := (logs.tlog_genuine t).mono (extends_cast fresh)
  log_genuine q := (logs.log_genuine q).mono (extends_cast fresh)
  log_le := logs.log_le
  ballot_genuine := by
    intro t q d log h
    rcases ballot_cast h with ⟨-, -, hb⟩ | h
    · cases hb
      exact (logs.log_genuine p).mono (extends_cast fresh)
    · exact (logs.ballot_genuine h).mono (extends_cast fresh)
  leader_le := logs.leader_le
  leader_log := logs.leader_log
  candidate_log := by
    intro t d log free h at_t
    rcases ballot_cast h with ⟨-, rfl, hb⟩ | h
    · cases hb
      rfl
    · exact logs.candidate_log free h at_t

omit [DecidableEq N] in
/-- What `p` acknowledged is in the log it votes with. -/
theorem AckInv.endorsed_log (acks : AckInv τ qs s) {p : N}
    (vacant : s.leader (s.term p) = none) : Endorsed s (s.term p) p (s.log p) := by
  intro u j _ bound carried
  refine acks.kept bound fun w after before led => ?_
  rcases before.lt_or_eq with before | rfl
  · exact carried w after before led
  · exact absurd vacant led

theorem AckInv.cast (acks : AckInv τ qs s) (votes : VoteInv s) {p c : N}
    (fresh : s.ballot (s.term p) p = none)
    (current : c = p ∨ ∃ own, s.ballot (s.term p) c = some (c, own) ∧
      (s.leader (s.term p) = none → AsUpToDate τ own.length (lastTerm τ own) (s.log p))) :
    AckInv τ qs (s.cast p c) where
  acked_le := acks.acked_le
  acked_term := acks.acked_term
  kept := acks.kept
  pending := by
    intro t q d log vacant h
    rcases ballot_cast h with ⟨rfl, rfl, hb⟩ | h
    · cases hb
      refine ⟨acks.endorsed_log vacant, ?_⟩
      intro own hown
      rcases current with rfl | ⟨own', hown', upToDate⟩
      · obtain rfl : s.log c = own := by simpa using hown
        exact asUpToDate_refl τ _
      · have recorded := (extends_cast (c := c) fresh).ballot hown'
        rw [recorded] at hown
        cases hown
        exact upToDate vacant
    · obtain ⟨endorsed, upToDate⟩ := acks.pending vacant h
      refine ⟨endorsed, ?_⟩
      intro own hown
      obtain ⟨own', hown'⟩ := votes.stood h
      rw [(extends_cast fresh).ballot hown'] at hown
      cases hown
      exact upToDate _ hown'
  elected := by
    intro t d led
    obtain ⟨voters, quorum, evidence⟩ := acks.elected led
    refine ⟨voters, quorum, fun q mem => ?_⟩
    obtain ⟨log, h, endorsed, upToDate⟩ := evidence q mem
    exact ⟨log, (extends_cast fresh).ballot h, endorsed, upToDate⟩

theorem Inv.cast (inv : Inv τ qs s) {p c : N} (fresh : s.ballot (s.term p) p = none)
    (current : c = p ∨ ∃ own, s.ballot (s.term p) c = some (c, own) ∧
      (s.leader (s.term p) = none → AsUpToDate τ own.length (lastTerm τ own) (s.log p))) :
    Inv τ qs (s.cast p c) where
  votes := inv.votes.cast fresh (current.imp id fun ⟨own, hown, _⟩ => ⟨own, hown⟩)
  logs := inv.logs.cast fresh
  acks := inv.acks.cast inv.votes fresh current

theorem Inv.stand (inv : Inv τ qs s) (p : N) : Inv τ qs (s.stand p) := by
  have later : s.term p < s.term p + 1 := Nat.lt_succ_self _
  refine (inv.adopt later).cast ?_ (Or.inl rfl)
  simpa [State.adopt] using inv.votes.ballot_none later

omit [DecidableEq N] in
theorem VoteInv.ballot_of_free (votes : VoteInv s) {p : N} (free : s.vote p = none) :
    s.ballot (s.term p) p = none := by
  rw [votes.vote_eq p] at free
  exact Option.map_eq_none_iff.mp free

theorem Inv.grant (inv : Inv τ qs s) {p c : N} {lastIndex lastTerm' : ℕ}
    (solicited : Solicited τ s (s.term p) c lastIndex lastTerm') (free : s.vote p = none)
    (current : AsUpToDate τ lastIndex lastTerm' (s.log p)) : Inv τ qs (s.cast p c) := by
  obtain ⟨own, hown, position⟩ := solicited
  refine inv.cast (inv.votes.ballot_of_free free) (Or.inr ⟨own, hown, fun vacant => ?_⟩)
  obtain ⟨rfl, rfl⟩ := position vacant
  exact current

/-! ## Electing a leader -/

section Elect

omit [DecidableEq N]

variable {c : N} {t : ℕ}

theorem elect_leader_self : (s.elect c).leader (s.term c) = some c := by
  simp [State.elect]

theorem elect_base_self : (s.elect c).base (s.term c) = s.log c := by
  simp [State.elect]

theorem elect_tlog_self : (s.elect c).tlog (s.term c) = s.log c := by
  simp [State.elect]

theorem elect_leader_of_ne (ne : t ≠ s.term c) : (s.elect c).leader t = s.leader t := by
  simp [State.elect, ne]

theorem elect_base_of_ne (ne : t ≠ s.term c) : (s.elect c).base t = s.base t := by
  simp [State.elect, ne]

theorem elect_tlog_of_ne (ne : t ≠ s.term c) : (s.elect c).tlog t = s.tlog t := by
  simp [State.elect, ne]

/-- Terms that are still vacant after an election are not the elected one. -/
theorem ne_of_elect_vacant (free : (s.elect c).leader t = none) : t ≠ s.term c := by
  rintro rfl
  rw [elect_leader_self] at free
  contradiction

/-- While a term is vacant no log holds an entry of it. -/
theorem LogInv.log_lt_of_vacant (logs : LogInv τ s) {p : N} {entry : E}
    (vacant : s.leader (s.term p) = none) (mem : entry ∈ s.log p) : τ entry < s.term p := by
  obtain ⟨k, hk⟩ := List.getElem?_of_mem mem
  have led := (logs.log_genuine p k entry hk).1
  exact lt_of_le_of_ne (logs.log_le mem) fun same => led (same ▸ vacant)

theorem LogInv.elect (logs : LogInv τ s) (vacant : s.leader (s.term c) = none) :
    LogInv τ (s.elect c) where
  vacant := by
    intro t free
    have ne := ne_of_elect_vacant free
    rw [elect_leader_of_ne ne] at free
    rw [elect_tlog_of_ne ne]
    exact logs.vacant free
  base_tlog := by
    intro t led
    by_cases same : t = s.term c
    · subst same
      rw [elect_base_self, elect_tlog_self]
    · rw [elect_leader_of_ne same] at led
      rw [elect_base_of_ne same, elect_tlog_of_ne same]
      exact logs.base_tlog led
  base_lt := by
    intro t entry led mem
    by_cases same : t = s.term c
    · subst same
      rw [elect_base_self] at mem
      exact logs.log_lt_of_vacant vacant mem
    · rw [elect_leader_of_ne same] at led
      rw [elect_base_of_ne same] at mem
      exact logs.base_lt led mem
  tlog_le := by
    intro t entry mem
    by_cases same : t = s.term c
    · subst same
      rw [elect_tlog_self] at mem
      exact (logs.log_lt_of_vacant vacant mem).le
    · rw [elect_tlog_of_ne same] at mem
      exact logs.tlog_le mem
  tlog_genuine := by
    intro t
    by_cases same : t = s.term c
    · subst same
      rw [elect_tlog_self]
      exact (logs.log_genuine c).mono (extends_elect vacant)
    · rw [elect_tlog_of_ne same]
      exact (logs.tlog_genuine t).mono (extends_elect vacant)
  log_genuine p := (logs.log_genuine p).mono (extends_elect vacant)
  log_le := logs.log_le
  ballot_genuine h := (logs.ballot_genuine h).mono (extends_elect vacant)
  leader_le := by
    intro t d led
    by_cases same : t = s.term c
    · subst same
      obtain rfl : c = d := by simpa [elect_leader_self] using led
      exact le_rfl
    · rw [elect_leader_of_ne same] at led
      exact logs.leader_le led
  leader_log := by
    intro t d led at_t
    by_cases same : t = s.term c
    · subst same
      obtain rfl : c = d := by simpa [elect_leader_self] using led
      exact (elect_tlog_self (s := s)).symm
    · rw [elect_leader_of_ne same] at led
      rw [elect_tlog_of_ne same]
      exact logs.leader_log led at_t
  candidate_log := by
    intro t d log free h at_t
    rw [elect_leader_of_ne (ne_of_elect_vacant free)] at free
    exact logs.candidate_log free h at_t

/-- Nothing has been acknowledged in a term without a leader. -/
theorem Inv.acked_vacant (inv : Inv τ qs s) (vacant : s.leader t = none) (p : N) :
    s.acked t p = 0 := by
  have bound := inv.acks.acked_le t p
  rw [inv.logs.vacant vacant] at bound
  simpa using bound

/-- The prefixes that `carried` speaks about are the same before and after an
election, whose own term has no acknowledgements yet. -/
theorem Inv.take_elect (inv : Inv τ qs s) (vacant : s.leader (s.term c) = none) {p : N} {j : ℕ}
    (bound : j ≤ s.acked t p) : ((s.elect c).tlog t).take j = (s.tlog t).take j := by
  by_cases same : t = s.term c
  · subst same
    rw [inv.acked_vacant vacant] at bound
    obtain rfl : j = 0 := by omega
    rfl
  · rw [elect_tlog_of_ne same]

theorem Inv.endorsed_elect (inv : Inv τ qs s) (vacant : s.leader (s.term c) = none) {p : N}
    {log : List E} (endorsed : Endorsed s t p log) : Endorsed (s.elect c) t p log := by
  intro u j before bound carried
  rw [inv.take_elect vacant bound] at carried ⊢
  refine endorsed u j before bound fun w after below led => ?_
  have held := carried w after below ((extends_elect vacant).leader_ne led)
  rwa [(extends_elect vacant).base led] at held

theorem Inv.elect (inv : Inv τ qs s) {voters : Finset N} (quorum : qs.vote voters)
    (granted : ∀ p ∈ voters, ∃ log, s.ballot (s.term c) p = some (c, log))
    (vacant : s.leader (s.term c) = none) : Inv τ qs (s.elect c) := by
  refine ⟨⟨inv.votes.ballot_le, inv.votes.vote_eq, inv.votes.stood⟩, inv.logs.elect vacant, ?_⟩
  constructor
  case acked_le =>
    intro t p
    by_cases same : t = s.term c
    · subst same
      exact (inv.acked_vacant vacant p).le.trans (Nat.zero_le _)
    · rw [elect_tlog_of_ne same]
      exact inv.acks.acked_le t p
  case acked_term => exact inv.acks.acked_term
  case kept =>
    intro t p j bound carried
    rw [inv.take_elect vacant bound] at carried ⊢
    refine inv.acks.kept bound fun w after below led => ?_
    have held := carried w after below ((extends_elect vacant).leader_ne led)
    rwa [(extends_elect vacant).base led] at held
  case pending =>
    intro t p d log free h
    rw [elect_leader_of_ne (ne_of_elect_vacant free)] at free
    obtain ⟨endorsed, upToDate⟩ := inv.acks.pending free h
    exact ⟨inv.endorsed_elect vacant endorsed, upToDate⟩
  case elected =>
    intro t d led
    by_cases same : t = s.term c
    · subst same
      obtain rfl : c = d := by simpa [elect_leader_self] using led
      refine ⟨voters, quorum, fun p mem => ?_⟩
      obtain ⟨log, h⟩ := granted p mem
      obtain ⟨endorsed, upToDate⟩ := inv.acks.pending vacant h
      obtain ⟨own, hown⟩ := inv.votes.stood h
      refine ⟨log, h, inv.endorsed_elect vacant endorsed, ?_⟩
      rw [elect_base_self, inv.logs.candidate_log vacant hown rfl]
      exact upToDate own hown
    · rw [elect_leader_of_ne same] at led
      obtain ⟨voters', quorum', evidence⟩ := inv.acks.elected led
      refine ⟨voters', quorum', fun p mem => ?_⟩
      obtain ⟨log, h, endorsed, upToDate⟩ := evidence p mem
      refine ⟨log, h, inv.endorsed_elect vacant endorsed, ?_⟩
      rwa [elect_base_of_ne same]

end Elect

end Consensus
