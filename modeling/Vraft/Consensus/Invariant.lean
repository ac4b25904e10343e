import Vraft.Consensus.State

/-!
# The protocol invariant

Three groups of facts are kept by every transition.  `VoteInv` ties the current
vote of a participant to the ballots on record.  `LogInv` says that every log is
genuine: an entry of term `t` at some position carries with it the whole prefix
of the log that the leader of `t` has built.  `AckInv` is the bookkeeping behind
commitment: what a participant has acknowledged stays in its log, and was in its
log whenever it voted later, unless a leader in between was elected without it.
-/

namespace Consensus

universe u v

variable {N : Type u} {E : Type v} {τ : E → ℕ} {qs : Quorums N} {s s' : State N E}

/-- Every entry of `log` comes with the prefix of its own term's log. -/
def Genuine (τ : E → ℕ) (s : State N E) (log : List E) : Prop :=
  ∀ k entry, log[k]? = some entry →
    s.leader (τ entry) ≠ none ∧ log.take (k + 1) <+: s.tlog (τ entry)

/-- Ballots are consistent with terms and votes, and a vote goes to somebody
who stood in that term. -/
structure VoteInv (s : State N E) : Prop where
  ballot_le : ∀ {t p b}, s.ballot t p = some b → t ≤ s.term p
  vote_eq : ∀ p, s.vote p = (s.ballot (s.term p) p).map Prod.fst
  stood : ∀ {t p c log}, s.ballot t p = some (c, log) → ∃ own, s.ballot t c = some (c, own)

/-- All logs are genuine, and a leader's log in its own term is the term's log. -/
structure LogInv (τ : E → ℕ) (s : State N E) : Prop where
  vacant : ∀ {t}, s.leader t = none → s.tlog t = []
  base_tlog : ∀ {t}, s.leader t ≠ none → s.base t <+: s.tlog t
  base_lt : ∀ {t entry}, s.leader t ≠ none → entry ∈ s.base t → τ entry < t
  tlog_le : ∀ {t entry}, entry ∈ s.tlog t → τ entry ≤ t
  tlog_genuine : ∀ t, Genuine τ s (s.tlog t)
  log_genuine : ∀ p, Genuine τ s (s.log p)
  log_le : ∀ {p entry}, entry ∈ s.log p → τ entry ≤ s.term p
  ballot_genuine : ∀ {t p c log}, s.ballot t p = some (c, log) → Genuine τ s log
  leader_le : ∀ {t c}, s.leader t = some c → t ≤ s.term c
  leader_log : ∀ {t c}, s.leader t = some c → s.term c = t → s.log c = s.tlog t
  candidate_log : ∀ {t c log}, s.leader t = none → s.ballot t c = some (c, log) →
    s.term c = t → s.log c = log

/-- Whatever `p` acknowledged before term `t` was in `log`, unless some leader
between lacks it. -/
def Endorsed (s : State N E) (t : ℕ) (p : N) (log : List E) : Prop :=
  ∀ u j, u < t → j ≤ s.acked u p →
    (∀ w, u < w → w < t → s.leader w ≠ none → (s.tlog u).take j <+: s.base w) →
    (s.tlog u).take j <+: log

/-- Acknowledged prefixes are kept, and elections carry the evidence that their
voters' logs were not ahead of the winner's. -/
structure AckInv (τ : E → ℕ) (qs : Quorums N) (s : State N E) : Prop where
  acked_le : ∀ t p, s.acked t p ≤ (s.tlog t).length
  acked_term : ∀ {t p}, 0 < s.acked t p → t ≤ s.term p
  kept : ∀ {t p j}, j ≤ s.acked t p →
    (∀ w, t < w → w ≤ s.term p → s.leader w ≠ none → (s.tlog t).take j <+: s.base w) →
    (s.tlog t).take j <+: s.log p
  pending : ∀ {t p c log}, s.leader t = none → s.ballot t p = some (c, log) →
    Endorsed s t p log ∧
      ∀ own, s.ballot t c = some (c, own) → AsUpToDate τ own.length (lastTerm τ own) log
  elected : ∀ {t c}, s.leader t = some c → ∃ voters, qs.vote voters ∧
    ∀ p ∈ voters, ∃ log, s.ballot t p = some (c, log) ∧ Endorsed s t p log ∧
      AsUpToDate τ (s.base t).length (lastTerm τ (s.base t)) log

/-- The invariant of the protocol. -/
structure Inv (τ : E → ℕ) (qs : Quorums N) (s : State N E) : Prop where
  votes : VoteInv s
  logs : LogInv τ s
  acks : AckInv τ qs s

/-! ## Genuine logs -/

theorem Genuine.mono {log : List E} (ext : Extends s s') (genuine : Genuine τ s log) :
    Genuine τ s' log := by
  intro k entry at_k
  obtain ⟨led, held⟩ := genuine k entry at_k
  exact ⟨ext.leader_ne led, held.trans (ext.tlog led)⟩

theorem Genuine.take {log : List E} (genuine : Genuine τ s log) (count : ℕ) :
    Genuine τ s (log.take count) := by
  intro k entry at_k
  rw [List.getElem?_take] at at_k
  split at at_k
  case isFalse => contradiction
  case isTrue lt =>
    obtain ⟨led, held⟩ := genuine k entry at_k
    refine ⟨led, ?_⟩
    rw [List.take_take, min_eq_left (by omega)]
    exact held

theorem Genuine.of_initial {log longer : List E} (genuine : Genuine τ s longer)
    (pre : log <+: longer) : Genuine τ s log := by
  rw [List.prefix_iff_eq_take.mp pre]
  exact genuine.take _

theorem genuine_nil : Genuine τ s [] := by
  intro k entry at_k
  simp at at_k

/-- A genuine log is a prefix of the log of its own last term. -/
theorem Genuine.prefix_lastTerm {log : List E} (genuine : Genuine τ s log) (nonempty : log ≠ []) :
    s.leader (lastTerm τ log) ≠ none ∧ log <+: s.tlog (lastTerm τ log) := by
  obtain ⟨init, last, rfl⟩ := (List.eq_nil_or_concat' log).resolve_left nonempty
  obtain ⟨led, held⟩ := genuine init.length last (by simp)
  rw [List.take_of_length_le (by simp)] at held
  rw [lastTerm_concat]
  exact ⟨led, held⟩

/-- Two genuine logs with entries of one term at one position agree up to it. -/
theorem Genuine.take_eq {first second : List E} (genuine₁ : Genuine τ s first)
    (genuine₂ : Genuine τ s second) {k : ℕ} {entry₁ entry₂ : E}
    (at₁ : first[k]? = some entry₁) (at₂ : second[k]? = some entry₂)
    (same : τ entry₁ = τ entry₂) : first.take (k + 1) = second.take (k + 1) := by
  obtain ⟨_, held₁⟩ := genuine₁ k entry₁ at₁
  obtain ⟨_, held₂⟩ := genuine₂ k entry₂ at₂
  rw [← same] at held₂
  have lt₁ := (List.getElem?_eq_some_iff.mp at₁).1
  have lt₂ := (List.getElem?_eq_some_iff.mp at₂).1
  have length_eq : (first.take (k + 1)).length = (second.take (k + 1)).length := by
    simp only [List.length_take]
    omega
  exact (List.prefix_of_prefix_length_le held₁ held₂ length_eq.le).eq_of_length length_eq

end Consensus
