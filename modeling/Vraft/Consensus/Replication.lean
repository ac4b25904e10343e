import Vraft.Consensus.Election

/-!
# Replication keeps the invariant

Extending a leader's log and acknowledging it raise counters of the current
term; truncating and following rewrite a follower's log.  With the voting
transitions this covers every transition, and so every run.
-/

namespace Consensus

universe u v

variable {N : Type u} {E : Type v} [DecidableEq N] {τ : E → ℕ} {qs : Quorums N} {s : State N E}

/-! ## Raising an acknowledgement

Extending a leader's log and acknowledging it both raise a counter of the
current term only, which no ballot on record depends on. -/

omit [DecidableEq N] in
/-- Ballots depend on acknowledgements of earlier terms alone, and these are
final once the voter has moved on. -/
theorem Endorsed.of_later {s' : State N E} (votes : VoteInv s) (acks : AckInv τ qs s)
    (ext : Extends s s') (led : s'.leader = s.leader) (logs : LogInv τ s)
    (final : ∀ {u p}, u < s.term p → s'.acked u p = s.acked u p) {t : ℕ} {p : N}
    {b : N × List E} {log : List E} (cast : s.ballot t p = some b)
    (endorsed : Endorsed s t p log) : Endorsed s' t p log := by
  intro u j before bound carried
  rw [final (before.trans_le (votes.ballot_le cast))] at bound
  by_cases vacant : s.leader u = none
  · have := acks.acked_le u p
    rw [logs.vacant vacant] at this
    obtain rfl : j = 0 := by
      simp at this
      omega
    simp
  · rw [ext.take_tlog vacant (bound.trans (acks.acked_le u p))] at carried ⊢
    refine endorsed u j before bound fun w after below held => ?_
    have := carried w after below (led ▸ held)
    rwa [ext.base held] at this

omit [DecidableEq N] in
/-- The parts of the acknowledgement invariant that survive any growth of the
current term's counters. -/
theorem AckInv.raise {s' : State N E} (inv : Inv τ qs s) (ext : Extends s s')
    (ballots : s'.ballot = s.ballot) (led : s'.leader = s.leader)
    (final : ∀ {u p}, u < s.term p → s'.acked u p = s.acked u p)
    (acked_le : ∀ t p, s'.acked t p ≤ (s'.tlog t).length)
    (acked_term : ∀ {t p}, 0 < s'.acked t p → t ≤ s'.term p)
    (kept : ∀ {t p j}, j ≤ s'.acked t p →
      (∀ w, t < w → w ≤ s'.term p → s'.leader w ≠ none → (s'.tlog t).take j <+: s'.base w) →
      (s'.tlog t).take j <+: s'.log p) : AckInv τ qs s' where
  acked_le := acked_le
  acked_term := acked_term
  kept := kept
  pending := by
    intro t p c log vacant h
    rw [led] at vacant
    rw [ballots] at h ⊢
    obtain ⟨endorsed, upToDate⟩ := inv.acks.pending vacant h
    exact ⟨endorsed.of_later inv.votes inv.acks ext led inv.logs final h, upToDate⟩
  elected := by
    intro t c hc
    rw [led] at hc
    obtain ⟨voters, quorum, evidence⟩ := inv.acks.elected hc
    refine ⟨voters, quorum, fun p mem => ?_⟩
    obtain ⟨log, h, endorsed, upToDate⟩ := evidence p mem
    rw [ballots, ext.base (by simp [hc])]
    exact ⟨log, h, endorsed.of_later inv.votes inv.acks ext led inv.logs final h, upToDate⟩

theorem LogInv.extend (logs : LogInv τ s) {c : N} {entry : E}
    (leads : s.leader (s.term c) = some c) (own : τ entry = s.term c)
    (ext : Extends s (s.extend c entry)) : LogInv τ (s.extend c entry) := by
  have log_eq := logs.leader_log leads rfl
  have tlog_self : (s.extend c entry).tlog (s.term c) = s.log c ++ [entry] := by
    simp [State.extend]
  have tlog_of_ne : ∀ {t}, t ≠ s.term c → (s.extend c entry).tlog t = s.tlog t := by
    intro t ne
    simp [State.extend, ne]
  have log_self : (s.extend c entry).log c = s.log c ++ [entry] := by simp [State.extend]
  have log_of_ne : ∀ {p}, p ≠ c → (s.extend c entry).log p = s.log p := by
    intro p ne
    simp [State.extend, ne]
  have genuine_self : Genuine τ (s.extend c entry) (s.log c ++ [entry]) := by
    intro k e at_k
    rcases Nat.lt_or_ge k (s.log c).length with lt | ge
    · rw [List.getElem?_append_left lt] at at_k
      obtain ⟨led, held⟩ := (logs.log_genuine c).mono ext k e at_k
      rw [List.take_append_of_le_length lt]
      exact ⟨led, held⟩
    · obtain ⟨rfl, rfl⟩ : k = (s.log c).length ∧ entry = e := by
        have lt := (List.getElem?_eq_some_iff.mp at_k).1
        rw [List.length_append, List.length_singleton] at lt
        obtain rfl : k = (s.log c).length := by omega
        simpa using at_k
      rw [own, tlog_self]
      refine ⟨by simp [State.extend, leads], List.take_prefix _ _⟩
  constructor
  case vacant =>
    intro t free
    have ne : t ≠ s.term c := by
      rintro rfl
      simp [State.extend, leads] at free
    rw [tlog_of_ne ne]
    exact logs.vacant free
  case base_tlog =>
    intro t led
    exact (logs.base_tlog led).trans (ext.tlog led)
  case base_lt => exact logs.base_lt
  case tlog_le =>
    intro t e mem
    by_cases same : t = s.term c
    · subst same
      rw [tlog_self, log_eq] at mem
      rcases List.mem_append.mp mem with mem | mem
      · exact logs.tlog_le mem
      · rw [List.mem_singleton.mp mem, own]
    · rw [tlog_of_ne same] at mem
      exact logs.tlog_le mem
  case tlog_genuine =>
    intro t
    by_cases same : t = s.term c
    · subst same
      rw [tlog_self]
      exact genuine_self
    · rw [tlog_of_ne same]
      exact (logs.tlog_genuine t).mono ext
  case log_genuine =>
    intro p
    by_cases same : p = c
    · subst same
      rw [log_self]
      exact genuine_self
    · rw [log_of_ne same]
      exact (logs.log_genuine p).mono ext
  case log_le =>
    intro p e mem
    by_cases same : p = c
    · subst same
      rw [log_self] at mem
      rcases List.mem_append.mp mem with mem | mem
      · exact logs.log_le mem
      · rw [List.mem_singleton.mp mem, own]
        exact le_rfl
    · rw [log_of_ne same] at mem
      exact logs.log_le mem
  case ballot_genuine => exact fun h => (logs.ballot_genuine h).mono ext
  case leader_le => exact logs.leader_le
  case leader_log =>
    intro t d led at_t
    change s.term d = t at at_t
    by_cases same : d = c
    · subst same at_t
      rw [log_self, tlog_self]
    · have ne : t ≠ s.term c := by
        rintro rfl
        rw [show (s.extend c entry).leader = s.leader from rfl, leads] at led
        exact same (Option.some.inj led).symm
      rw [log_of_ne same, tlog_of_ne ne]
      exact logs.leader_log led at_t
  case candidate_log =>
    intro t d log free h at_t
    change s.term d = t at at_t
    have ne : d ≠ c := by
      rintro rfl
      subst at_t
      simp [State.extend, leads] at free
    rw [log_of_ne ne]
    exact logs.candidate_log free h at_t

theorem Inv.extend (inv : Inv τ qs s) {c : N} {entry : E}
    (leads : s.leader (s.term c) = some c) (own : τ entry = s.term c) :
    Inv τ qs (s.extend c entry) := by
  have ext : Extends s (s.extend c entry) := extends_extend inv.logs inv.acks leads
  have log_eq := inv.logs.leader_log leads rfl
  have acked_of_ne : ∀ {t p}, ¬(t = s.term c ∧ p = c) →
      (s.extend c entry).acked t p = s.acked t p := by
    intro t p ne
    by_cases sameTerm : t = s.term c
    · subst sameTerm
      have : p ≠ c := fun same => ne ⟨rfl, same⟩
      simp [State.extend, this]
    · simp [State.extend, sameTerm]
  have acked_self : (s.extend c entry).acked (s.term c) c = (s.log c).length + 1 := by
    simp [State.extend]
  refine ⟨⟨inv.votes.ballot_le, inv.votes.vote_eq, inv.votes.stood⟩,
    inv.logs.extend leads own ext, ?_⟩
  refine AckInv.raise inv ext rfl rfl ?_ ?_ ?_ ?_
  · intro u p before
    refine acked_of_ne ?_
    rintro ⟨rfl, rfl⟩
    omega
  · intro t p
    by_cases both : t = s.term c ∧ p = c
    · obtain ⟨rfl, rfl⟩ := both
      rw [acked_self]
      simp [State.extend]
    · rw [acked_of_ne both]
      refine (inv.acks.acked_le t p).trans ?_
      by_cases vacant : s.leader t = none
      · simp [inv.logs.vacant vacant]
      · exact (ext.tlog vacant).length_le
  · intro t p positive
    by_cases both : t = s.term c ∧ p = c
    · obtain ⟨rfl, rfl⟩ := both
      exact le_rfl
    · rw [acked_of_ne both] at positive
      exact inv.acks.acked_term positive
  · intro t p j bound carried
    by_cases same : p = c
    · subst same
      by_cases sameTerm : t = s.term p
      · subst sameTerm
        simpa [State.extend] using List.take_prefix j (s.log p ++ [entry])
      · rw [acked_of_ne (by tauto)] at bound
        have same_tlog : (s.extend p entry).tlog t = s.tlog t := by
          simp [State.extend, sameTerm]
        rw [same_tlog] at carried ⊢
        exact (inv.acks.kept bound carried).trans (by simp [State.extend])
    · rw [acked_of_ne (by tauto)] at bound
      have same_log : (s.extend c entry).log p = s.log p := by simp [State.extend, same]
      rw [same_log]
      by_cases vacant : s.leader t = none
      · rw [inv.acked_vacant vacant] at bound
        obtain rfl : j = 0 := by omega
        simp
      · rw [ext.take_tlog vacant (bound.trans (inv.acks.acked_le t p))] at carried ⊢
        exact inv.acks.kept bound carried

theorem Inv.ack (inv : Inv τ qs s) {p : N} {count : ℕ}
    (limit : count ≤ (s.tlog (s.term p)).length)
    (holds : (s.tlog (s.term p)).take count <+: s.log p) : Inv τ qs (s.ack p count) := by
  have ext : Extends s (s.ack p count) := extends_ack
  have acked_of_ne : ∀ {t q}, ¬(t = s.term p ∧ q = p) →
      (s.ack p count).acked t q = s.acked t q := by
    intro t q ne
    by_cases sameTerm : t = s.term p
    · subst sameTerm
      have : q ≠ p := fun same => ne ⟨rfl, same⟩
      simp [State.ack, this]
    · simp [State.ack, sameTerm]
  have acked_self : (s.ack p count).acked (s.term p) p = max (s.acked (s.term p) p) count := by
    simp [State.ack]
  refine ⟨⟨inv.votes.ballot_le, inv.votes.vote_eq, inv.votes.stood⟩, ?_, ?_⟩
  · exact ⟨inv.logs.vacant, inv.logs.base_tlog, inv.logs.base_lt, inv.logs.tlog_le,
      inv.logs.tlog_genuine, inv.logs.log_genuine, inv.logs.log_le, inv.logs.ballot_genuine,
      inv.logs.leader_le, inv.logs.leader_log, inv.logs.candidate_log⟩
  refine AckInv.raise inv ext rfl rfl ?_ ?_ ?_ ?_
  · intro u q before
    refine acked_of_ne ?_
    rintro ⟨rfl, rfl⟩
    omega
  · intro t q
    by_cases both : t = s.term p ∧ q = p
    · obtain ⟨rfl, rfl⟩ := both
      rw [acked_self]
      exact max_le (inv.acks.acked_le _ _) limit
    · rw [acked_of_ne both]
      exact inv.acks.acked_le t q
  · intro t q positive
    by_cases both : t = s.term p ∧ q = p
    · obtain ⟨rfl, rfl⟩ := both
      exact le_rfl
    · rw [acked_of_ne both] at positive
      exact inv.acks.acked_term positive
  · intro t q j bound carried
    by_cases both : t = s.term p ∧ q = p
    · obtain ⟨rfl, rfl⟩ := both
      rw [acked_self] at bound
      rcases le_max_iff.mp bound with old | new
      · exact inv.acks.kept old carried
      · exact (List.take_prefix_take_left new).trans holds
    · rw [acked_of_ne both] at bound
      exact inv.acks.kept bound carried

/-! ## Rewriting a follower's log -/

theorem LogInv.setLog (logs : LogInv τ s) {p : N} {log : List E}
    (led : s.leader (s.term p) ≠ none) (follower : s.leader (s.term p) ≠ some p)
    (genuine : Genuine τ s log) (le : ∀ {entry}, entry ∈ log → τ entry ≤ s.term p) :
    LogInv τ (s.setLog p log) where
  vacant := logs.vacant
  base_tlog := logs.base_tlog
  base_lt := logs.base_lt
  tlog_le := logs.tlog_le
  tlog_genuine := logs.tlog_genuine
  log_genuine := by
    intro q
    by_cases same : q = p
    · subst same
      rw [show (s.setLog q log).log q = log by simp [State.setLog]]
      exact genuine
    · rw [show (s.setLog p log).log q = s.log q by simp [State.setLog, same]]
      exact logs.log_genuine q
  log_le := by
    intro q entry mem
    by_cases same : q = p
    · subst same
      exact le (by simpa [State.setLog] using mem)
    · exact logs.log_le (by simpa [State.setLog, same] using mem)
  ballot_genuine := logs.ballot_genuine
  leader_le := logs.leader_le
  leader_log := by
    intro t c hc at_t
    have ne : c ≠ p := by
      rintro rfl
      subst at_t
      exact follower hc
    simpa [State.setLog, ne] using logs.leader_log hc at_t
  candidate_log := by
    intro t c own free h at_t
    have ne : c ≠ p := by
      rintro rfl
      subst at_t
      exact led free
    simpa [State.setLog, ne] using logs.candidate_log free h at_t

/-- A follower may rewrite its log if it keeps every prefix that it shares with
the current leader. -/
theorem Inv.setLog (inv : Inv τ qs s) {p : N} {log : List E}
    (led : s.leader (s.term p) ≠ none) (follower : s.leader (s.term p) ≠ some p)
    (genuine : Genuine τ s log) (le : ∀ {entry}, entry ∈ log → τ entry ≤ s.term p)
    (keeps : ∀ {shared}, shared <+: s.log p → shared <+: s.tlog (s.term p) → shared <+: log) :
    Inv τ qs (s.setLog p log) := by
  refine ⟨⟨inv.votes.ballot_le, inv.votes.vote_eq, inv.votes.stood⟩,
    inv.logs.setLog led follower genuine le, ?_⟩
  refine ⟨inv.acks.acked_le, inv.acks.acked_term, ?_, inv.acks.pending, inv.acks.elected⟩
  intro t q j bound carried
  have held := inv.acks.kept bound carried
  by_cases same : q = p
  · subst same
    have shared : (s.tlog t).take j <+: s.tlog (s.term q) := by
      rcases Nat.eq_zero_or_pos j with rfl | positive
      · simp
      · rcases (inv.acks.acked_term (positive.trans_le bound)).lt_or_eq with before | rfl
        · exact (carried _ before le_rfl led).trans (inv.logs.base_tlog led)
        · exact List.take_prefix _ _
    simpa [State.setLog] using keeps held shared
  · simpa [State.setLog, same] using held

/-- A prefix shared by two lists ends before the first position where they
differ. -/
theorem prefix_take_of_conflict {shared first second : List E} (inFirst : shared <+: first)
    (inSecond : shared <+: second) {k : ℕ} {mine theirs : E} (mineAt : first[k]? = some mine)
    (theirsAt : second[k]? = some theirs) (conflict : mine ≠ theirs) :
    shared <+: first.take k := by
  have short : shared.length ≤ k := by
    by_contra long
    have lt : k < shared.length := by omega
    have at_first := List.prefix_iff_getElem?.mp inFirst k lt
    have at_second := List.prefix_iff_getElem?.mp inSecond k lt
    rw [mineAt] at at_first
    rw [theirsAt, ← at_first] at at_second
    exact conflict (Option.some.inj at_second).symm
  rw [List.prefix_iff_eq_take.mp inFirst]
  exact List.take_prefix_take_left short

omit [DecidableEq N] in
theorem Inv.led_of_tlog (inv : Inv τ qs s) {t : ℕ} (nonempty : s.tlog t ≠ []) :
    s.leader t ≠ none :=
  fun vacant => nonempty (inv.logs.vacant vacant)

theorem Inv.truncate (inv : Inv τ qs s) {p : N} {kept : ℕ} {mine theirs : E}
    (mineAt : (s.log p)[kept]? = some mine)
    (theirsAt : (s.tlog (s.term p))[kept]? = some theirs) (conflict : τ mine ≠ τ theirs) :
    Inv τ qs (s.setLog p ((s.log p).take kept)) := by
  have led : s.leader (s.term p) ≠ none := by
    refine inv.led_of_tlog fun empty => ?_
    simp [empty] at theirsAt
  have follower : s.leader (s.term p) ≠ some p := by
    intro leads
    rw [← inv.logs.leader_log leads rfl, mineAt] at theirsAt
    cases theirsAt
    exact conflict rfl
  refine inv.setLog led follower ((inv.logs.log_genuine p).take kept)
    (fun mem => inv.logs.log_le (List.mem_of_mem_take mem)) ?_
  intro shared inMine inTheirs
  exact prefix_take_of_conflict inMine inTheirs mineAt theirsAt
    fun same => conflict (congrArg τ same)

theorem Inv.follow (inv : Inv τ qs s) {p : N} {entry : E}
    (next : s.log p ++ [entry] <+: s.tlog (s.term p)) :
    Inv τ qs (s.setLog p (s.log p ++ [entry])) := by
  have led : s.leader (s.term p) ≠ none := by
    refine inv.led_of_tlog fun empty => ?_
    simp [empty] at next
  have follower : s.leader (s.term p) ≠ some p := by
    intro leads
    rw [← inv.logs.leader_log leads rfl] at next
    have := next.length_le
    simp at this
  refine inv.setLog led follower ((inv.logs.tlog_genuine _).of_initial next)
    (fun mem => inv.logs.tlog_le (next.subset mem)) ?_
  intro shared inMine _
  exact inMine.trans (List.prefix_append _ _)

/-! ## Runs -/

omit [DecidableEq N] in
theorem Inv.init (start : ℕ) : Inv τ qs (State.init start : State N E) where
  votes := ⟨by simp [State.init], by simp [State.init], by simp [State.init]⟩
  logs := by
    refine ⟨?_, ?_, ?_, ?_, ?_, ?_, ?_, ?_, ?_, ?_, ?_⟩ <;>
      simp [State.init, genuine_nil]
  acks := by
    refine ⟨?_, ?_, ?_, ?_, ?_⟩ <;> simp [State.init]

theorem Inv.step (inv : Inv τ qs s) {s' : State N E} (step : Step τ qs s s') : Inv τ qs s' := by
  cases step with
  | adopt p t later => exact inv.adopt later
  | stand p => exact inv.stand p
  | grant p c i t solicited free current => exact inv.grant solicited free current
  | elect c voters quorum granted vacant => exact inv.elect quorum granted vacant
  | extend c entry leads own => exact inv.extend leads own
  | truncate p kept mine theirs mineAt theirsAt conflict =>
      exact inv.truncate mineAt theirsAt conflict
  | follow p entry next => exact inv.follow next
  | ack p count bound holds => exact inv.ack bound holds

theorem Inv.steps (inv : Inv τ qs s) {s' : State N E} (steps : Steps τ qs s s') :
    Inv τ qs s' := by
  induction steps with
  | refl => exact inv
  | tail _ step ih => exact ih.step step

theorem Extends.of_step (inv : Inv τ qs s) {s' : State N E} (step : Step τ qs s s') :
    Extends s s' := by
  cases step with
  | adopt p t later => exact extends_adopt later
  | stand p =>
      have later : s.term p < s.term p + 1 := Nat.lt_succ_self _
      refine (extends_adopt later).trans (extends_cast ?_)
      simpa [State.adopt] using inv.votes.ballot_none later
  | grant p c i t solicited free current =>
      exact extends_cast (inv.votes.ballot_of_free free)
  | elect c voters quorum granted vacant => exact extends_elect vacant
  | extend c entry leads own => exact extends_extend inv.logs inv.acks leads
  | truncate p kept mine theirs mineAt theirsAt conflict => exact extends_setLog
  | follow p entry next => exact extends_setLog
  | ack p count bound holds => exact extends_ack

theorem Extends.of_steps (inv : Inv τ qs s) {s' : State N E} (steps : Steps τ qs s s') :
    Extends s s' := by
  induction steps with
  | refl => exact Extends.refl s
  | tail run step ih => exact ih.trans (Extends.of_step (inv.steps run) step)

end Consensus
