import Vraft.Consensus.Replication

/-!
# Leader completeness and committed prefixes

An index is chosen in a term when an acknowledgement quorum holds the term's log
up to it and the entry there belongs to that term.  Every later leader was
elected with a log that contains the chosen prefix, so a prefix that somebody
may rely on is never rewritten, and any two of them agree.
-/

namespace Consensus

universe u v

variable {N : Type u} {E : Type v} {τ : E → ℕ} {qs : Quorums N} {s s' : State N E}

/-- The first `count` entries of the log of term `t` are chosen. -/
def Chosen (τ : E → ℕ) (qs : Quorums N) (s : State N E) (t count : ℕ) : Prop :=
  (∃ entry, 0 < count ∧ (s.tlog t)[count - 1]? = some entry ∧ τ entry = t) ∧
    ∃ holders, qs.ack holders ∧ ∀ p ∈ holders, count ≤ s.acked t p

/-- The first `count` entries of `p`'s log are settled: they are part of a
prefix chosen no later than `p`'s current term. -/
def Committed (τ : E → ℕ) (qs : Quorums N) (s : State N E) (p : N) (count : ℕ) : Prop :=
  count = 0 ∨ ∃ t chosen, Chosen τ qs s t chosen ∧ count ≤ chosen ∧ t ≤ s.term p ∧
    (s.tlog t).take count <+: s.log p

theorem Chosen.length_le {t count : ℕ} (chosen : Chosen τ qs s t count) :
    count ≤ (s.tlog t).length := by
  obtain ⟨⟨entry, positive, at_last, -⟩, -⟩ := chosen
  have := (List.getElem?_eq_some_iff.mp at_last).1
  omega

theorem Chosen.led (inv : Inv τ qs s) {t count : ℕ} (chosen : Chosen τ qs s t count) :
    s.leader t ≠ none := by
  refine inv.led_of_tlog fun empty => ?_
  obtain ⟨⟨entry, _, at_last, _⟩, _⟩ := chosen
  simp [empty] at at_last

theorem Chosen.mono (inv : Inv τ qs s) (ext : Extends s s') {t count : ℕ}
    (chosen : Chosen τ qs s t count) : Chosen τ qs s' t count := by
  have led := chosen.led inv
  obtain ⟨⟨entry, positive, at_last, own⟩, holders, quorum, held⟩ := chosen
  refine ⟨⟨entry, positive, ?_, own⟩, holders, quorum,
    fun p mem => (held p mem).trans ext.acked⟩
  have lt := (List.getElem?_eq_some_iff.mp at_last).1
  obtain ⟨rest, hrest⟩ := ext.tlog led
  rw [← hrest, List.getElem?_append_left lt]
  exact at_last

/-- A leader's base log is at least as up to date as a log holding the chosen
prefix, so it holds the chosen prefix itself. -/
theorem Chosen.prefix_of_upToDate (inv : Inv τ qs s) {t count later : ℕ} {log : List E}
    (chosen : Chosen τ qs s t count) (led : s.leader later ≠ none)
    (between : ∀ w, t < w → w < later → s.leader w ≠ none →
      (s.tlog t).take count <+: s.base w)
    (genuine : Genuine τ s log) (held : (s.tlog t).take count <+: log)
    (upToDate : AsUpToDate τ (s.base later).length (lastTerm τ (s.base later)) log) :
    (s.tlog t).take count <+: s.base later := by
  have length_le := chosen.length_le
  obtain ⟨⟨entry, positive, at_last, own⟩, -⟩ := chosen
  have at_log : log[count - 1]? = some entry := by
    have lt : count - 1 < ((s.tlog t).take count).length := by
      rw [List.length_take]
      omega
    rw [List.prefix_iff_getElem?.mp held _ lt, ← at_last, ← List.getElem?_eq_getElem lt,
      List.getElem?_take_of_lt (by omega)]
  have nonempty : log ≠ [] := by
    rintro rfl
    simp at at_log
  obtain ⟨-, log_tlog⟩ := genuine.prefix_lastTerm nonempty
  have t_le : t ≤ lastTerm τ log := by
    rw [← own]
    exact inv.logs.tlog_le (log_tlog.subset (List.mem_of_getElem? at_log))
  have base_genuine : Genuine τ s (s.base later) :=
    (inv.logs.tlog_genuine later).of_initial (inv.logs.base_tlog led)
  have base_nonempty : s.base later ≠ [] := by
    intro empty
    rcases upToDate with lt | ⟨-, le⟩
    · rw [empty, lastTerm_nil] at lt
      exact Nat.not_lt_zero _ lt
    · simp [empty] at le
      exact nonempty le
  obtain ⟨base_led, base_tlog⟩ := base_genuine.prefix_lastTerm base_nonempty
  rcases upToDate with newer | ⟨same, longer⟩
  · set w := lastTerm τ (s.base later) with hw
    have w_lt : w < later := by
      obtain ⟨init, last, split⟩ := (List.eq_nil_or_concat' _).resolve_left base_nonempty
      rw [hw, split, lastTerm_concat]
      exact inv.logs.base_lt led (by simp [split])
    have base_w := between w (by omega) w_lt base_led
    refine base_w.trans (List.prefix_of_prefix_length_le (inv.logs.base_tlog base_led)
      base_tlog ?_)
    by_contra shorter
    obtain ⟨init, last, split⟩ := (List.eq_nil_or_concat' _).resolve_left base_nonempty
    have inside : s.base later <+: s.base w :=
      List.prefix_of_prefix_length_le base_tlog (inv.logs.base_tlog base_led) (by omega)
    have last_lt := inv.logs.base_lt base_led
      (inside.subset (show last ∈ s.base later by simp [split]))
    rw [hw, split, lastTerm_concat] at last_lt
    omega
  · rw [← same] at base_tlog
    exact held.trans (List.prefix_of_prefix_length_le log_tlog base_tlog longer)

/-- Leader completeness: the base log of every later leader holds what was
chosen before. -/
theorem Chosen.prefix_base (inv : Inv τ qs s) {t count : ℕ} (chosen : Chosen τ qs s t count)
    {later : ℕ} (after : t < later) (led : s.leader later ≠ none) :
    (s.tlog t).take count <+: s.base later := by
  induction later using Nat.strong_induction_on with
  | _ later ih =>
      obtain ⟨c, hc⟩ := Option.ne_none_iff_exists'.mp led
      obtain ⟨voters, voteQuorum, evidence⟩ := inv.acks.elected hc
      obtain ⟨-, holders, ackQuorum, held⟩ := id chosen
      obtain ⟨p, voted, holds⟩ := qs.vote_meets_ack voteQuorum ackQuorum
      obtain ⟨log, cast, endorsed, upToDate⟩ := evidence p voted
      have between : ∀ w, t < w → w < later → s.leader w ≠ none →
          (s.tlog t).take count <+: s.base w :=
        fun w above below ledW => ih w below above ledW
      exact chosen.prefix_of_upToDate inv led between (inv.logs.ballot_genuine cast)
        (endorsed t count after (held p holds) between) upToDate

/-- The log of the current or any later leader holds what was chosen. -/
theorem Chosen.prefix_tlog (inv : Inv τ qs s) {t count : ℕ} (chosen : Chosen τ qs s t count)
    {later : ℕ} (after : t ≤ later) (led : s.leader later ≠ none) :
    (s.tlog t).take count <+: s.tlog later := by
  rcases after.lt_or_eq with after | rfl
  · exact (chosen.prefix_base inv after led).trans (inv.logs.base_tlog led)
  · exact List.take_prefix _ _

/-- Whoever acknowledged a chosen prefix still holds it. -/
theorem Chosen.held (inv : Inv τ qs s) {t count : ℕ} (chosen : Chosen τ qs s t count) {p : N}
    (acked : count ≤ s.acked t p) : (s.tlog t).take count <+: s.log p :=
  inv.acks.kept acked fun _ after _ led => chosen.prefix_base inv after led

/-- Two chosen prefixes are prefixes of one another. -/
theorem Chosen.agree (inv : Inv τ qs s) {t₁ t₂ count₁ count₂ k : ℕ}
    (chosen₁ : Chosen τ qs s t₁ count₁) (chosen₂ : Chosen τ qs s t₂ count₂)
    (le₁ : k ≤ count₁) (le₂ : k ≤ count₂) :
    (s.tlog t₁).take k = (s.tlog t₂).take k := by
  wlog before : t₁ ≤ t₂ generalizing t₁ t₂ count₁ count₂
  · exact (this chosen₂ chosen₁ le₂ le₁ (by omega)).symm
  have held := chosen₁.prefix_tlog inv before (chosen₂.led inv)
  have held' : (s.tlog t₁).take k <+: s.tlog t₂ :=
    (List.take_prefix_take_left le₁).trans held
  have length_eq : ((s.tlog t₁).take k).length = k := by
    have := chosen₁.length_le
    rw [List.length_take]
    omega
  rw [List.prefix_iff_eq_take.mp held', length_eq]

/-- At most one participant can win a term. -/
theorem Inv.leader_unique (inv : Inv τ qs s) {t : ℕ} {c d : N} (led : s.leader t = some d)
    {voters : Finset N} (quorum : qs.vote voters)
    (granted : ∀ p ∈ voters, ∃ log, s.ballot t p = some (c, log)) : d = c := by
  obtain ⟨voters', quorum', evidence⟩ := inv.acks.elected led
  obtain ⟨p, mem', mem⟩ := qs.vote_meets_vote quorum' quorum
  obtain ⟨log, cast, -⟩ := evidence p mem'
  obtain ⟨log', cast'⟩ := granted p mem
  rw [cast] at cast'
  exact congrArg Prod.fst (Option.some.inj cast')

/-! ## Committed prefixes -/

section Committed

variable {p q : N} {count : ℕ}

theorem Committed.zero : Committed τ qs s p 0 :=
  Or.inl rfl

theorem Committed.of_le (committed : Committed τ qs s p count) {smaller : ℕ}
    (le : smaller ≤ count) : Committed τ qs s p smaller := by
  rcases committed with rfl | ⟨t, chosen, isChosen, bound, before, held⟩
  · exact Or.inl (by omega)
  · exact Or.inr ⟨t, chosen, isChosen, by omega, before,
      (List.take_prefix_take_left le).trans held⟩

theorem Committed.length_le (committed : Committed τ qs s p count) :
    count ≤ (s.log p).length := by
  rcases committed with rfl | ⟨t, chosen, isChosen, le, -, held⟩
  · exact Nat.zero_le _
  · have held_le := held.length_le
    have chosen_le := isChosen.length_le
    rw [List.length_take] at held_le
    omega

/-- The committed part of `p`'s log, read off the term's log. -/
theorem Committed.take_eq {t chosen : ℕ} (isChosen : Chosen τ qs s t chosen) (le : count ≤ chosen)
    (held : (s.tlog t).take count <+: s.log p) : (s.log p).take count = (s.tlog t).take count := by
  have length_eq : ((s.tlog t).take count).length = count := by
    have := isChosen.length_le
    rw [List.length_take]
    omega
  have eq := List.prefix_iff_eq_take.mp held
  rw [length_eq] at eq
  exact eq.symm

/-- A committed prefix survives as long as the log keeps what it shares with
the leader of the participant's term. -/
theorem Committed.transfer (inv : Inv τ qs s) (ext : Extends s s')
    (keeps : ∀ {shared}, shared <+: s.log p →
      (s.leader (s.term p) ≠ none → shared <+: s.tlog (s.term p)) → shared <+: s'.log p)
    (committed : Committed τ qs s p count) : Committed τ qs s' p count := by
  rcases committed with rfl | ⟨t, chosen, isChosen, le, before, held⟩
  · exact Or.inl rfl
  · refine Or.inr ⟨t, chosen, isChosen.mono inv ext, le, before.trans ext.term, ?_⟩
    rw [ext.take_tlog (isChosen.led inv) (le.trans isChosen.length_le)]
    refine keeps held fun led => ?_
    exact (List.take_prefix_take_left le).trans (isChosen.prefix_tlog inv before led)

/-- Committed prefixes agree, also at different moments of a run. -/
theorem Committed.agree (inv : Inv τ qs s) (inv' : Inv τ qs s') (ext : Extends s s')
    (first : Committed τ qs s p count) (second : Committed τ qs s' q count) :
    (s.log p).take count = (s'.log q).take count := by
  rcases first with rfl | ⟨t₁, chosen₁, isChosen₁, le₁, -, held₁⟩
  · simp
  · rcases second with rfl | ⟨t₂, chosen₂, isChosen₂, le₂, -, held₂⟩
    · simp
    · calc (s.log p).take count
          = (s.tlog t₁).take count := Committed.take_eq isChosen₁ le₁ held₁
        _ = (s'.tlog t₁).take count :=
            (ext.take_tlog (isChosen₁.led inv) (le₁.trans isChosen₁.length_le)).symm
        _ = (s'.tlog t₂).take count :=
            (isChosen₁.mono inv ext).agree inv' isChosen₂ le₁ le₂
        _ = (s'.log q).take count := (Committed.take_eq isChosen₂ le₂ held₂).symm

/-- A leader of a later term was elected with everything committed, also when
it is only seen at a later moment of a run. -/
theorem Committed.prefix_base (inv : Inv τ qs s) (inv' : Inv τ qs s') (ext : Extends s s')
    (committed : Committed τ qs s p count) {later : ℕ} (after : s.term p < later)
    (led : s'.leader later ≠ none) : (s.log p).take count <+: s'.base later := by
  rcases committed with rfl | ⟨t, chosen, isChosen, le, before, held⟩
  · simp
  · rw [Committed.take_eq isChosen le held,
      ← ext.take_tlog (isChosen.led inv) (le.trans isChosen.length_le)]
    exact (List.take_prefix_take_left le).trans
      ((isChosen.mono inv ext).prefix_base inv' (before.trans_lt after) led)

/-- An acknowledgement quorum holds every committed prefix. -/
theorem Committed.held (inv : Inv τ qs s) (committed : Committed τ qs s p count)
    (positive : 0 < count) :
    ∃ holders, qs.ack holders ∧ ∀ q ∈ holders, (s.log p).take count <+: s.log q := by
  rcases committed with rfl | ⟨t, chosen, isChosen, le, -, held⟩
  · omega
  · obtain ⟨-, holders, quorum, acked⟩ := id isChosen
    refine ⟨holders, quorum, fun q mem => ?_⟩
    rw [Committed.take_eq isChosen le held]
    exact (List.take_prefix_take_left le).trans (isChosen.held inv (acked q mem))

theorem Committed.step [DecidableEq N] (inv : Inv τ qs s) (step : Step τ qs s s')
    (committed : Committed τ qs s p count) : Committed τ qs s' p count := by
  refine committed.transfer inv (Extends.of_step inv step) ?_
  intro shared inLog inTerm
  cases step with
  | adopt _ _ _ => exact inLog
  | stand _ => exact inLog
  | grant _ _ _ _ _ _ _ => exact inLog
  | elect _ _ _ _ _ => exact inLog
  | ack _ _ _ _ => exact inLog
  | extend c entry leads own =>
      by_cases same : p = c
      · subst same
        exact inLog.trans (by simp [State.extend])
      · simpa [State.extend, same] using inLog
  | truncate r kept mine theirs mineAt theirsAt conflict =>
      by_cases same : p = r
      · subst same
        have led := inv.led_of_tlog (List.ne_nil_of_mem (List.mem_of_getElem? theirsAt))
        rw [show (s.setLog p ((s.log p).take kept)).log p = (s.log p).take kept by
          simp [State.setLog]]
        exact prefix_take_of_conflict inLog (inTerm led) mineAt theirsAt
          fun same => conflict (congrArg τ same)
      · simpa [State.setLog, same] using inLog
  | follow r entry next =>
      by_cases same : p = r
      · subst same
        exact inLog.trans (by simp [State.setLog])
      · simpa [State.setLog, same] using inLog

theorem Committed.steps [DecidableEq N] (inv : Inv τ qs s) (steps : Steps τ qs s s')
    (committed : Committed τ qs s p count) : Committed τ qs s' p count := by
  induction steps with
  | refl => exact committed
  | tail run step ih => exact ih.step (inv.steps run) step

end Committed

end Consensus
