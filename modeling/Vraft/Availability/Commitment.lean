import Vraft.Availability.Election
import Vraft.Availability.Exchange

/-!
# A majority commits

A leader whose group is a majority gets every entry of its log to every member of it.
Exchanges with one follower step back until their logs match, and from there on go
forward.  When the last entry has arrived everywhere the leader commits it, and with
one more heartbeat the followers learn of it and apply it.
-/

namespace Vraft

/-- The leader knows that the follower holds all `last` entries. -/
structure Abreast (p q : Addr) (last : ℕ) (s : Cluster) : Prop where
  match_ : last ≤ (s.node p).indexMgr.getMatch q
  next : (s.node p).indexMgr.getNext q = (s.node p).indexMgr.getMatch q + 1

/-- What is left to do for a follower: steps forward once the next index follows the
match index, and before that also steps back. -/
def Node.distance (n : Node) (q : Addr) (last : ℕ) : ℕ :=
  if n.indexMgr.getNext q = n.indexMgr.getMatch q + 1 then last - n.indexMgr.getMatch q
  else last + 1 + n.indexMgr.getNext q

section Commitment

variable {m : Membership} {group : Finset Addr} {now : ℤ} {s s' : Cluster} {p q : Addr}
  {full : List AppendEntry}

theorem Ruling.last (maj : Majority m group now) (memP : p ∈ group)
    (ruling : Ruling m group p full s) : (s.node p).log.last = full.length := by
  obtain ⟨a, sim⟩ := Sim.of_reachable (Or.inl maj.odd) ruling.reachable
  have log : a.log p = full := (sim.live p (maj.mem memP)).entries.symm.trans ruling.log
  rw [(sim.start (maj.mem memP)).last_eq]
  exact congrArg List.length log

theorem Abreast.apart (abreast : Abreast p q full.length s) {r : Addr} (apart : Apart p r s s')
    (ne : q ≠ r) : Abreast p q full.length s' := by
  have same := apart.indices q ne
  constructor
  · rw [IndexManager.getMatch, same]
    exact abreast.match_
  · rw [IndexManager.getNext, IndexManager.getMatch, same]
    exact abreast.next

/-! ## One follower -/

/-- An exchange with a follower that is abreast. -/
theorem Ruling.repeat_ (maj : Majority m group now) (memP : p ∈ group) (memQ : q ∈ group)
    (ne : q ≠ p) (ruling : Ruling m group p full s) (abreast : Abreast p q full.length s) :
    ∃ s', Cluster.AmongRun m group now s s' ∧ Ruling m group p full s' ∧ Apart p q s s' ∧
      Abreast p q full.length s' ∧ min (s.node p).commit full.length ≤ (s'.node q).commit ∧
      ((∀ r ∈ group, r ≠ p → Abreast p r full.length s) → full.length ≤ (s'.node p).commit) := by
  have last := ruling.last maj memP
  have match_ := abreast.match_
  have next := abreast.next
  obtain ⟨s', run, ruling', apart, matched | missed⟩ := ruling.exchange maj memP memQ ne
  · have sentTo : (s.node p).sentTo q = (s.node p).indexMgr.getMatch q := by
      unfold Node.sentTo
      rw [if_neg (by omega)]
      omega
    have match' := matched.match_
    rw [sentTo, max_self] at match'
    have abreast' : Abreast p q full.length s' := ⟨match'.symm ▸ match_, matched.next⟩
    refine ⟨s', run, ruling', apart, abreast', ?_, fun all => ?_⟩
    · refine le_trans ?_ matched.learns
      rw [sentTo]
      exact min_le_min_left _ match_
    · rw [← last]
      refine matched.commits sentTo.ge fun r mem neP => ?_
      rw [last]
      by_cases same : r = q
      · rw [same]
        exact abreast'.match_
      · exact ((all r mem neP).apart apart same).match_
  · exact absurd missed.ahead (by omega)

/-- The leader brings a follower up to date, by induction on the distance of the next index:
it goes down as long as the logs differ, and follows the match index from then on. -/
theorem Ruling.bring (maj : Majority m group now) (memP : p ∈ group) (memQ : q ∈ group)
    (ne : q ≠ p) (ruling : Ruling m group p full s) :
    ∃ s', Cluster.AmongRun m group now s s' ∧ Ruling m group p full s' ∧ Apart p q s s' ∧
      Abreast p q full.length s' := by
  induction left : (s.node p).distance q full.length using Nat.strong_induction_on generalizing s with
  | _ left_ ih =>
      have last := ruling.last maj memP
      by_cases abreast : Abreast p q full.length s
      · exact ⟨s, .refl, ruling, .refl p q s, abreast⟩
      obtain ⟨s₁, run, ruling₁, apart, result⟩ := ruling.exchange maj memP memQ ne
      have closer : (s₁.node p).distance q full.length < (s.node p).distance q full.length := by
        rcases result with matched | missed
        · have match_ := matched.match_
          unfold Node.distance
          rw [if_pos matched.next]
          split
          · rename_i aligned
            have short : (s.node p).indexMgr.getMatch q < full.length := by
              by_contra long
              exact abreast ⟨not_lt.mp long, aligned⟩
            have sentTo : (s.node p).sentTo q = (s.node p).indexMgr.getMatch q + 1 := by
              unfold Node.sentTo
              rw [if_pos (by omega)]
              exact aligned
            omega
          · omega
        · have ahead := missed.ahead
          have next := missed.next
          have match_ := missed.match_
          unfold Node.distance
          rw [if_neg (by omega : ¬(s.node p).indexMgr.getNext q = _)]
          split <;> omega
      obtain ⟨s', more, ruling', apart', abreast'⟩ := ih _ (left ▸ closer) ruling₁ rfl
      exact ⟨s', run.trans more, ruling', apart.trans apart', abreast'⟩

/-! ## The group -/

/-- The followers in `rest` are brought up to date one after the other. -/
theorem Ruling.bring_all (maj : Majority m group now) (memP : p ∈ group) {rest : List Addr}
    (sub : ∀ q ∈ rest, q ∈ group) (ruling : Ruling m group p full s)
    (others : ∀ q ∈ group, q ≠ p → q ∉ rest → Abreast p q full.length s) :
    ∃ s', Cluster.AmongRun m group now s s' ∧ Ruling m group p full s' ∧
      (s.node p).commit ≤ (s'.node p).commit ∧
      ∀ q ∈ group, q ≠ p → Abreast p q full.length s' := by
  induction rest generalizing s with
  | nil => exact ⟨s, .refl, ruling, le_rfl, fun q mem ne => others q mem ne List.not_mem_nil⟩
  | cons q rest ih =>
      have sub' := fun r mem => sub r (List.mem_cons_of_mem _ mem)
      by_cases own : q = p
      · refine ih sub' ruling fun r mem ne missing => others r mem ne fun listed => missing ?_
        exact (List.mem_cons.mp listed).resolve_left fun same => ne (same.trans own)
      · obtain ⟨s₁, run, ruling₁, apart, abreast⟩ :=
          ruling.bring maj memP (sub q List.mem_cons_self) own
        have others₁ : ∀ r ∈ group, r ≠ p → r ∉ rest → Abreast p r full.length s₁ := by
          intro r mem ne missing
          by_cases same : r = q
          · rw [same]
            exact abreast
          · refine (others r mem ne fun listed => missing ?_).apart apart same
            exact (List.mem_cons.mp listed).resolve_left same
        obtain ⟨s', more, ruling', commit, all⟩ := ih sub' ruling₁ others₁
        exact ⟨s', run.trans more, ruling', apart.commit.trans commit, all⟩

/-- The followers in `rest` learn one after the other that everything is committed. -/
theorem Ruling.spread (maj : Majority m group now) (memP : p ∈ group) {rest : List Addr}
    (sub : ∀ q ∈ rest, q ∈ group) (ruling : Ruling m group p full s)
    (committed : full.length ≤ (s.node p).commit)
    (all : ∀ q ∈ group, q ≠ p → Abreast p q full.length s)
    (others : ∀ q ∈ group, q ∉ rest → full.length ≤ (s.node q).commit) :
    ∃ s', Cluster.AmongRun m group now s s' ∧ Ruling m group p full s' ∧
      (∀ q ∈ group, q ≠ p → Abreast p q full.length s') ∧
      ∀ q ∈ group, full.length ≤ (s'.node q).commit := by
  induction rest generalizing s with
  | nil => exact ⟨s, .refl, ruling, all, fun q mem => others q mem List.not_mem_nil⟩
  | cons q rest ih =>
      have sub' := fun r mem => sub r (List.mem_cons_of_mem _ mem)
      have memQ := sub q List.mem_cons_self
      by_cases own : q = p
      · refine ih sub' ruling committed all fun r mem missing => ?_
        by_cases same : r = p
        · rw [same]
          exact committed
        · refine others r mem fun listed => missing ?_
          exact (List.mem_cons.mp listed).resolve_left fun isQ => same (isQ.trans own)
      · obtain ⟨s₁, run, ruling₁, apart, abreast, learns, -⟩ :=
          ruling.repeat_ maj memP memQ own (all q memQ own)
        rw [min_eq_right committed] at learns
        have committed₁ := committed.trans apart.commit
        have all₁ : ∀ r ∈ group, r ≠ p → Abreast p r full.length s₁ := by
          intro r mem ne
          by_cases same : r = q
          · rw [same]
            exact abreast
          · exact (all r mem ne).apart apart same
        have others₁ : ∀ r ∈ group, r ∉ rest → full.length ≤ (s₁.node r).commit := by
          intro r mem missing
          by_cases same : r = q
          · rw [same]
            exact learns
          · by_cases leads : r = p
            · rw [leads]
              exact committed₁
            · rw [apart.others r leads same]
              refine others r mem fun listed => missing ?_
              exact (List.mem_cons.mp listed).resolve_left same
        obtain ⟨s', more, ruling', all', done⟩ := ih sub' ruling₁ committed₁ all₁ others₁
        exact ⟨s', run.trans more, ruling', all', done⟩

/-- A leader of a majority gets its log to everybody in it, who learn that all of it is
committed.  Without followers it must have committed by itself. -/
theorem Ruling.commits_all (maj : Majority m group now) (memP : p ∈ group)
    (ruling : Ruling m group p full s)
    (alone : (∀ q ∈ group, q = p) → full.length ≤ (s.node p).commit) :
    ∃ s', Cluster.AmongRun m group now s s' ∧ Ruling m group p full s' ∧
      (∀ q ∈ group, q ≠ p → Abreast p q full.length s') ∧
      ∀ q ∈ group, full.length ≤ (s'.node q).commit := by
  have listed : ∀ q ∈ group.toList, q ∈ group := fun q mem => Finset.mem_toList.mp mem
  have missing : ∀ q ∈ group, q ∉ group.toList → False := fun q mem out =>
    out (Finset.mem_toList.mpr mem)
  obtain ⟨s₁, run₁, ruling₁, commit, all⟩ := ruling.bring_all maj memP listed
    fun q mem _ out => (missing q mem out).elim
  obtain ⟨s₂, run₂, ruling₂, all₂, committed⟩ : ∃ s₂, Cluster.AmongRun m group now s₁ s₂ ∧
      Ruling m group p full s₂ ∧ (∀ q ∈ group, q ≠ p → Abreast p q full.length s₂) ∧
      full.length ≤ (s₂.node p).commit := by
    by_cases single : ∀ q ∈ group, q = p
    · exact ⟨s₁, .refl, ruling₁, all, (alone single).trans commit⟩
    · push Not at single
      obtain ⟨q, memQ, ne⟩ := single
      obtain ⟨s₂, run₂, ruling₂, apart, abreast, -, commits⟩ :=
        ruling₁.repeat_ maj memP memQ ne (all q memQ ne)
      refine ⟨s₂, run₂, ruling₂, fun r mem neP => ?_, commits all⟩
      by_cases same : r = q
      · rw [same]
        exact abreast
      · exact (all r mem neP).apart apart same
  obtain ⟨s', run', ruling', all', done⟩ := ruling₂.spread maj memP listed committed all₂
    fun q mem out => (missing q mem out).elim
  exact ⟨s', (run₁.trans run₂).trans run', ruling', all', done⟩

end Commitment

end Vraft
