import Vraft.Raft.Compaction
import Vraft.Safety.Election
import Vraft.Votes.Turns

/-!
# The leader that a node knows of

With an odd number of members the leader cache is right: who is in it has become
leader in the term of the node.  A vote, a ballot in the history of its voter, is
given once in a term, and a leader has more than half of them.  Logs play no part
in this, so it does not matter whether they are compacted and whether snapshots
are installed.
-/

namespace Vraft

/-- `q` has given its vote in a term, or counted it for itself. -/
def Gave (hist : Addr → List Effect) (q : Addr) (term : ℕ) (candidate : Addr) : Prop :=
  ∃ effect ∈ hist q, effect.grant = some (term, candidate)

/-- What a message that `p` has sent says. -/
def SentOk (hist : Addr → List Effect) (p : Addr) : Message → Prop
  | .requestVote msg => msg.src = p ∧ msg.dest ≠ p
  | .requestVoteReply msg => msg.src = p ∧ msg.dest ≠ p
  | .appendEntries msg => msg.src = p ∧ Effect.becomeLeader msg.term ∈ hist p ∧
      ∀ entry ∈ msg.entries, entry.appendEntry.Plain
  | .installSnapshot msg => msg.src = p ∧ Effect.becomeLeader msg.term ∈ hist p
  | _ => True

/-- The seat of `p` agrees with what everybody has done. -/
structure Seated (m : Membership) (hist : Addr → List Effect) (p : Addr) (s : Seat) : Prop where
  config : s.config = m.config p
  keys : s.voteMgr.keys = m.peersOf p
  past : ∀ term candidate, Gave hist p term candidate →
    candidate ≠ 0 ∧ term ≤ s.term ∧ (term = s.term → candidate = s.vote)
  once : ∀ term first second, Gave hist p term first → Gave hist p term second → first = second
  own : s.vote = p → Gave hist p s.term p
  counted : s.state = .candidate → ∀ q ∈ m.peersOf p, (s.voteMgr.val q).grant = true →
    Gave hist q s.term p
  leads : s.state = .leader → Effect.becomeLeader s.term ∈ hist p
  follows : s.leader ≠ 0 → s.leader ∈ m.members ∧ Effect.becomeLeader s.term ∈ hist s.leader
  won : ∀ term, Effect.becomeLeader term ∈ hist p → ∃ voters ⊆ m.members.toFinset,
    (m.size + 1) / 2 ≤ voters.card ∧ ∀ q ∈ voters, Gave hist q term p
  sends : ∀ msg, Effect.send msg ∈ hist p → SentOk hist p msg

/-- The history of `p` has gone on. -/
def extend (hist : Addr → List Effect) (p : Addr) (effects : List Effect) : Addr → List Effect :=
  Function.update hist p (hist p ++ effects)

section Moves

variable {m : Membership} {hist : Addr → List Effect} {p q : Addr} {s s' : Seat}
variable {effects : List Effect} {input : Input}

@[simp]
theorem extend_self : extend hist p effects p = hist p ++ effects :=
  Function.update_self ..

theorem extend_nil : extend hist p [] = hist := by
  rw [extend, List.append_nil]
  exact Function.update_eq_self _ _

theorem extend_of_ne (ne : q ≠ p) : extend hist p effects q = hist q :=
  Function.update_of_ne ne ..

theorem mem_extend {effect : Effect} (mem : effect ∈ hist q) : effect ∈ extend hist p effects q := by
  by_cases same : q = p
  · subst same
    rw [extend_self]
    exact List.mem_append_left _ mem
  · rwa [extend_of_ne same]

theorem Gave.extend {term : ℕ} {candidate : Addr} (gave : Gave hist q term candidate) :
    Gave (extend hist p effects) q term candidate := by
  obtain ⟨effect, mem, grants⟩ := gave
  exact ⟨effect, mem_extend mem, grants⟩

theorem SentOk.extend {msg : Message} (ok : SentOk hist q msg) :
    SentOk (extend hist p effects) q msg := by
  cases msg with
  | appendEntries msg => exact ⟨ok.1, mem_extend ok.2.1, ok.2.2⟩
  | installSnapshot msg => exact ⟨ok.1, mem_extend ok.2⟩
  | _ => exact ok

/-- What others do leaves a seat as it is. -/
theorem Seated.other (seated : Seated m hist q s) (ne : q ≠ p) :
    Seated m (extend hist p effects) q s := by
  have same : extend hist p effects q = hist q := extend_of_ne ne
  have gave_iff (term : ℕ) (candidate : Addr) :
      Gave (extend hist p effects) q term candidate ↔ Gave hist q term candidate := by
    rw [Gave, Gave, same]
  exact {
    config := seated.config
    keys := seated.keys
    past := fun term candidate gave => seated.past term candidate ((gave_iff _ _).mp gave)
    once := fun term first second gave gave' =>
      seated.once term first second ((gave_iff _ _).mp gave) ((gave_iff _ _).mp gave')
    own := fun vote => (seated.own vote).extend
    counted := fun candidate r mem granted => (seated.counted candidate r mem granted).extend
    leads := fun leader => mem_extend (seated.leads leader)
    follows := fun known => ⟨(seated.follows known).1, mem_extend (seated.follows known).2⟩
    won := fun term led => by
      rw [same] at led
      obtain ⟨voters, inside, enough, given⟩ := seated.won term led
      exact ⟨voters, inside, enough, fun r mem => (given r mem).extend⟩
    sends := fun msg sent => by
      rw [same] at sent
      exact (seated.sends msg sent).extend }

/-- The seat of `p` after more effects, if what they grant is the vote of the new
seat, and the vote of the old one has only been replaced if the term has grown or
there was none. -/
theorem Seated.advance (seated : Seated m hist p s) (config : s'.config = s.config)
    (keys : s'.voteMgr.keys = s.voteMgr.keys) (later : s.term ≤ s'.term)
    (kept : s.term = s'.term → s.vote = s'.vote ∨ s.vote = 0)
    (gives : ∀ effect ∈ effects, ∀ term candidate, effect.grant = some (term, candidate) →
      candidate ≠ 0 ∧ term = s'.term ∧ candidate = s'.vote)
    (own : s'.vote = p → Gave (extend hist p effects) p s'.term p)
    (counted : s'.state = .candidate → ∀ q ∈ m.peersOf p, (s'.voteMgr.val q).grant = true →
      Gave (extend hist p effects) q s'.term p)
    (leads : s'.state = .leader → Effect.becomeLeader s'.term ∈ extend hist p effects p)
    (follows : s'.leader ≠ 0 →
      s'.leader ∈ m.members ∧ Effect.becomeLeader s'.term ∈ extend hist p effects s'.leader)
    (won : ∀ term, Effect.becomeLeader term ∈ effects → ∃ voters ⊆ m.members.toFinset,
      (m.size + 1) / 2 ≤ voters.card ∧ ∀ q ∈ voters, Gave (extend hist p effects) q term p)
    (sends : ∀ msg, Effect.send msg ∈ effects → SentOk (extend hist p effects) p msg) :
    Seated m (extend hist p effects) p s' := by
  have split_ {effect : Effect} (mem : effect ∈ extend hist p effects p) :
      effect ∈ hist p ∨ effect ∈ effects := by
    rwa [extend_self, List.mem_append] at mem
  have past (term : ℕ) (candidate : Addr) (gave : Gave (extend hist p effects) p term candidate) :
      candidate ≠ 0 ∧ term ≤ s'.term ∧ (term = s'.term → candidate = s'.vote) := by
    obtain ⟨effect, mem, grants⟩ := gave
    rcases split_ mem with old | new
    · obtain ⟨nonnull, le, current⟩ := seated.past term candidate ⟨effect, old, grants⟩
      refine ⟨nonnull, le.trans later, fun term_eq => ?_⟩
      have term_eq : s.term = s'.term := by omega
      rcases kept term_eq with same | none_
      · rw [← same]
        exact current (by omega)
      · exact absurd ((current (by omega)).trans none_) nonnull
    · obtain ⟨nonnull, rfl, rfl⟩ := gives effect new term candidate grants
      exact ⟨nonnull, le_rfl, fun _ => rfl⟩
  exact {
    config := config.trans seated.config
    keys := keys.trans seated.keys
    past := past
    once := fun term first second gave gave' => by
      obtain ⟨effect, mem, grants⟩ := gave
      obtain ⟨effect', mem', grants'⟩ := gave'
      have first_past := past term first ⟨effect, mem, grants⟩
      have second_past := past term second ⟨effect', mem', grants'⟩
      by_cases current : term = s'.term
      · rw [first_past.2.2 current, second_past.2.2 current]
      · rcases split_ mem with old | new
        · rcases split_ mem' with old' | new'
          · exact seated.once term first second ⟨effect, old, grants⟩ ⟨effect', old', grants'⟩
          · exact absurd (gives effect' new' term second grants').2.1 current
        · exact absurd (gives effect new term first grants).2.1 current
    own := own
    counted := counted
    leads := leads
    follows := follows
    won := fun term led => by
      rcases split_ led with old | new
      · obtain ⟨voters, inside, enough, given⟩ := seated.won term old
        exact ⟨voters, inside, enough, fun r mem => (given r mem).extend⟩
      · exact won term new
    sends := fun msg sent => by
      rcases split_ sent with old | new
      · exact (seated.sends msg old).extend
      · exact sends msg new }

/-- What an input says about those who made it. -/
structure Arrives (m : Membership) (hist : Addr → List Effect) (p : Addr) (input : Input) :
    Prop where
  leads : ∀ src term, input.Leads src term → src ∈ m.members ∧ Effect.becomeLeader term ∈ hist src
  replies : ∀ msg now, input = .recv (.requestVoteReply msg) now → msg.src ∈ m.peersOf p ∧
    (msg.granted = true → msg.preVote = false → Gave hist msg.src msg.reqTerm p)

theorem Arrives.extend (arrives : Arrives m hist p input) :
    Arrives m (extend hist p effects) p input where
  leads src term heard := ⟨(arrives.leads src term heard).1, mem_extend (arrives.leads src term heard).2⟩
  replies msg now came := ⟨(arrives.replies msg now came).1, fun granted real =>
    ((arrives.replies msg now came).2 granted real).extend⟩

/-- What is sent quietly is in order. -/
theorem Seated.sentOk (seated : Seated m hist p s) {msg : Message}
    (quiet : (Effect.send msg).Quiet s) : SentOk hist p msg := by
  have me : s.config.me = p := by
    rw [seated.config]
    rfl
  cases msg with
  | requestVote msg => rwa [← me]
  | requestVoteReply msg =>
      rw [← me]
      exact ⟨quiet.1, quiet.2.1⟩
  | appendEntries msg =>
      obtain ⟨src, term, leader, plain⟩ := quiet
      refine ⟨src.trans me, ?_, plain⟩
      rw [term]
      exact seated.leads leader
  | installSnapshot msg =>
      obtain ⟨src, term, leader⟩ := quiet
      refine ⟨src.trans me, ?_⟩
      rw [term]
      exact seated.leads leader
  | _ => trivial

theorem Effect.Quiet.grant {effect : Effect} (quiet : effect.Quiet s) (nonnull : s.config.me ≠ 0)
    {term : ℕ} {candidate : Addr} (grants : effect.grant = some (term, candidate)) :
    candidate ≠ 0 ∧ term = s.term ∧ candidate = s.vote := by
  cases effect with
  | countSelf t addr =>
      obtain ⟨rfl, rfl, vote⟩ := quiet
      obtain ⟨rfl, rfl⟩ := Prod.mk.inj (Option.some.inj grants)
      exact ⟨nonnull, rfl, vote.symm⟩
  | send msg =>
      cases msg with
      | requestVoteReply msg =>
          unfold Effect.grant at grants
          dsimp only at grants
          split at grants
          · rename_i granted
            rw [Bool.and_eq_true] at granted
            obtain ⟨rfl, rfl⟩ := Prod.mk.inj (Option.some.inj grants)
            obtain ⟨term, dest, nonnull⟩ := quiet.2.2 granted.1
            exact ⟨nonnull, term, dest⟩
          · contradiction
      | _ => contradiction
  | _ => contradiction

/-- Those whose votes a candidate has counted have given them. -/
theorem Seated.voters (mem : p ∈ m.members) (seated : Seated m hist p s)
    (candidate : s.state = .candidate)
    (majority : s.voteMgr.majority (s.vote = s.config.me) = true) :
    ∃ voters ⊆ m.members.toFinset, (m.size + 1) / 2 ≤ voters.card ∧
      ∀ q ∈ voters, Gave hist q s.term p := by
  have me : s.config.me = p := by
    rw [seated.config]
    rfl
  set granters := s.voteMgr.keys.toFinset.filter fun k => (s.voteMgr.val k).grant = true
    with granters_eq
  have peer {q : Addr} (memQ : q ∈ granters) :
      q ∈ m.peersOf p ∧ (s.voteMgr.val q).grant = true := by
    simpa only [granters_eq, Finset.mem_filter, List.mem_toFinset, seated.keys] using memQ
  have member {q : Addr} (memQ : q ∈ granters) : q ∈ m.members.toFinset :=
    List.mem_toFinset.mpr (Membership.mem_peersOf.mp (peer memQ).1).1
  have given {q : Addr} (memQ : q ∈ granters) : Gave hist q s.term p :=
    seated.counted candidate q (peer memQ).1 (peer memQ).2
  have fresh : p ∉ granters := fun memP => (Membership.mem_peersOf.mp (peer memP).1).2 rfl
  have reached := of_decide_eq_true majority
  have count : s.voteMgr.count (fun item => item.grant) = granters.card := Table.count_eq_card _ _
  rw [count, seated.keys, Membership.length_peersOf mem, me] at reached
  by_cases own : s.vote = p
  · refine ⟨insert p granters, fun q memQ => ?_, ?_, fun q memQ => ?_⟩
    · rcases Finset.mem_insert.mp memQ with rfl | memQ
      · exact List.mem_toFinset.mpr mem
      · exact member memQ
    · rw [Finset.card_insert_of_notMem fresh]
      simpa [own, Nat.add_comm] using reached
    · rcases Finset.mem_insert.mp memQ with rfl | memQ
      · exact seated.own own
      · exact given memQ
  · exact ⟨granters, fun q memQ => member memQ, by simpa [own] using reached,
      fun q memQ => given memQ⟩

theorem clear_grant (votes : VoteManager) (q : Addr) : (votes.clear.val q).grant = false := by
  rw [VoteManager.clear, Table.mapValues_val]
  split <;> rfl

/-- Every move keeps the seat in agreement. -/
theorem Seated.turn (mem : p ∈ m.members) (seated : Seated m hist p s)
    (arrives : Arrives m hist p input) (turn : Turn input s effects s') :
    Seated m (extend hist p effects) p s' := by
  have me : s.config.me = p := by
    rw [seated.config]
    rfl
  have nonnull : s.config.me ≠ 0 := by
    rw [me]
    exact Membership.ne_zero_of_mem mem
  cases turn with
  | quiet _ quiet =>
      refine seated.advance rfl rfl le_rfl (fun _ => .inl rfl) ?_ ?_ ?_ ?_ ?_ ?_ ?_
      · exact fun effect memE _ _ grants => (quiet effect memE).grant nonnull grants
      · exact fun vote => (seated.own vote).extend
      · exact fun candidate q memQ granted => (seated.counted candidate q memQ granted).extend
      · exact fun leader => mem_extend (seated.leads leader)
      · exact fun known => ⟨(seated.follows known).1, mem_extend (seated.follows known).2⟩
      · exact fun term led => (quiet _ led).elim
      · exact fun msg sent => (seated.sentOk (quiet _ sent)).extend
  | flags enable flags set enables =>
      refine seated.advance rfl rfl le_rfl (fun _ => .inl rfl) (by simp) ?_ ?_ ?_ ?_ (by simp)
        (by simp)
      · exact fun vote => (seated.own vote).extend
      · exact fun candidate q memQ granted => (seated.counted candidate q memQ granted).extend
      · exact fun leader => mem_extend (seated.leads leader)
      · exact fun known => ⟨(seated.follows known).1, mem_extend (seated.follows known).2⟩
  | adopt term later =>
      refine seated.advance rfl rfl later.le (fun same => absurd same later.ne) ?_ ?_ nofun nofun
        ?_ (by simp) (by simp)
      · intro effect memE
        simp only [List.mem_cons, List.not_mem_nil, or_false] at memE
        rcases memE with rfl | rfl <;> exact nofun
      · exact fun vote => absurd vote.symm (Membership.ne_zero_of_mem mem)
      · exact fun known => absurd rfl known
  | follow =>
      refine seated.advance rfl rfl le_rfl (fun _ => .inl rfl) (by simp) ?_ nofun nofun ?_ (by simp)
        (by simp)
      · exact fun vote => (seated.own vote).extend
      · exact fun known => ⟨(seated.follows known).1, mem_extend (seated.follows known).2⟩
  | hear src unknown heard =>
      refine seated.advance rfl rfl le_rfl (fun _ => .inl rfl) (by simp) ?_ ?_ ?_ ?_ (by simp)
        (by simp)
      · exact fun vote => (seated.own vote).extend
      · exact fun candidate q memQ granted => (seated.counted candidate q memQ granted).extend
      · exact fun leader => mem_extend (seated.leads leader)
      · obtain ⟨member, led⟩ := arrives.leads src s.term heard
        exact fun _ => ⟨member, mem_extend led⟩
  | vote candidate free other candidate_nonnull =>
      refine seated.advance rfl rfl le_rfl (fun _ => .inr free) ?_ ?_ ?_ ?_ ?_ (by simp) (by simp)
      · intro effect memE
        obtain rfl := List.mem_singleton.mp memE
        exact nofun
      · exact fun vote => absurd (vote.trans me.symm) other
      · exact fun candidate q memQ granted => (seated.counted candidate q memQ granted).extend
      · exact fun leader => mem_extend (seated.leads leader)
      · exact fun known => ⟨(seated.follows known).1, mem_extend (seated.follows known).2⟩
  | mark msg now came current item given =>
      obtain ⟨peer, gave⟩ := arrives.replies msg now came
      have keys : (s.voteMgr.set msg.src item).keys = s.voteMgr.keys :=
        Table.set_keys_of_mem _ (by rwa [seated.keys]) _
      refine seated.advance rfl keys le_rfl (fun _ => .inl rfl) (by simp) ?_ ?_ ?_ ?_ (by simp)
        (by simp)
      · exact fun vote => (seated.own vote).extend
      · intro candidate q memQ granted
        refine Gave.extend ?_
        by_cases same : q = msg.src
        · subst same
          rw [Table.set_val_self] at granted
          rcases given granted with before | ⟨granted, real⟩
          · exact seated.counted candidate msg.src memQ before
          · rw [← current.2]
            exact gave granted real
        · rw [Table.set_val_of_ne _ same] at granted
          exact seated.counted candidate q memQ granted
      · exact fun leader => mem_extend (seated.leads leader)
      · exact fun known => ⟨(seated.follows known).1, mem_extend (seated.follows known).2⟩
  | poll timer =>
      refine seated.advance rfl (Table.mapValues_keys _ _) le_rfl (fun _ => .inl rfl) (by simp) ?_
        ?_ nofun (fun known => absurd rfl known) (by simp) (by simp)
      · exact fun vote => (seated.own vote).extend
      · intro _ q _ granted
        exact absurd ((clear_grant s.voteMgr q).symm.trans granted) Bool.false_ne_true
  | stand moved =>
      have given : Gave (extend hist p [.persistTerm (s.term + 1), .persistVote s.config.me,
          .countSelf (s.term + 1) s.config.me]) p (s.term + 1) p := by
        refine ⟨.countSelf (s.term + 1) s.config.me, ?_, by rw [me]; rfl⟩
        rw [extend_self]
        exact List.mem_append_right _ (by simp)
      refine seated.advance rfl (Table.mapValues_keys _ _) (Nat.le_succ _)
        (fun same => absurd same (Nat.lt_succ_self _).ne) ?_ (fun _ => given) ?_ nofun
        (fun known => absurd rfl known) (by simp) (by simp)
      · intro effect memE term candidate grants
        simp only [List.mem_cons, List.not_mem_nil, or_false] at memE
        rcases memE with rfl | rfl | rfl
        · contradiction
        · contradiction
        · obtain ⟨rfl, rfl⟩ := Prod.mk.inj (Option.some.inj grants)
          exact ⟨nonnull, rfl, rfl⟩
      · intro _ q _ granted
        exact absurd ((clear_grant s.voteMgr q).symm.trans granted) Bool.false_ne_true
  | lead candidate majority =>
      have led : Effect.becomeLeader s.term ∈ extend hist p [.becomeLeader s.term] p := by
        rw [extend_self]
        exact List.mem_append_right _ List.mem_cons_self
      refine seated.advance rfl rfl le_rfl (fun _ => .inl rfl) ?_ ?_ nofun (fun _ => led) ?_ ?_
        (by simp)
      · intro effect memE
        obtain rfl := List.mem_singleton.mp memE
        exact nofun
      · exact fun vote => (seated.own vote).extend
      · intro _
        dsimp only
        rw [me]
        exact ⟨mem, led⟩
      · intro term memE
        obtain ⟨rfl⟩ := List.mem_singleton.mp memE
        obtain ⟨voters, inside, enough, given⟩ := seated.voters mem candidate majority
        exact ⟨voters, inside, enough, fun q memQ => (given q memQ).extend⟩

theorem Seated.turns (mem : p ∈ m.members) (seated : Seated m hist p s)
    (arrives : Arrives m hist p input) (turns : Turns input s effects s') :
    Seated m (extend hist p effects) p s' := by
  induction turns with
  | nil => rwa [extend_nil]
  | @snoc s₁ s₂ done more before turn ih =>
      have both : extend (extend hist p done) p more = extend hist p (done ++ more) := by
        simp only [extend, Function.update_self, Function.update_idem, List.append_assoc]
      rw [← both]
      exact ih.turn mem arrives.extend turn

/-! ## One leader in a term -/

/-- Two winners of a term have a voter in common, and it has one vote. -/
theorem one_leader (odd : Odd m.size) (seated : ∀ p ∈ m.members, ∃ s, Seated m hist p s)
    {term : ℕ} (memP : p ∈ m.members) (memQ : q ∈ m.members)
    (ledP : Effect.becomeLeader term ∈ hist p) (ledQ : Effect.becomeLeader term ∈ hist q) :
    p = q := by
  obtain ⟨sP, seatedP⟩ := seated p memP
  obtain ⟨sQ, seatedQ⟩ := seated q memQ
  obtain ⟨first, insideP, enoughP, givenP⟩ := seatedP.won term ledP
  obtain ⟨second, insideQ, enoughQ, givenQ⟩ := seatedQ.won term ledQ
  obtain ⟨k, size⟩ := odd
  obtain ⟨voter, byP, byQ⟩ := Majority.exists_mem_of_card_lt insideP insideQ (by
    rw [m.card_members]
    omega)
  obtain ⟨sV, seatedV⟩ := seated voter (List.mem_toFinset.mp (insideP byP))
  exact seatedV.once term p q (givenP voter byP) (givenQ voter byQ)

end Moves

/-! ## Clusters -/

namespace Cluster

/-- Every member agrees with what everybody has done. -/
def Agrees (m : Membership) (s : Cluster) : Prop :=
  ∀ p ∈ m.members, Seated m s.hist p (s.node p).seat ∧ Fixed (m.config p) (s.node p) ∧
    (s.node p).effects = []

variable {m : Membership} {s : Cluster} {p : Addr} {input : Input}

theorem Agrees.one_leader (agrees : s.Agrees m) (odd : Odd m.size) {q : Addr} {term : ℕ}
    (memP : p ∈ m.members) (memQ : q ∈ m.members) (ledP : Effect.becomeLeader term ∈ s.hist p)
    (ledQ : Effect.becomeLeader term ∈ s.hist q) : p = q :=
  Vraft.one_leader odd (fun r memR => ⟨_, (agrees r memR).1⟩) memP memQ ledP ledQ

theorem Agrees.sent (agrees : s.Agrees m) {msg : Message} (sent : s.InFlight m msg) :
    ∃ q ∈ m.members, Effect.send msg ∈ s.hist q ∧ SentOk s.hist q msg := by
  obtain ⟨q, memQ, sent⟩ := sent
  exact ⟨q, memQ, sent, (agrees q memQ).1.sends msg sent⟩

theorem Agrees.arrives (agrees : s.Agrees m) (enabled : s.Enabled m p input) :
    Arrives m s.hist p input where
  leads src term heard := by
    cases input with
    | recv msg now =>
        obtain ⟨q, memQ, -, ok⟩ := agrees.sent enabled.1
        cases msg with
        | appendEntries msg =>
            obtain ⟨rfl, rfl⟩ := heard
            obtain ⟨rfl, led, -⟩ := ok
            exact ⟨memQ, led⟩
        | installSnapshot msg =>
            obtain ⟨rfl, rfl⟩ := heard
            obtain ⟨rfl, led⟩ := ok
            exact ⟨memQ, led⟩
        | _ => exact heard.elim
    | _ => exact heard.elim
  replies msg now came := by
    subst came
    obtain ⟨⟨q, memQ, sent⟩, dest⟩ := enabled
    obtain ⟨rfl, other⟩ := (agrees q memQ).1.sends _ sent
    replace dest : msg.dest = p := dest
    subst dest
    refine ⟨Membership.mem_peersOf.mpr ⟨memQ, other.symm⟩, fun granted real => ?_⟩
    exact ⟨_, sent, by simp [Effect.grant, granted, real]⟩

theorem Agrees.sane (agrees : s.Agrees m) (enabled : s.Enabled m p input) :
    input.Sane (m.config p).me := by
  cases input with
  | requestVoteTimer dest => exact enabled.2
  | recv msg now =>
      obtain ⟨q, memQ, -, ok⟩ := agrees.sent enabled.1
      cases msg with
      | requestVote msg =>
          obtain ⟨rfl, other⟩ := ok
          have dest : msg.dest = p := enabled.2
          exact ⟨dest, fun same => other (dest.trans same.symm), Membership.ne_zero_of_mem memQ⟩
      | appendEntries msg => exact ok.2.2
      | _ => trivial
  | _ => trivial

theorem Agrees.trusts (agrees : s.Agrees m) (odd : Odd m.size) (mem : p ∈ m.members)
    (enabled : s.Enabled m p input) : (s.node p).TrustsInput input := by
  intro src term heard same known
  obtain ⟨member, led⟩ := (agrees.arrives enabled).leads src term heard
  obtain ⟨member', led'⟩ := (agrees p mem).1.follows known
  rw [show (s.node p).seat.term = term from same] at led'
  exact agrees.one_leader odd member' member led' led

/-- A member moves, and the others stay. -/
theorem Agrees.update (agrees : s.Agrees m) {n : Node} {effects : List Effect}
    (seated : Seated m (extend s.hist p effects) p n.seat) (fixed : Fixed (m.config p) n) :
    (s.update p n effects).Agrees m := by
  intro q memQ
  by_cases same : q = p
  · subst same
    simp only [Cluster.update, Function.update_self]
    exact ⟨seated, ⟨fixed.current, fixed.configs, fixed.plain⟩, trivial⟩
  · simp only [Cluster.update, Function.update_of_ne same]
    exact ⟨(agrees q memQ).1.other same, (agrees q memQ).2⟩

theorem fixed_boot {flags : Flags} {disk : Disk} (configs : disk.log.configs = [] ∨
    disk.log.configs = [(0, m.config p)]) (plain : ∀ entry ∈ disk.log.entries, entry.Plain) :
    Fixed (m.config p) (Node.boot (m.config p) flags disk) := by
  rcases configs with none_ | one
  · have recorded : disk.log.lastConfig = none := by simp [Log.lastConfig, none_]
    constructor
    · simp [Node.boot, recorded]
    · simp [Node.boot, recorded, Log.appendFirstConfig, none_]
    · simpa [Node.boot, recorded, Log.appendFirstConfig] using plain
  · have recorded : disk.log.lastConfig = some (m.config p) := by simp [Log.lastConfig, one]
    constructor
    · simp [Node.boot, recorded, ConfigManager.setCurrent]
    · simp [Node.boot, recorded, one]
    · simpa [Node.boot, recorded] using plain

/-- A restart leaves term and vote, and no leader is known. -/
theorem seated_boot {hist : Addr → List Effect} {flags : Flags} {disk : Disk}
    (fixed : Fixed (m.config p) (Node.boot (m.config p) flags disk))
    (past : ∀ term candidate, Gave hist p term candidate →
      candidate ≠ 0 ∧ term ≤ disk.term ∧ (term = disk.term → candidate = disk.vote))
    (once : ∀ term first second, Gave hist p term first → Gave hist p term second → first = second)
    (own : disk.vote = p → Gave hist p disk.term p)
    (won : ∀ term, Effect.becomeLeader term ∈ hist p → ∃ voters ⊆ m.members.toFinset,
      (m.size + 1) / 2 ≤ voters.card ∧ ∀ q ∈ voters, Gave hist q term p)
    (sends : ∀ msg, Effect.send msg ∈ hist p → SentOk hist p msg) :
    Seated m hist p (Node.boot (m.config p) flags disk).seat where
  config := fixed.current
  keys := by
    show (VoteManager.reset (Node.boot (m.config p) flags disk).configMgr.current.peers).keys = _
    rw [fixed.current]
    exact Table.ofKeys_keys (m.peersOf_nodup p) _
  past := past
  once := once
  own := own
  counted := nofun
  leads := nofun
  follows := fun known => absurd rfl known
  won := won
  sends := sends

theorem agrees_init (flags : Addr → Flags) : (init m flags).Agrees m := by
  intro p mem
  have fixed : Fixed (m.config p) (Node.boot (m.config p) (flags p) (Disk.fresh (m.hasSm p))) :=
    fixed_boot (.inl rfl) nofun
  refine ⟨seated_boot fixed ?_ ?_ ?_ nofun nofun, fixed, rfl⟩
  · rintro _ _ ⟨_, mem, _⟩
    exact absurd mem List.not_mem_nil
  · rintro _ _ _ ⟨_, mem, _⟩
    exact absurd mem List.not_mem_nil
  · exact fun vote => absurd vote.symm (Membership.ne_zero_of_mem mem)

theorem Agrees.step (agrees : s.Agrees m) {s' : Cluster} (step : LongStep m s s') :
    s'.Agrees m := by
  cases step with
  | handle p mem input enabled n done =>
      obtain ⟨seated, fixed, idle⟩ := agrees p mem
      obtain ⟨fixed', effects, effects_eq, turns⟩ :=
        (handle_turned fixed (agrees.sane enabled)).of_ok done
      rw [idle, List.nil_append] at effects_eq
      subst effects_eq
      exact agrees.update (seated.turns mem (agrees.arrives enabled) turns) fixed'
  | restart p mem flags =>
      obtain ⟨seated, fixed, -⟩ := agrees p mem
      have fixed' : Fixed (m.config p) (Node.boot (m.config p) flags (s.node p).disk) :=
        fixed_boot (.inr fixed.configs) fixed.plain
      refine agrees.update ?_ fixed'
      rw [extend_nil]
      exact seated_boot fixed' seated.past seated.once seated.own seated.won seated.sends
  | compact p mem to_ =>
      obtain ⟨seated, fixed, -⟩ := agrees p mem
      refine agrees.update ?_ ⟨fixed.current, ?_, fun entry memE => ?_⟩
      · rw [extend_nil]
        exact seated
      · exact (Log.deleteUtil_configs _ to_).trans fixed.configs
      · exact fixed.plain entry (Log.mem_deleteUtil memE)

theorem agrees_of_reachable (reachable : s.LongReachable m) : s.Agrees m := by
  obtain ⟨flags, run⟩ := reachable
  induction run with
  | refl => exact agrees_init flags
  | tail _ step ih => exact ih.step step

/-- With an odd number of members, a leader that a node knows of is the one
member that has become leader in its term, and no message makes the assert on it
fail. -/
theorem leader_cache (odd : Odd m.size) (reachable : s.LongReachable m) (mem : p ∈ m.members) :
    ((s.node p).leader ≠ 0 → (s.node p).leader ∈ m.members ∧ ∀ q ∈ m.members,
      Effect.becomeLeader (s.node p).solid.term ∈ s.hist q ↔ q = (s.node p).leader) ∧
    ∀ msg now, s.InFlight m msg → msg.dest = p →
      ∀ n, (s.node p).handle (.recv msg now) ≠ .error (.leaderCache, n) := by
  have agrees := agrees_of_reachable reachable
  obtain ⟨seated, fixed, -⟩ := agrees p mem
  constructor
  · intro known
    obtain ⟨member, led⟩ := seated.follows known
    refine ⟨member, fun q memQ => ⟨fun led' => ?_, fun same => ?_⟩⟩
    · exact agrees.one_leader odd memQ member led' led
    · rw [same]
      exact led
  · intro msg now sent dest n failed
    have enabled : s.Enabled m p (.recv msg now) := ⟨sent, dest⟩
    exact (handle_turned fixed (agrees.sane enabled)).of_error failed
      (agrees.trusts odd mem enabled) rfl

/-- Among three members, `2` knows of the leader that it has elected. -/
theorem leader_cache_three : ∃ s, LongReachable (.upTo 3) s ∧ (s.node 2).leader = 1 ∧
    Effect.becomeLeader (s.node 2).solid.term ∈ s.hist 1 := by
  have observed : ((start (.upTo 3)).play (.upTo 3) (election 1 [2] ++ exchange 1 2)).any
      (fun s => decide ((s.node 2).leader = 1)) = true := by decide +kernel
  obtain ⟨s, run, known⟩ := @run_of_observed _ Between _ _ _ observed
  have reachable : LongReachable (.upTo 3) s := ⟨_, longRun_of_run (fun _ between => between) run⟩
  have leader : (s.node 2).leader = 1 := of_decide_eq_true known
  have cached := (leader_cache (by decide) reachable (by decide : 2 ∈ (Membership.upTo 3).members)).1
    (by rw [leader]; decide)
  exact ⟨s, reachable, leader, (cached.2 1 (by decide)).mpr leader.symm⟩

end Cluster

end Vraft
