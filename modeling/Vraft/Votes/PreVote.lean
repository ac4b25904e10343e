import Vraft.Votes.Leading

/-!
# Rounds of pre-votes

A round of pre-votes is entered without a change of term, so the replies to an
earlier round look like those to the current one.  Here every vote request on the
network carries the round of the candidate it was sent in, and every reply the
round of the request it answers: the nodes do not see that, but it tells which
replies a candidate counts.
-/

namespace Vraft

/-- The flags of a pre-vote reply, one by one. -/
def VoteManager.noted (votes : VoteManager) (msg : RequestVoteReply) : VoteManager :=
  let votes : VoteManager := if msg.logOk then votes.logOK msg.src else votes
  if msg.intervalOk then votes.intervalOK msg.src else votes

namespace Node

/-- `Elect` enters a round of pre-votes. -/
def entersRound (n : Node) : Input → Bool
  | .electionTimer => !n.standby && n.enablePreVote && decide (0 < n.peers.length)
  | _ => false

/-- The handler has increased the term through `DoRequestVote`: `StepDown` leaves a
follower. -/
def Stands (n n' : Node) : Prop :=
  n.solid.term < n'.solid.term ∧ n'.state ≠ .follower

end Node

/-- A vote reply in favour of the candidate. -/
def RequestVoteReply.favours (msg : RequestVoteReply) : Bool :=
  msg.preVote && msg.logOk && msg.intervalOk

/-- The messages among some effects. -/
def sentBy (effects : List Effect) : List Message :=
  effects.filterMap fun
    | .send msg => some msg
    | _ => none

/-- A cluster with what the network knows about rounds. -/
structure Polling where
  cluster : Cluster
  /-- How often each member has entered a round. -/
  round : Addr → ℕ
  /-- What has been sent.  A vote request has the round of its sender, and a reply
  that of the request. -/
  sent : List (Message × ℕ)
  /-- The vote replies that each member has received since it entered its round. -/
  received : Addr → List (RequestVoteReply × ℕ)

namespace Polling

/-- `p` handles an input that carries the round `tag`. -/
def after (s : Polling) (p : Addr) (input : Input) (tag : ℕ) (n : Node) : Polling :=
  let enters := (s.cluster.node p).entersRound input
  let round := if enters then s.round p + 1 else s.round p
  { cluster := s.cluster.update p n n.effects
    round := Function.update s.round p round
    sent := s.sent ++ (sentBy n.effects).map fun msg => (msg,
      match input with
      | .recv (.requestVote _) _ => tag
      | _ => round)
    received := Function.update s.received p
      (if enters then []
      else match input with
        | .recv (.requestVoteReply msg) _ => s.received p ++ [(msg, tag)]
        | _ => s.received p) }

/-- A node restarts or compacts its log. -/
def replace (s : Polling) (p : Addr) (n : Node) : Polling :=
  { s with cluster := s.cluster.update p n [] }

/-- A message arrives with the round it carries, and pre-votes stay enabled. -/
def Carried (s : Polling) (tag : ℕ) : Input → Prop
  | .recv msg _ => (msg, tag) ∈ s.sent
  | .setFlags flags => flags.enablePreVote = true
  | _ => True

/-- One step of a cluster with pre-votes.  `allowed` says which inputs arrive when. -/
inductive Step (m : Membership) (allowed : Polling → Addr → Input → ℕ → Prop) (s : Polling) :
    Polling → Prop
  | handle (p : Addr) (mem : p ∈ m.members) (input : Input) (tag : ℕ)
      (enabled : s.cluster.Enabled m p input) (carried : s.Carried tag input)
      (comes : allowed s p input tag) (n : Node) (done : (s.cluster.node p).handle input = .ok n) :
      Step m allowed s (s.after p input tag n)
  | restart (p : Addr) (mem : p ∈ m.members) (flags : Flags) (enables : flags.enablePreVote = true) :
      Step m allowed s (s.replace p (Node.boot (m.config p) flags (s.cluster.node p).disk))
  | compact (p : Addr) (mem : p ∈ m.members) (to_ : ℕ) :
      Step m allowed s (s.replace p ((s.cluster.node p).deleteUtil to_))

/-- Several steps in a row. -/
abbrev Run (m : Membership) (allowed : Polling → Addr → Input → ℕ → Prop) : Polling → Polling → Prop :=
  Relation.ReflTransGen (Step m allowed)

/-- Every member started on a fresh disk. -/
def start (m : Membership) (flags : Addr → Flags) : Polling where
  cluster := Cluster.init m flags
  round _ := 0
  sent := []
  received _ := []

/-- A state that is reached from a start in which everyone asks before standing. -/
def Reachable (m : Membership) (allowed : Polling → Addr → Input → ℕ → Prop) (s : Polling) : Prop :=
  ∃ flags : Addr → Flags, (∀ p, (flags p).enablePreVote = true) ∧ Run m allowed (start m flags) s

/-- The peers from which `p` has received a favourable reply to a pre-vote request of
its current round. -/
def backers (m : Membership) (s : Polling) (p : Addr) : List Addr :=
  (m.peersOf p).filter fun q => (s.received p).any fun reply =>
    decide (reply.1.src = q) && decide (reply.2 = s.round p) && reply.1.favours

/-- A pre-vote reply that is recorded for a candidate in a round either answers a
request of the round with both flags set, or leaves one of the two flags of its sender
unset, or finds both set; and among two members `log_ok` does not come alone. -/
def Sound (m : Membership) (s : Polling) (p : Addr) (input : Input) (tag : ℕ) : Prop :=
  let n := s.cluster.node p
  match input with
  | .recv (.requestVoteReply msg) _ =>
      let item := n.voteMgr.val msg.src
      msg.preVote = true → n.state = .candidate → n.preVoting = true →
        msg.term = n.solid.term → msg.reqTerm = n.solid.term →
          (tag = s.round p ∧ msg.favours = true ∨
            (item.logok || msg.logOk) = false ∨ (item.intervalOk || msg.intervalOk) = false ∨
            (item.logok && item.intervalOk) = true) ∧
          (m.size = 2 → msg.logOk = true → (item.intervalOk || msg.intervalOk) = true)
  | _ => True

/-- Nothing is known about the inputs. -/
def Any (_ : Polling) (_ : Addr) (_ : Input) (_ : ℕ) : Prop := True

end Polling

/-! ## What handlers do to a round -/

section Handlers

variable {input : Input} {s s' : Seat} {effects : List Effect} {n n' : Node}
variable {msg : RequestVoteReply}

/-- Without a timer and a vote reply a candidacy goes on, or it ends. -/
structure Seat.GoesOn (s s' : Seat) : Prop where
  enablePreVote : s'.enablePreVote = s.enablePreVote
  preVoting : s'.preVoting = s.preVoting
  flags : ∀ q, (s'.voteMgr.val q).logok = (s.voteMgr.val q).logok ∧
    (s'.voteMgr.val q).intervalOk = (s.voteMgr.val q).intervalOk
  state : s'.state = .candidate → s.state = .candidate
  term : s'.term = s.term ∨ s'.state = .follower

theorem Turns.goesOn (turns : Turns input s effects s') (timer : input ≠ .electionTimer)
    (reply : ∀ msg now, input ≠ .recv (.requestVoteReply msg) now)
    (flags : ∀ flags, input ≠ .setFlags flags) : s.GoesOn s' := by
  induction turns with
  | nil => exact ⟨rfl, rfl, fun _ => ⟨rfl, rfl⟩, id, .inl rfl⟩
  | snoc before turn ih =>
      obtain ⟨enable, preVoting, flags_eq, state, term⟩ := ih
      cases turn with
      | quiet _ _ => exact ⟨enable, preVoting, flags_eq, state, term⟩
      | flags _ set came _ => exact absurd came (flags set)
      | adopt _ _ => exact ⟨enable, preVoting, flags_eq, nofun, .inr rfl⟩
      | follow => exact ⟨enable, preVoting, flags_eq, nofun, .inr rfl⟩
      | hear _ _ _ => exact ⟨enable, preVoting, flags_eq, state, term⟩
      | vote _ _ _ _ => exact ⟨enable, preVoting, flags_eq, state, term⟩
      | mark msg now came _ _ _ => exact absurd came (reply msg now)
      | poll came => exact absurd came timer
      | stand came =>
          rcases came with came | ⟨msg, now, came⟩
          · exact absurd came timer
          · exact absurd came (reply msg now)
      | lead candidate _ =>
          refine ⟨enable, preVoting, flags_eq, nofun, ?_⟩
          rcases term with term | follower
          · exact .inl term
          · exact absurd (candidate.symm.trans follower) nofun

theorem becomeLeader_goesOn (done : n.becomeLeader = .ok n') : n.seat.GoesOn n'.seat := by
  obtain ⟨n₁, checked, done⟩ := ok_of_bind_ok done
  obtain ⟨-, rfl⟩ := of_check_ok checked
  unfold Node.appendNoop at done
  rw [Node.appendOne_eq (.inr rfl)] at done
  obtain rfl := Except.ok.inj done
  exact ⟨rfl, rfl, fun _ => ⟨rfl, rfl⟩, nofun, .inl rfl⟩

theorem Seat.GoesOn.trans {s₁ : Seat} (first : s.GoesOn s₁) (second : s₁.GoesOn s')
    (same : s₁.term = s.term) : s.GoesOn s' where
  enablePreVote := second.enablePreVote.trans first.enablePreVote
  preVoting := second.preVoting.trans first.preVoting
  flags q := ⟨(second.flags q).1.trans (first.flags q).1, (second.flags q).2.trans (first.flags q).2⟩
  state candidate := first.state (second.state candidate)
  term := by
    rw [← same]
    exact second.term

theorem stepDown_goesOn {term : ℕ} (done : n.stepDown term = .ok n') : n.seat.GoesOn n'.seat := by
  obtain ⟨n₁, checked, ended⟩ := ok_of_bind_ok done
  obtain ⟨-, rfl⟩ := of_check_ok checked
  obtain rfl := Except.ok.inj ended
  split <;> exact ⟨rfl, rfl, fun _ => ⟨rfl, rfl⟩, nofun, .inr rfl⟩

/-- A vote that is recorded leaves the flags of all items. -/
theorem set_flags {votes : VoteManager} {q r : Addr} {item : VoteItem}
    (logok : item.logok = (votes.val q).logok)
    (intervalOk : item.intervalOk = (votes.val q).intervalOk) :
    ((votes.set q item).val r).logok = (votes.val r).logok ∧
      ((votes.set q item).val r).intervalOk = (votes.val r).intervalOk := by
  rw [Table.set_val]
  split
  · rename_i same
    subst same
    exact ⟨logok, intervalOk⟩
  · exact ⟨rfl, rfl⟩

theorem onRealVote_goesOn (done : n.onRealVote msg = .ok n') : n.seat.GoesOn n'.seat := by
  unfold Node.onRealVote at done
  dsimp only at done
  split at done
  · have counted : n.seat.GoesOn (Node.countSelf { n with
        voteMgr := VoteManager.getVote (n.voteMgr.done msg.src) msg.src
        timerMgr := n.timerMgr.stopRequestVoteOf msg.src }).seat := by
      unfold Node.countSelf
      have flags (q : Addr) :
          ((VoteManager.getVote (n.voteMgr.done msg.src) msg.src).val q).logok =
            (n.voteMgr.val q).logok ∧
          ((VoteManager.getVote (n.voteMgr.done msg.src) msg.src).val q).intervalOk =
            (n.voteMgr.val q).intervalOk := by
        have first := @set_flags n.voteMgr msg.src q
          { n.voteMgr.val msg.src with done := true } rfl rfl
        have second := @set_flags (n.voteMgr.done msg.src) msg.src q
          { (n.voteMgr.done msg.src).val msg.src with grant := true } rfl rfl
        exact ⟨second.1.trans first.1, second.2.trans first.2⟩
      split <;> exact ⟨rfl, rfl, flags, id, .inl rfl⟩
    split at done
    · refine counted.trans (becomeLeader_goesOn done) ?_
      unfold Node.countSelf
      split <;> rfl
    · obtain rfl := Except.ok.inj done
      exact counted
  · obtain rfl := Except.ok.inj done
    exact ⟨rfl, rfl, fun q => set_flags rfl rfl, id, .inl rfl⟩

/-- Both flags are recorded, and then the check is made. -/
theorem onPreVote_eq : n.onPreVote msg =
    if msg.logOk = true ∧ (n.voteMgr.noted msg).majorityPreVoteOK true = true ∧
        n.state = .candidate ∧ n.preVoting = true then
      Node.doRequestVote { n with
        timerMgr := n.timerMgr.stopRequestVoteOf msg.src
        voteMgr := n.voteMgr.noted msg
        preVoting := false }
    else .ok { n with
      timerMgr := n.timerMgr.stopRequestVoteOf msg.src
      voteMgr := n.voteMgr.noted msg } := by
  unfold Node.onPreVote VoteManager.noted
  cases msg.logOk <;> cases msg.intervalOk <;> rfl

theorem doRequestVote_preVoting (done : n.doRequestVote = .ok n') :
    n'.preVoting = n.preVoting ∧ n'.enablePreVote = n.enablePreVote := by
  have kept {n₁ : Node} : n₁.countSelf.preVoting = n₁.preVoting ∧
      n₁.countSelf.enablePreVote = n₁.enablePreVote := by
    unfold Node.countSelf
    split <;> exact ⟨rfl, rfl⟩
  unfold Node.doRequestVote at done
  dsimp only at done
  split at done
  · have goesOn := becomeLeader_goesOn done
    exact ⟨goesOn.preVoting.trans kept.1, goesOn.enablePreVote.trans kept.2⟩
  · obtain rfl := Except.ok.inj done
    exact kept

/-- What becomes of a vote reply: the candidacy goes on, a pre-vote is recorded, or the
check of the pre-votes passes. -/
theorem onRequestVoteReply_cases (done : n.onRequestVoteReply msg = .ok n') :
    n.seat.GoesOn n'.seat ∨
    msg.preVote = true ∧ msg.term = n.solid.term ∧ msg.reqTerm = n.solid.term ∧
      (n' = { n with
          timerMgr := n.timerMgr.stopRequestVoteOf msg.src
          voteMgr := n.voteMgr.noted msg } ∨
        msg.logOk = true ∧ (n.voteMgr.noted msg).majorityPreVoteOK true = true ∧
          n.state = .candidate ∧ n.preVoting = true ∧ n'.preVoting = false ∧
          n'.enablePreVote = n.enablePreVote) := by
  have same : n.seat.GoesOn n.seat := ⟨rfl, rfl, fun _ => ⟨rfl, rfl⟩, id, .inl rfl⟩
  unfold Node.onRequestVoteReply at done
  split at done
  · obtain rfl := Except.ok.inj done
    exact .inl same
  split at done
  · obtain rfl := Except.ok.inj done
    exact .inl same
  split at done
  · obtain rfl := Except.ok.inj done
    exact .inl same
  rename_i asked
  split at done
  · exact .inl (stepDown_goesOn done)
  obtain ⟨n₁, checked, ended⟩ := ok_of_bind_ok done
  obtain ⟨term, rfl⟩ := of_check_ok checked
  split at ended
  · rename_i pre
    right
    refine ⟨pre, term, not_not.mp asked, ?_⟩
    rw [onPreVote_eq] at ended
    split at ended
    · rename_i passes
      obtain ⟨logOk, majority, candidate, preVoting⟩ := passes
      obtain ⟨finished, enable⟩ := doRequestVote_preVoting ended
      exact .inr ⟨logOk, majority, candidate, preVoting, finished, enable⟩
    · exact .inl (Except.ok.inj ended).symm
  · exact .inl (onRealVote_goesOn ended)

end Handlers

/-! ## Rounds in a cluster -/

namespace Polling

variable {m : Membership} {allowed : Polling → Addr → Input → ℕ → Prop} {s s' : Polling}
variable {p q : Addr} {input : Input} {tag : ℕ} {n : Node}

/-- A candidate in a round has both flags of a peer only if the peer backs it. -/
structure Polls (m : Membership) (s : Polling) : Prop where
  agrees : s.cluster.Agrees m
  enabled : ∀ p ∈ m.members, (s.cluster.node p).enablePreVote = true
  backed : ∀ p ∈ m.members, (s.cluster.node p).state = .candidate →
    (s.cluster.node p).preVoting = true → ∀ q ∈ m.peersOf p,
      ((s.cluster.node p).voteMgr.val q).logok = true →
      ((s.cluster.node p).voteMgr.val q).intervalOk = true → q ∈ s.backers m p

theorem mem_backers : q ∈ s.backers m p ↔ q ∈ m.peersOf p ∧
    ∃ reply ∈ s.received p, reply.1.src = q ∧ reply.2 = s.round p ∧ reply.1.favours = true := by
  simp [backers, and_assoc]

theorem longStep_of_step (step : Step m allowed s s') : Cluster.LongStep m s.cluster s'.cluster := by
  cases step with
  | handle p mem input tag enabled carried comes n done => exact .handle p mem input enabled n done
  | restart p mem flags enables => exact .restart p mem flags
  | compact p mem to_ => exact .compact p mem to_

/-- Others have the backers they had. -/
theorem backers_after_of_ne (ne : q ≠ p) :
    (s.after p input tag n).backers m q = s.backers m q := by
  simp only [backers, after, Function.update_of_ne ne]

/-- Within a round backers are only added. -/
theorem mem_backers_after (mem : q ∈ s.backers m p)
    (stays : (s.cluster.node p).entersRound input = false) :
    q ∈ (s.after p input tag n).backers m p := by
  obtain ⟨peer, reply, memR, src, round, favours⟩ := mem_backers.mp mem
  refine mem_backers.mpr ⟨peer, reply, ?_, src, ?_, favours⟩
  · simp only [after, Function.update_self, stays]
    split
    · contradiction
    · split
      · exact List.mem_append_left _ memR
      · exact memR
  · simpa [after, stays] using round

/-- Whoever answers in favour is a backer. -/
theorem mem_backers_reply {msg : RequestVoteReply} {now : ℤ} (peer : msg.src ∈ m.peersOf p)
    (current : tag = s.round p) (favours : msg.favours = true) :
    msg.src ∈ (s.after p (.recv (.requestVoteReply msg) now) tag n).backers m p := by
  refine mem_backers.mpr ⟨peer, (msg, tag), ?_, rfl, ?_, favours⟩
  · simp [after, Node.entersRound]
  · simp [after, Node.entersRound, current]

/-- The items after a pre-vote reply has been recorded. -/
theorem noted_val (votes : VoteManager) (msg : RequestVoteReply) (q : Addr) :
    ((votes.noted msg).val q).logok = ((votes.val q).logok || (decide (q = msg.src) && msg.logOk)) ∧
    ((votes.noted msg).val q).intervalOk =
      ((votes.val q).intervalOk || (decide (q = msg.src) && msg.intervalOk)) := by
  unfold VoteManager.noted VoteManager.logOK VoteManager.intervalOK
  by_cases same : q = msg.src
  · subst same
    cases msg.logOk <;> cases msg.intervalOk <;> simp
  · cases msg.logOk <;> cases msg.intervalOk <;> simp [same]

theorem noted_keys {votes : VoteManager} {msg : RequestVoteReply} (mem : msg.src ∈ votes.keys) :
    (votes.noted msg).keys = votes.keys := by
  have logged (item : VoteItem) : (votes.set msg.src item).keys = votes.keys :=
    Table.set_keys_of_mem _ mem _
  unfold VoteManager.noted VoteManager.logOK VoteManager.intervalOK
  cases msg.logOk <;> cases msg.intervalOk
  · rfl
  · exact logged _
  · exact logged _
  · exact (Table.set_keys_of_mem _ (by rwa [if_pos rfl, logged]) _).trans (logged _)

/-- With a sound reply recorded, both flags of a peer still make it a backer. -/
theorem backed_noted (polls : Polls m s) (mem : p ∈ m.members) {msg : RequestVoteReply} {now : ℤ}
    (sound : s.Sound m p (.recv (.requestVoteReply msg) now) tag) (pre : msg.preVote = true)
    (term : msg.term = (s.cluster.node p).solid.term)
    (reqTerm : msg.reqTerm = (s.cluster.node p).solid.term)
    (candidate : (s.cluster.node p).state = .candidate)
    (preVoting : (s.cluster.node p).preVoting = true) (memQ : q ∈ m.peersOf p)
    (logok : (((s.cluster.node p).voteMgr.noted msg).val q).logok = true)
    (intervalOk : (((s.cluster.node p).voteMgr.noted msg).val q).intervalOk = true) :
    q ∈ (s.after p (.recv (.requestVoteReply msg) now) tag n).backers m p := by
  rw [(noted_val _ _ _).1] at logok
  rw [(noted_val _ _ _).2] at intervalOk
  have before (logok : ((s.cluster.node p).voteMgr.val q).logok = true)
      (intervalOk : ((s.cluster.node p).voteMgr.val q).intervalOk = true) :
      q ∈ (s.after p (.recv (.requestVoteReply msg) now) tag n).backers m p :=
    mem_backers_after (polls.backed p mem candidate preVoting q memQ logok intervalOk) rfl
  by_cases same : q = msg.src
  · subst same
    simp only [decide_true, Bool.true_and] at logok intervalOk
    obtain ⟨answer, -⟩ := sound pre candidate preVoting term reqTerm
    rcases answer with ⟨current, favours⟩ | none_ | none_ | both
    · exact mem_backers_reply memQ current favours
    · exact absurd (logok.symm.trans none_) nofun
    · exact absurd (intervalOk.symm.trans none_) nofun
    · rw [Bool.and_eq_true] at both
      exact before both.1 both.2
  · simp only [same, decide_false, Bool.false_and, Bool.or_false] at logok intervalOk
    exact before logok intervalOk

/-- If the check passes, the backers make a strict majority. -/
theorem majority_backs (polls : Polls m s) (meets : m.Intersecting) (mem : p ∈ m.members)
    {msg : RequestVoteReply} {now : ℤ} (peer : msg.src ∈ m.peersOf p)
    (sound : s.Sound m p (.recv (.requestVoteReply msg) now) tag) (pre : msg.preVote = true)
    (term : msg.term = (s.cluster.node p).solid.term)
    (reqTerm : msg.reqTerm = (s.cluster.node p).solid.term)
    (candidate : (s.cluster.node p).state = .candidate)
    (preVoting : (s.cluster.node p).preVoting = true) (logOk : msg.logOk = true)
    (majority : ((s.cluster.node p).voteMgr.noted msg).majorityPreVoteOK true = true) :
    m.size < 2 * (1 + ((s.after p (.recv (.requestVoteReply msg) now) tag n).backers m p).length) := by
  set noted := (s.cluster.node p).voteMgr.noted msg with noted_eq
  have peers : (s.cluster.node p).voteMgr.keys = m.peersOf p := (polls.agrees p mem).1.keys
  have keys : noted.keys = m.peersOf p := by
    rw [noted_eq, noted_keys (by rwa [peers]), peers]
  have backs (q : Addr) (memQ : q ∈ m.peersOf p) (both : ((noted.val q).logok &&
      (noted.val q).intervalOk) = true) :
      q ∈ (s.after p (.recv (.requestVoteReply msg) now) tag n).backers m p := by
    rw [Bool.and_eq_true] at both
    exact backed_noted polls mem sound pre term reqTerm candidate preVoting memQ both.1 both.2
  have count : noted.count (fun item => item.logok && item.intervalOk) ≤
      ((s.after p (.recv (.requestVoteReply msg) now) tag n).backers m p).length := by
    rw [Table.count, keys, backers, ← List.countP_eq_length_filter]
    refine List.countP_mono_left fun q memQ both => ?_
    exact (List.mem_filter.mp (backs q memQ both)).2
  have reached := of_decide_eq_true majority
  rw [keys, Membership.length_peersOf mem, if_pos rfl] at reached
  rcases meets with ⟨k, odd⟩ | two
  · omega
  · obtain ⟨-, together⟩ := sound pre candidate preVoting term reqTerm
    have flags := noted_val (s.cluster.node p).voteMgr msg msg.src
    have backed : msg.src ∈ (s.after p (.recv (.requestVoteReply msg) now) tag n).backers m p := by
      refine backs msg.src peer ?_
      rw [noted_eq, flags.1, flags.2]
      simpa [logOk] using together two logOk
    have positive := List.length_pos_of_mem backed
    omega

/-- The timer of a member enters a round, unless it stands by. -/
theorem electionTimer_cases (polls : Polls m s) (two : 2 ≤ m.size) (mem : p ∈ m.members)
    (done : (s.cluster.node p).elect = .ok n) :
    (s.cluster.node p).entersRound .electionTimer = false ∧ (s.cluster.node p).seat.GoesOn n.seat ∨
    (s.cluster.node p).entersRound .electionTimer = true ∧
      n = Node.doPreVote { s.cluster.node p with preVoting := true } := by
  have peers : 0 < (s.cluster.node p).peers.length := by
    have all := Membership.length_peersOf mem
    rw [show (s.cluster.node p).peers = m.peersOf p from
      congrArg RaftConfig.peers (polls.agrees p mem).2.1.current]
    omega
  have enabled := polls.enabled p mem
  obtain ⟨n₁, checked, ended⟩ := ok_of_bind_ok done
  obtain ⟨-, rfl⟩ := of_check_ok checked
  split at ended
  · rename_i standby
    obtain rfl := Except.ok.inj ended
    exact .inl ⟨by simp [Node.entersRound, standby], rfl, rfl, fun _ => ⟨rfl, rfl⟩, id, .inl rfl⟩
  · rename_i active
    rw [if_pos ⟨enabled, peers⟩] at ended
    exact .inr ⟨by simp [Node.entersRound, active, enabled, peers], (Except.ok.inj ended).symm⟩

/-- What a handler does to the candidacy of its node. -/
inductive Handles (n₀ : Node) (input : Input) (n : Node) : Prop
  | goesOn (stays : n₀.entersRound input = false) (goesOn : n₀.seat.GoesOn n.seat)
  | enters (enters : n₀.entersRound input = true)
      (entered : n = Node.doPreVote { n₀ with preVoting := true })
  | noted (msg : RequestVoteReply) (now : ℤ) (came : input = .recv (.requestVoteReply msg) now)
      (pre : msg.preVote = true) (term : msg.term = n₀.solid.term)
      (reqTerm : msg.reqTerm = n₀.solid.term)
      (noted : n = { n₀ with
        timerMgr := n₀.timerMgr.stopRequestVoteOf msg.src, voteMgr := n₀.voteMgr.noted msg })
  | passes (msg : RequestVoteReply) (now : ℤ) (came : input = .recv (.requestVoteReply msg) now)
      (pre : msg.preVote = true) (term : msg.term = n₀.solid.term)
      (reqTerm : msg.reqTerm = n₀.solid.term) (logOk : msg.logOk = true)
      (majority : (n₀.voteMgr.noted msg).majorityPreVoteOK true = true)
      (candidate : n₀.state = .candidate) (preVoting : n₀.preVoting = true)
      (finished : n.preVoting = false) (enabled : n.enablePreVote = n₀.enablePreVote)
  | set (flags : Flags) (came : input = .setFlags flags)
      (set : n = { n₀ with
        enablePreVote := flags.enablePreVote
        intervalCheck := flags.intervalCheck
        standby := flags.standby })

theorem handles (polls : Polls m s) (two : 2 ≤ m.size) (mem : p ∈ m.members)
    (enabled : s.cluster.Enabled m p input) (done : (s.cluster.node p).handle input = .ok n) :
    Handles (s.cluster.node p) input n := by
  by_cases timer : input = .electionTimer
  · subst timer
    rcases electionTimer_cases polls two mem done with ⟨stays, goesOn⟩ | ⟨enters, entered⟩
    · exact .goesOn stays goesOn
    · exact .enters enters entered
  by_cases reply : ∃ msg now, input = .recv (.requestVoteReply msg) now
  · obtain ⟨msg, now, rfl⟩ := reply
    rcases onRequestVoteReply_cases done with goesOn | ⟨pre, term, reqTerm, noted | passes⟩
    · exact .goesOn rfl goesOn
    · exact .noted msg now rfl pre term reqTerm noted
    · obtain ⟨logOk, majority, candidate, preVoting, finished, enabled⟩ := passes
      exact .passes msg now rfl pre term reqTerm logOk majority candidate preVoting finished enabled
  by_cases flags : ∃ flags, input = .setFlags flags
  · obtain ⟨flags, rfl⟩ := flags
    exact .set flags rfl (Except.ok.inj done).symm
  · obtain ⟨-, effects, -, turns⟩ :=
      (handle_turned (polls.agrees p mem).2.1 (polls.agrees.sane enabled)).of_ok done
    refine .goesOn ?_ (turns.goesOn timer (fun msg now came => reply ⟨msg, now, came⟩)
      fun f came => flags ⟨f, came⟩)
    unfold Node.entersRound
    split
    · exact absurd rfl timer
    · rfl

/-- A handler with a sound input keeps the backers in agreement with the flags. -/
theorem Polls.after (polls : Polls m s) (two : 2 ≤ m.size) (mem : p ∈ m.members)
    (enabled : s.cluster.Enabled m p input) (carried : s.Carried tag input)
    (sound : s.Sound m p input tag) (done : (s.cluster.node p).handle input = .ok n) :
    Polls m (s.after p input tag n) := by
  have node_self : (s.after p input tag n).cluster.node p = { n with effects := [] } :=
    Function.update_self ..
  have node_other {q : Addr} (ne : q ≠ p) :
      (s.after p input tag n).cluster.node q = s.cluster.node q := Function.update_of_ne ne ..
  have handled := handles polls two mem enabled done
  refine ⟨polls.agrees.step (.handle p mem input enabled n done), fun q memQ => ?_,
    fun q memQ candidate preVoting r memR logok intervalOk => ?_⟩
  · by_cases same : q = p
    · subst same
      rw [node_self]
      show n.enablePreVote = true
      have before := polls.enabled q mem
      cases handled with
      | goesOn stays goesOn => exact goesOn.enablePreVote.trans before
      | enters enters entered => rw [entered]; exact before
      | noted msg now came pre term reqTerm noted => rw [noted]; exact before
      | passes msg now came pre term reqTerm logOk majority candidate preVoting finished enabled =>
          rw [enabled]; exact before
      | set flags came set =>
          subst came
          rw [set]
          exact carried
    · rw [node_other same]
      exact polls.enabled q memQ
  · by_cases same : q = p
    · subst same
      rw [node_self] at candidate preVoting logok intervalOk
      cases handled with
      | goesOn stays goesOn =>
          refine mem_backers_after ?_ stays
          have flags := goesOn.flags r
          exact polls.backed q mem (goesOn.state candidate) (goesOn.preVoting.symm.trans preVoting) r
            memR (flags.1.symm.trans logok) (flags.2.symm.trans intervalOk)
      | enters enters entered =>
          rw [entered] at logok
          have cleared : ((s.cluster.node q).voteMgr.clear.val r).logok = false := by
            rw [VoteManager.clear, Table.mapValues_val]
            split <;> rfl
          exact absurd (cleared.symm.trans logok) Bool.false_ne_true
      | noted msg now came pre term reqTerm noted =>
          subst came
          rw [noted] at candidate preVoting logok intervalOk
          exact backed_noted polls mem sound pre term reqTerm candidate preVoting memR logok intervalOk
      | passes msg now came pre term reqTerm logOk majority _ _ finished _ =>
          exact absurd (finished.symm.trans preVoting) Bool.false_ne_true
      | set flags came set =>
          rw [set] at candidate preVoting logok intervalOk
          refine mem_backers_after ?_ (by rw [came]; rfl)
          exact polls.backed q mem candidate preVoting r memR logok intervalOk
    · rw [node_other same] at candidate preVoting logok intervalOk
      rw [backers_after_of_ne same]
      exact polls.backed q memQ candidate preVoting r memR logok intervalOk

theorem Polls.replace (polls : Polls m s) (agrees : (s.replace p n).cluster.Agrees m)
    (enabled : n.enablePreVote = true) (backed : n.state = .candidate → n.preVoting = true →
      ∀ q ∈ m.peersOf p, (n.voteMgr.val q).logok = true → (n.voteMgr.val q).intervalOk = true →
        q ∈ s.backers m p) : Polls m (s.replace p n) := by
  have node_self : (s.replace p n).cluster.node p = { n with effects := [] } :=
    Function.update_self ..
  have node_other {q : Addr} (ne : q ≠ p) :
      (s.replace p n).cluster.node q = s.cluster.node q := Function.update_of_ne ne ..
  refine ⟨agrees, fun q memQ => ?_, fun q memQ => ?_⟩
  · by_cases same : q = p
    · subst same
      rw [node_self]
      exact enabled
    · rw [node_other same]
      exact polls.enabled q memQ
  · by_cases same : q = p
    · subst same
      rw [node_self]
      exact backed
    · rw [node_other same]
      exact polls.backed q memQ

theorem polls_of_reachable (two : 2 ≤ m.size) (reachable : s.Reachable m (Sound m)) :
    Polls m s := by
  obtain ⟨flags, enabled, run⟩ := reachable
  induction run with
  | refl => exact ⟨Cluster.agrees_init flags, fun p _ => enabled p, nofun⟩
  | tail _ step polls =>
      have agrees := polls.agrees.step (longStep_of_step step)
      cases step with
      | handle p mem input tag enabled carried comes n done =>
          exact polls.after two mem enabled carried comes done
      | restart p mem flags enables => exact polls.replace agrees enables nofun
      | compact p mem to_ =>
          exact polls.replace agrees (polls.enabled p mem) (polls.backed p mem)

/-- If vote replies are sound, a term is increased through `DoRequestVote` only with a
strict majority behind it, for an odd number of members and for two. -/
theorem pre_vote_protects (meets : m.Intersecting) (two : 2 ≤ m.size)
    (reachable : s.Reachable m (Sound m)) (mem : p ∈ m.members)
    (enabled : s.cluster.Enabled m p input) (sound : s.Sound m p input tag)
    (done : (s.cluster.node p).handle input = .ok n) (stands : (s.cluster.node p).Stands n) :
    m.size < 2 * (1 + ((s.after p input tag n).backers m p).length) := by
  have polls := polls_of_reachable two reachable
  obtain ⟨later, leads⟩ := stands
  cases handles polls two mem enabled done with
  | goesOn stays goesOn =>
      rcases goesOn.term with term | follower
      · exact absurd term later.ne'
      · exact absurd follower leads
  | enters enters entered =>
      rw [entered] at later
      exact absurd later (lt_irrefl _)
  | noted msg now came pre term reqTerm noted =>
      rw [noted] at later
      exact absurd later (lt_irrefl _)
  | passes msg now came pre term reqTerm logOk majority candidate preVoting finished _ =>
      subst came
      have peer := ((polls.agrees.arrives enabled).replies msg now rfl).1
      exact majority_backs polls meets mem peer sound pre term reqTerm candidate preVoting logOk
        majority
  | set flags came set =>
      rw [set] at later
      exact absurd later (lt_irrefl _)

/-! ## Schedules -/

instance (n n' : Node) : Decidable (n.Stands n') :=
  inferInstanceAs (Decidable (_ ∧ _))

instance (s : Polling) (tag : ℕ) (input : Input) : Decidable (s.Carried tag input) :=
  match input with
  | .recv _ _ => inferInstanceAs (Decidable (_ ∈ _))
  | .setFlags _ => inferInstanceAs (Decidable (_ = _))
  | .electionTimer => inferInstanceAs (Decidable True)
  | .requestVoteTimer _ => inferInstanceAs (Decidable True)
  | .heartbeatTimer _ => inferInstanceAs (Decidable True)
  | .propose _ => inferInstanceAs (Decidable True)
  | .leaderTransfer _ => inferInstanceAs (Decidable True)

instance (s : Polling) (p : Addr) (input : Input) (tag : ℕ) : Decidable (s.Sound m p input tag) :=
  match input with
  | .recv (.requestVoteReply _) _ =>
      inferInstanceAs (Decidable (_ → _ → _ → _ → _ → (_ ∨ _ ∨ _ ∨ _) ∧ (_ → _ → _)))
  | .recv (.requestVote _) _ => inferInstanceAs (Decidable True)
  | .recv (.appendEntries _) _ => inferInstanceAs (Decidable True)
  | .recv (.appendEntriesReply _) _ => inferInstanceAs (Decidable True)
  | .recv (.timeoutNow _) _ => inferInstanceAs (Decidable True)
  | .recv (.installSnapshot _) _ => inferInstanceAs (Decidable True)
  | .recv (.installSnapshotReply _) _ => inferInstanceAs (Decidable True)
  | .setFlags _ => inferInstanceAs (Decidable True)
  | .electionTimer => inferInstanceAs (Decidable True)
  | .requestVoteTimer _ => inferInstanceAs (Decidable True)
  | .heartbeatTimer _ => inferInstanceAs (Decidable True)
  | .propose _ => inferInstanceAs (Decidable True)
  | .leaderTransfer _ => inferInstanceAs (Decidable True)

instance (s : Polling) (p : Addr) (input : Input) (tag : ℕ) : Decidable (Any s p input tag) :=
  inferInstanceAs (Decidable True)

/-- The round of the first message that looks like the input. -/
def tagOf (s : Polling) : Input → ℕ
  | .recv msg _ => ((s.sent.find? fun sent => decide (sent.1 = msg)).map Prod.snd).getD 0
  | _ => 0

section Play

variable (m) (allowed) [∀ s p input tag, Decidable (allowed s p input tag)]

/-- Make a move if it is allowed and ends in no assert. -/
def move (s : Polling) (next : Cluster.Move) : Option Polling :=
  match next.resolve s.cluster with
  | none => none
  | some (p, input) =>
      if p ∈ m.members ∧ s.cluster.Enabled m p input ∧ s.Carried (s.tagOf input) input ∧
          allowed s p input (s.tagOf input) then
        match (s.cluster.node p).handle input with
        | .ok n => some (s.after p input (s.tagOf input) n)
        | .error _ => none
      else none

/-- Make the moves of a schedule. -/
def play (s : Polling) : List Cluster.Move → Option Polling
  | [] => some s
  | next :: rest => (s.move m allowed next).bind fun s' => s'.play rest

theorem run_of_play {schedule : List Cluster.Move} (played : s.play m allowed schedule = some s') :
    Run m allowed s s' := by
  induction schedule generalizing s with
  | nil =>
      obtain rfl := Option.some.inj played
      exact .refl
  | cons next rest ih =>
      obtain ⟨mid, moved, played⟩ := Option.bind_eq_some_iff.mp played
      refine .head ?_ (ih played)
      unfold move at moved
      split at moved
      · contradiction
      · split at moved
        · rename_i ready
          split at moved
          · rename_i n done
            obtain rfl := Option.some.inj moved
            exact .handle _ ready.1 _ _ ready.2.1 ready.2.2.1 ready.2.2.2 n done
          · contradiction
        · contradiction

end Play

/-- Three members with pre-votes. -/
def trio : Polling :=
  start (.upTo 3) fun _ => { enablePreVote := true, intervalCheck := false, standby := false }

/-- `1` asks `2` in a round. -/
def asking : List Cluster.Move :=
  [.handle 1 .electionTimer, .handle 1 (.requestVoteTimer 2), .deliver 1]

/-- The last message of `2` is delivered, and it makes `1` stand. -/
def standsNext (s : Polling) : Option (Input × Node) :=
  match Cluster.Move.resolve s.cluster (.deliver 2) with
  | some (1, input) =>
      match (s.cluster.node 1).handle input with
      | .ok n => if s.cluster.Enabled (.upTo 3) 1 input ∧ s.Carried (s.tagOf input) input ∧
          (s.cluster.node 1).Stands n then some (input, n) else none
      | .error _ => none
  | _ => none

theorem standsNext_some {found : Input × Node} (next : s.standsNext = some found) :
    (s.cluster.node 1).handle found.1 = .ok found.2 ∧ s.cluster.Enabled (.upTo 3) 1 found.1 ∧
      s.Carried (s.tagOf found.1) found.1 ∧ (s.cluster.node 1).Stands found.2 := by
  unfold standsNext at next
  split at next
  · split at next
    · rename_i n done
      split at next
      · rename_i ready
        obtain rfl := Option.some.inj next
        exact ⟨done, ready⟩
      · contradiction
    · contradiction
  · contradiction

theorem pre_vote_protects_three : ∃ (s : Polling) (input : Input) (n : Node),
    s.Reachable (.upTo 3) (Sound (.upTo 3)) ∧
    (s.cluster.node 1).handle input = .ok n ∧ (s.cluster.node 1).Stands n ∧
    3 < 2 * (1 + ((s.after 1 input (s.tagOf input) n).backers (.upTo 3) 1).length) := by
  have observed : ((trio.play (.upTo 3) (Sound (.upTo 3)) asking).bind fun s =>
      s.standsNext.filter fun found => decide (s.Sound (.upTo 3) 1 found.1 (s.tagOf found.1))).isSome =
        true := by decide +kernel
  obtain ⟨found, observed⟩ := Option.isSome_iff_exists.mp observed
  obtain ⟨s, played, next⟩ := Option.bind_eq_some_iff.mp observed
  obtain ⟨next, sound⟩ := Option.filter_eq_some_iff.mp next
  obtain ⟨done, enabled, -, stands⟩ := standsNext_some next
  have reachable : s.Reachable (.upTo 3) (Sound (.upTo 3)) :=
    ⟨_, fun _ => rfl, run_of_play _ _ played⟩
  exact ⟨s, found.1, found.2, reachable, done, stands,
    pre_vote_protects (.inl (by decide)) (by decide) reachable (by decide) enabled
      (of_decide_eq_true sound) done stands⟩

/-- A reply of the first round, delivered in the second one, makes the candidate stand
without anybody behind it. -/
theorem pre_vote_stale : ¬∀ (m : Membership) (s : Polling) (p : Addr) (input : Input) (tag : ℕ)
    (n : Node), 2 ≤ m.size → s.Reachable m Any → p ∈ m.members → s.cluster.Enabled m p input →
      s.Carried tag input → (s.cluster.node p).handle input = .ok n →
        (s.cluster.node p).Stands n → m.size < 2 * (1 + ((s.after p input tag n).backers m p).length) := by
  intro all
  have observed : ((trio.play (.upTo 3) Any (asking ++ [.handle 1 .electionTimer])).bind fun s =>
      s.standsNext.filter fun found =>
        decide ((s.after 1 found.1 (s.tagOf found.1) found.2).backers (.upTo 3) 1 = [])).isSome =
          true := by decide +kernel
  obtain ⟨found, observed⟩ := Option.isSome_iff_exists.mp observed
  obtain ⟨s, played, next⟩ := Option.bind_eq_some_iff.mp observed
  obtain ⟨next, nobody⟩ := Option.filter_eq_some_iff.mp next
  obtain ⟨done, enabled, carried, stands⟩ := standsNext_some next
  have reachable : s.Reachable (.upTo 3) Any := ⟨_, fun _ => rfl, run_of_play _ _ played⟩
  have backed := all (.upTo 3) s 1 found.1 (s.tagOf found.1) found.2 (by decide) reachable (by decide)
    enabled carried done stands
  rw [of_decide_eq_true nobody] at backed
  exact absurd backed (by decide)

end Polling

end Vraft
