import Vraft.Refine.Relation

/-!
# Handlers in progress

A handler runs through many intermediate states, and a crash may catch it in
any of them.  `At` relates a node in the middle of a handler to an abstract state
reached since the handler began, and keeps for every prefix of the effects so far
an abstract state that the disk of a crash there would agree with.  `Ends` is the
postcondition of a piece of code: it ends in such a state, or it stops at one of
the asserts that guard the role of a node.
-/

namespace Vraft

open Consensus (Extends Inv Steps)

/-- Where a handler of `p` began. -/
structure Origin (m : Membership) (meets : m.Intersecting) where
  p : Addr
  mem : p ∈ m.members
  ghost : Ghost
  inv : Inv AppendEntry.term (m.quorums meets) ghost
  hist : List Effect
  disk : Disk

section Progress

variable {m : Membership} {meets : m.Intersecting}

/-- Abstract moves of `p` alone. -/
structure Moves (m : Membership) (meets : m.Intersecting) (p : Addr) (a a' : Ghost) : Prop where
  steps : Steps AppendEntry.term (m.quorums meets) a a'
  others : ∀ q, q ≠ p → Same q a a'

namespace Moves

variable {p : Addr} {a a' a'' : Ghost}

theorem refl (p : Addr) (a : Ghost) : Moves m meets p a a :=
  ⟨Relation.ReflTransGen.refl, fun q _ => Same.refl q a⟩

theorem trans (first : Moves m meets p a a') (second : Moves m meets p a' a'') :
    Moves m meets p a a'' :=
  ⟨first.steps.trans second.steps, fun q ne => (first.others q ne).trans (second.others q ne)⟩

theorem single (step : Consensus.Step AppendEntry.term (m.quorums meets) a a')
    (others : ∀ q, q ≠ p → Same q a a') : Moves m meets p a a' :=
  ⟨Relation.ReflTransGen.single step, others⟩

end Moves

/-- At every point where the effects may break off, the disk agrees with an
abstract state. -/
def Covered (o : Origin m meets) (effects : List Effect) : Prop :=
  ∀ performed, performed <+: effects → Cluster.Whole performed →
    ∃ a, Moves m meets o.p o.ghost a ∧
      Stored m meets a o.p (o.hist ++ performed) (o.disk.performAll performed)

/-- A view of the node after some effects of the handler. -/
structure Within (o : Origin m meets) (a : Ghost) (v : View) (effects : List Effect) : Prop where
  moves : Moves m meets o.p o.ghost a
  live : Live m meets a o.p (o.hist ++ effects) v
  disk : v.disk = o.disk.performAll effects
  covered : Covered o effects

/-- The handler has come to the node `n`. -/
abbrev At (o : Origin m meets) (a : Ghost) (n : Node) : Prop :=
  Within o a n.view n.effects

/-- The asserts at the head of a handler that only concern the role of the node.
They are not about the log, and nothing has been written when they fail. -/
def AssertSite.Benign (site : AssertSite) : Prop :=
  site = .electState ∨ site = .requestVoteRpcState ∨ site = .heartBeatState ∨ site = .replyState

/-- The code ends in a node that satisfies `post`, or at a benign assert. -/
def Ends (o : Origin m meets) (out : Outcome) (post : Ghost → Node → Prop) : Prop :=
  match out with
  | .ok n => ∃ a, At o a n ∧ post a n
  | .error (site, n) => site.Benign ∧ Covered o n.effects

variable {o : Origin m meets} {a a' : Ghost} {n n' : Node}

/-! ## Histories -/

theorem Live.append {p : Addr} {hist effects : List Effect} {v : View}
    (live : Live m meets a p hist v) (silent : appliedEntries effects = [])
    (ok : ∀ effect ∈ effects, EffectOk m meets a p effect) :
    Live m meets a p (hist ++ effects) v :=
  { live with
    applied := by
      rw [appliedEntries_append, silent, List.append_nil]
      exact live.applied
    effects := fun effect mem => by
      rcases List.mem_append.mp mem with mem | mem
      · exact live.effects effect mem
      · exact ok effect mem }

/-- Effects that no crash separates. -/
def Unbroken (effects : List Effect) : Prop :=
  ∀ performed, performed <+: effects → performed ≠ [] → Cluster.Whole performed →
    performed = effects

theorem unbroken_nil : Unbroken [] := by
  intro performed sub nonempty
  exact absurd (List.prefix_nil.mp sub) nonempty

theorem unbroken_singleton (effect : Effect) : Unbroken [effect] := by
  intro performed sub nonempty _
  rcases List.prefix_cons_iff.mp sub with empty | ⟨rest, rfl, tail⟩
  · exact absurd empty nonempty
  · rw [List.prefix_nil.mp tail]

/-- The term and the vote that goes with it are separated by no crash
considered here. -/
theorem unbroken_termVote (term : ℕ) (vote : Addr) :
    Unbroken [.persistTerm term, .persistVote vote] := by
  intro performed sub nonempty whole
  rcases List.prefix_cons_iff.mp sub with empty | ⟨rest, rfl, tail⟩
  · exact absurd empty nonempty
  · rcases List.prefix_cons_iff.mp tail with rfl | ⟨rest, rfl, end_⟩
    · exact absurd rfl (whole term)
    · rw [List.prefix_nil.mp end_]

theorem performAll_append (disk : Disk) (first second : List Effect) :
    disk.performAll (first ++ second) = (disk.performAll first).performAll second :=
  List.foldl_append

theorem Covered.append {effects more : List Effect} (covered : Covered o effects)
    (unbroken : Unbroken more) (moves : Moves m meets o.p o.ghost a)
    (stored : Stored m meets a o.p (o.hist ++ (effects ++ more))
      (o.disk.performAll (effects ++ more))) : Covered o (effects ++ more) := by
  intro performed sub whole
  rcases le_total performed.length effects.length with shorter | longer
  · exact covered performed
      (List.prefix_of_prefix_length_le sub (List.prefix_append _ _) shorter) whole
  · obtain ⟨rest, rfl⟩ := List.prefix_of_prefix_length_le (List.prefix_append _ _) sub longer
    have sub : rest <+: more := (List.prefix_append_right_inj effects).mp sub
    by_cases empty : rest = []
    · subst empty
      exact covered _ (by simp) whole
    · have rest_whole : Cluster.Whole rest := by
        intro term last
        refine whole term ?_
        rw [List.getLast?_append, last]
        rfl
      obtain rfl := unbroken rest sub empty rest_whole
      exact ⟨a, moves, stored⟩

/-! ## Steps of a handler -/

theorem Within.inv {v : View} {effects : List Effect} (at_ : Within o a v effects) :
    Inv AppendEntry.term (m.quorums meets) a :=
  o.inv.steps at_.moves.steps

theorem Within.extends {v : View} {effects : List Effect} (at_ : Within o a v effects) :
    Extends o.ghost a :=
  Extends.of_steps o.inv at_.moves.steps

/-- The node performs effects that belong together. -/
theorem At.advance (at_ : At o a n) (moves : Moves m meets o.p a a') {effects : List Effect}
    (unbroken : Unbroken effects) (effects_eq : n'.effects = n.effects ++ effects)
    (disk_eq : n'.disk = n.disk.performAll effects)
    (live : Live m meets a' o.p (o.hist ++ n.effects ++ effects) n'.view) : At o a' n' := by
  have disk : n'.disk = o.disk.performAll (n.effects ++ effects) := by
    rw [performAll_append, ← at_.disk]
    exact disk_eq
  rw [List.append_assoc] at live
  have stored := live.toStored
  rw [show n'.view.disk = _ from disk] at stored
  refine ⟨at_.moves.trans moves, ?_, ?_, ?_⟩
  · rw [effects_eq]
    exact live
  · rw [effects_eq]
    exact disk
  · rw [effects_eq]
    exact at_.covered.append unbroken (at_.moves.trans moves) stored

/-- The node performs effects that apply nothing. -/
theorem At.write (at_ : At o a n) (moves : Moves m meets o.p a a') {effects : List Effect}
    (unbroken : Unbroken effects) (effects_eq : n'.effects = n.effects ++ effects)
    (disk_eq : n'.disk = n.disk.performAll effects) (silent : appliedEntries effects = [])
    (ok : ∀ effect ∈ effects, EffectOk m meets a' o.p effect)
    (live : Live m meets a' o.p (o.hist ++ n.effects) n'.view) : At o a' n' :=
  at_.advance moves unbroken effects_eq disk_eq (live.append silent ok)

/-- The node changes without an effect. -/
theorem At.quiet (at_ : At o a n) (effects_eq : n'.effects = n.effects)
    (disk_eq : n'.disk = n.disk)
    (live : Live m meets a o.p (o.hist ++ n.effects) n'.view) : At o a n' :=
  at_.write (Moves.refl _ _) unbroken_nil (by simpa using effects_eq) disk_eq rfl
    (by simp) live

/-- Only the history of the protocol moves. -/
theorem At.shift (at_ : At o a n) (moves : Moves m meets o.p a a') (same : Same o.p a a') :
    At o a' n :=
  ⟨at_.moves.trans moves, at_.live.mono at_.inv moves.steps same, at_.disk, at_.covered⟩

/-- The node performs an effect that no disk sees. -/
theorem At.emit (at_ : At o a n) {e : Effect} (ok : EffectOk m meets a o.p e)
    (silent : appliedEntries [e] = [])
    (disk_eq : n.disk.perform e = n.disk) : At o a (n.emit e) :=
  at_.write (Moves.refl _ _) (unbroken_singleton e) rfl disk_eq.symm silent (by simpa using ok)
    at_.live

theorem At.send (at_ : At o a n) {msg : Message} (src : msg.src = o.p)
    (ok : MessageOk m meets a msg) : At o a (n.send msg) :=
  at_.emit ⟨src, ok⟩ rfl rfl

/-! ## Outcomes -/

theorem Ends.ok {post : Ghost → Node → Prop} (at_ : At o a n) (holds : post a n) :
    Ends o (.ok n) post :=
  ⟨a, at_, holds⟩

theorem Ends.bind {out : Outcome} {next : Node → Outcome} {w post : Ghost → Node → Prop}
    (first : Ends o out w)
    (rest : ∀ {a n}, At o a n → w a n → Ends o (next n) post) :
    Ends o (out >>= next) post := by
  cases out with
  | error failed => exact first
  | ok n =>
      obtain ⟨a, at_, holds⟩ := first
      exact rest at_ holds

theorem Ends.weaken {out : Outcome} {mid post : Ghost → Node → Prop} (first : Ends o out mid)
    (weaker : ∀ {a n}, At o a n → mid a n → post a n) : Ends o out post := by
  cases out with
  | error failed => exact first
  | ok n =>
      obtain ⟨a, at_, holds⟩ := first
      exact ⟨a, at_, weaker at_ holds⟩

/-- Whatever the code has written when it ends is covered. -/
theorem Ends.covered {out : Outcome} {post : Ghost → Node → Prop} (ends : Ends o out post) :
    Covered o out.node.effects := by
  cases out with
  | error failed => exact ends.2
  | ok n =>
      obtain ⟨a, at_, -⟩ := ends
      exact at_.covered

/-- No postcondition but the relation itself. -/
abbrev Settles (o : Origin m meets) (out : Outcome) : Prop :=
  Ends o out fun _ _ => True

theorem Settles.ok (at_ : At o a n) : Settles o (.ok n) :=
  ⟨a, at_, trivial⟩

@[simp]
theorem ok_bind {ε α β : Type} (x : α) (next : α → Except ε β) :
    ((Except.ok x : Except ε α) >>= next) = next x :=
  rfl

theorem Node.check_of {site : AssertSite} {c : Prop} [Decidable c] (holds : c) :
    n.check site c = .ok n := by
  simp [Node.check, holds]

/-- An assert about the role may fail. -/
theorem Ends.guard {site : AssertSite} {c : Prop} [Decidable c] {next : Node → Outcome}
    {post : Ghost → Node → Prop} (at_ : At o a n) (benign : site.Benign)
    (rest : c → Ends o (next n) post) : Ends o (n.check site c >>= next) post := by
  by_cases holds : c
  · rw [Node.check_of holds, ok_bind]
    exact rest holds
  · simp only [Node.check, holds, if_false]
    exact ⟨benign, at_.covered⟩

end Progress

end Vraft
