import Vraft.Util.Decoding

/-!
# The work queue

`WorkThread` of `seda/work_thread.cc`.  Producers push functors one by one, and one
consumer takes all of them at once and runs them outside the lock.  A critical section is
one step, and so is a functor.  The flag of the loop is cleared by a functor, too.
-/

namespace Vraft

namespace WorkThread

/-- What is pushed: a job, or the functor of `Stop`. -/
inductive Functor (α : Type)
  | job (id : α)
  | stop
  deriving DecidableEq

/-- What a functor makes of `started_`. -/
def Functor.apply {α : Type} : Functor α → Bool → Bool
  | job _, started => started
  | stop, _ => false

/-- Where `Run` is. -/
inductive RunAt
  | outside
  /-- Before the condition of the loop. -/
  | condition
  /-- Before the critical section. -/
  | waiting
  /-- In the loop over the functors that were taken. -/
  | working
  | returned
  deriving DecidableEq

end WorkThread

/-- `WorkThread`: its queue, the batch it works on and where its thread stands. -/
structure WorkThread (α : Type) where
  maxQueueSize : Int32
  started : Bool
  functors : List (WorkThread.Functor α)
  /-- What is left of `tmp_functors`. -/
  tmpFunctors : List (WorkThread.Functor α)
  run : WorkThread.RunAt
  /-- All that has been pushed, in this order. -/
  enqueued : List (WorkThread.Functor α)
  /-- All that has been run, in this order. -/
  executed : List (WorkThread.Functor α)

namespace WorkThread

variable {α : Type}

/-- `static_cast<size_t>(max_queue_size)`. -/
def capacity (maxQueueSize : Int32) : ℕ :=
  sizeT maxQueueSize.toInt

/-- The constructor. -/
def new (maxQueueSize : Int32) : WorkThread α :=
  ⟨maxQueueSize, false, [], [], .outside, [], []⟩

/-- `WorkThread::Start`. -/
def start (t : WorkThread α) : WorkThread α :=
  { t with started := true, run := .condition }

/-- `WorkThread::Push`. -/
def push (t : WorkThread α) (func : Functor α) : WorkThread α :=
  { t with functors := t.functors ++ [func], enqueued := t.enqueued ++ [func] }

/-- `while (started_)`. -/
def test (t : WorkThread α) : WorkThread α :=
  { t with run := if t.started then .waiting else .returned }

/-- The thread takes the whole queue. -/
def swap (t : WorkThread α) : WorkThread α :=
  { t with functors := [], tmpFunctors := t.functors, run := .working }

/-- The thread calls the first functor that is left. -/
def execute (t : WorkThread α) (item : Functor α) (rest : List (Functor α)) : WorkThread α :=
  { t with
    started := item.apply t.started
    tmpFunctors := rest
    executed := t.executed ++ [item] }

/-- The batch is done, and the thread waits again. -/
def clear (t : WorkThread α) : WorkThread α :=
  { t with run := .condition }

/-- The steps of the producers and of the consumer.  A wait is over when its condition
holds. -/
inductive Step : WorkThread α → WorkThread α → Prop
  | start {t} (free : t.run = .outside ∨ t.run = .returned) : Step t t.start
  | push {t} (func : Functor α) (room : t.functors.length < capacity t.maxQueueSize) :
      Step t (t.push func)
  | test {t} (at_ : t.run = .condition) : Step t t.test
  | swap {t} (at_ : t.run = .waiting) (some_ : t.functors ≠ []) : Step t t.swap
  | execute {t item rest} (at_ : t.run = .working) (next : t.tmpFunctors = item :: rest) :
      Step t (t.execute item rest)
  | clear {t} (at_ : t.run = .working) (done : t.tmpFunctors = []) : Step t t.clear

/-- A state of some run of a new thread. -/
inductive Reached (maxQueueSize : Int32) : WorkThread α → Prop
  | new : Reached maxQueueSize (new maxQueueSize)
  | step {t t'} (reached : Reached maxQueueSize t) (step : Step t t') : Reached maxQueueSize t'

/-- What holds between any two steps. -/
structure Sound (maxQueueSize : Int32) (t : WorkThread α) : Prop where
  size : t.maxQueueSize = maxQueueSize
  account : t.executed ++ (t.tmpFunctors ++ t.functors) = t.enqueued
  room : t.functors.length ≤ capacity maxQueueSize
  taken : t.run ≠ .working → t.tmpFunctors = []
  stopped : t.run = .outside ∨ t.started = true ∨ .stop ∈ t.executed
  returned : t.run = .returned → .stop ∈ t.executed

theorem capacity_of_nonneg {maxQueueSize : Int32} (nonneg : 0 ≤ maxQueueSize.toInt) :
    (capacity maxQueueSize : ℤ) = maxQueueSize.toInt := by
  have bound := maxQueueSize.toInt_lt
  rw [capacity, sizeT]
  omega

theorem sound_new (maxQueueSize : Int32) : Sound maxQueueSize (new maxQueueSize : WorkThread α) where
  size := rfl
  account := rfl
  room := Nat.zero_le _
  taken _ := rfl
  stopped := .inl rfl
  returned at_ := by contradiction

/-- Every step keeps the account. -/
theorem Sound.step {maxQueueSize : Int32} {t t' : WorkThread α} (sound : Sound maxQueueSize t)
    (step : Step t t') : Sound maxQueueSize t' := by
  cases step with
  | start free =>
      refine ⟨sound.size, sound.account, sound.room, fun _ => sound.taken ?_, .inr (.inl rfl),
        fun at_ => by contradiction⟩
      rcases free with at_ | at_ <;> rw [at_] <;> decide
  | push func room =>
      refine ⟨sound.size, ?_, ?_, sound.taken, sound.stopped, sound.returned⟩
      · rw [push]
        dsimp only
        rw [← sound.account, List.append_assoc, List.append_assoc]
      · rw [push, List.length_append, List.length_singleton, ← sound.size]
        exact room
  | test at_ =>
      have empty := sound.taken (by rw [at_]; decide)
      have stopped : t.started = true ∨ .stop ∈ t.executed :=
        sound.stopped.resolve_left (by rw [at_]; decide)
      refine ⟨sound.size, sound.account, sound.room, fun _ => empty, .inr stopped, fun returned => ?_⟩
      rw [test] at returned
      dsimp only at returned
      split at returned
      · contradiction
      · rename_i off
        exact stopped.resolve_left off
  | swap at_ some_ =>
      have empty := sound.taken (by rw [at_]; decide)
      have account := sound.account
      refine ⟨sound.size, ?_, Nat.zero_le _, fun off => absurd rfl off, ?_, fun at_ => by contradiction⟩
      · rw [empty, List.nil_append] at account
        rw [swap]
        dsimp only
        rw [List.append_nil, account]
      · exact .inr (sound.stopped.resolve_left (by rw [at_]; decide))
  | @execute item rest at_ next =>
      have account := sound.account
      have stopped : t.started = true ∨ .stop ∈ t.executed :=
        sound.stopped.resolve_left (by rw [at_]; decide)
      refine ⟨sound.size, ?_, sound.room, fun off => absurd at_ off, .inr ?_, fun returned => ?_⟩
      · rw [next] at account
        rw [execute, ← account]
        simp
      · cases item with
        | job id => exact stopped.imp_right (List.mem_append_left _)
        | stop => exact .inr (List.mem_append_right _ (List.mem_singleton_self _))
      · rw [execute, at_] at returned
        contradiction
  | clear at_ done =>
      refine ⟨sound.size, sound.account, sound.room, fun _ => done, ?_, fun at_ => by contradiction⟩
      exact .inr (sound.stopped.resolve_left (by rw [at_]; decide))

theorem Reached.sound {maxQueueSize : Int32} {t : WorkThread α} (reached : Reached maxQueueSize t) :
    Sound maxQueueSize t := by
  induction reached with
  | new => exact sound_new maxQueueSize
  | step _ step sound => exact sound.step step

/-- The front of a list up to an item that the list has for the first time there. -/
theorem prefix_of_mem {executed before after : List (Functor α)} {item : Functor α}
    (front : executed <+: before ++ item :: after) (mem : item ∈ executed) (first : item ∉ before) :
    before ++ [item] <+: executed := by
  have whole : before ++ [item] <+: before ++ item :: after := by
    rw [List.append_cons before item after]
    exact List.prefix_append _ _
  rcases List.prefix_or_prefix_of_prefix whole front with before_ | within
  · exact before_
  · rcases List.prefix_concat_iff.mp within with same | earlier
    · exact same ▸ List.prefix_rfl
    · exact absurd (earlier.subset mem) first

/-- In every state that producers and the consumer reach: functors are run in the order of
their enqueuing, none is lost or repeated, the queue keeps its size, and when `Run` has
returned, the first `Stop` and all that was pushed before it have been run. -/
theorem runs_in_order {maxQueueSize : Int32} {t : WorkThread α} (reached : Reached maxQueueSize t) :
    t.executed <+: t.enqueued ∧ t.functors.length ≤ capacity maxQueueSize ∧
      (0 ≤ maxQueueSize.toInt → (t.functors.length : ℤ) ≤ maxQueueSize.toInt) ∧
      (t.run = .returned → .stop ∈ t.executed ∧
        ∀ before after, t.enqueued = before ++ .stop :: after → .stop ∉ before →
          before ++ [.stop] <+: t.executed) := by
  have sound := reached.sound
  have front : t.executed <+: t.enqueued := ⟨_, sound.account⟩
  refine ⟨front, sound.room, fun nonneg => ?_, fun returned => ⟨sound.returned returned, ?_⟩⟩
  · rw [← capacity_of_nonneg nonneg]
    exact Nat.cast_le.mpr sound.room
  intro before after enqueued first
  rw [enqueued] at front
  exact prefix_of_mem front (sound.returned returned) first

/-- Two jobs with a `Stop` between them, taken at once. -/
def stopped : WorkThread ℕ :=
  (((((((((new 3).start.push (.job 1)).test.push .stop).push (.job 2)).swap).execute
    (.job 1) [.stop, .job 2]).execute .stop [.job 2]).execute (.job 2) []).clear).test

theorem reached_stopped : Reached 3 stopped := by
  have started : Reached 3 (new 3 : WorkThread ℕ).start := Reached.new.step (.start (.inl rfl))
  have first := started.step (.push (.job 1) (by decide))
  have stop := (first.step (.test rfl)).step (.push .stop (by decide))
  have second := stop.step (.push (.job 2) (by decide))
  have taken := second.step (.swap rfl (by decide))
  have one := taken.step (.execute rfl rfl)
  have two := one.step (.execute rfl rfl)
  have three := two.step (.execute rfl rfl)
  exact (three.step (.clear rfl rfl)).step (.test rfl)

/-- The job behind the `Stop` has been run as well. -/
theorem runs_in_order_stopped : stopped.executed = [.job 1, .stop, .job 2] ∧
    [.job 1, .stop] <+: stopped.executed :=
  ⟨rfl, ((runs_in_order reached_stopped).2.2.2 rfl).2 [.job 1] [.job 2] rfl (by decide)⟩

end WorkThread

end Vraft
