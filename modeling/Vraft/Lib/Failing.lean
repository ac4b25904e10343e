import Mathlib.Data.List.Forall2

/-!
# Code that may fail

A computation with an error value meets a postcondition when a result satisfies
it and a failure satisfies an exceptional one.  The rules follow the way such
code is put together: results, failures and sequences.
-/

universe u v w

variable {ε : Type u} {α : Type v} {β : Type v}

/-! ## Sequences -/

@[simp]
theorem ok_bind {value : α} {next : α → Except ε β} : (Except.ok value >>= next) = next value :=
  rfl

@[simp]
theorem error_bind {failure : ε} {next : α → Except ε β} :
    ((Except.error failure : Except ε α) >>= next) = .error failure :=
  rfl

theorem ok_of_bind_ok {out : Except ε α} {next : α → Except ε β} {result : β}
    (done : out >>= next = .ok result) : ∃ value, out = .ok value ∧ next value = .ok result := by
  cases out with
  | error failed => contradiction
  | ok value => exact ⟨value, rfl, done⟩

theorem error_of_bind_error {out : Except ε α} {next : α → Except ε β} {e : ε}
    (failed : out >>= next = .error e) :
    out = .error e ∨ ∃ value, out = .ok value ∧ next value = .error e := by
  cases out with
  | error _ => exact .inl (congrArg Except.error (Except.error.inj failed))
  | ok value => exact .inr ⟨value, rfl, failed⟩

/-! ## Lists -/

/-- Every item has its result. -/
theorem forall₂_of_mapM_ok {f : α → Except ε β} {items : List α} {results : List β}
    (done : items.mapM f = .ok results) :
    List.Forall₂ (fun item result => f item = .ok result) items results := by
  induction items generalizing results with
  | nil =>
      obtain rfl := Except.ok.inj done
      exact .nil
  | cons item items ih =>
      rw [List.mapM_cons] at done
      obtain ⟨result, first, done⟩ := ok_of_bind_ok done
      obtain ⟨rest, later, done⟩ := ok_of_bind_ok done
      obtain rfl := Except.ok.inj done
      exact .cons first (ih later)

theorem mapM_eq_ok_map {f : α → Except ε β} {g : α → β} {items : List α}
    (each : ∀ item ∈ items, f item = .ok (g item)) : items.mapM f = .ok (items.map g) := by
  induction items with
  | nil => rfl
  | cons item items ih =>
      rw [List.forall_mem_cons] at each
      rw [List.mapM_cons, each.1, ok_bind, ih each.2]
      rfl

theorem exists_mapM {f : α → Except ε β} {items : List α}
    (each : ∀ item ∈ items, ∃ result, f item = .ok result) :
    ∃ results, items.mapM f = .ok results := by
  induction items with
  | nil => exact ⟨[], rfl⟩
  | cons item items ih =>
      rw [List.forall_mem_cons] at each
      obtain ⟨result, first⟩ := each.1
      obtain ⟨rest, later⟩ := ih each.2
      exact ⟨result :: rest, by rw [List.mapM_cons, first, ok_bind, later]; rfl⟩

/-- Where the rounds have a result under a condition, so has the whole. -/
theorem mapM_eq_ok_iff {f : α → Except ε β} {g : α → β} {condition : α → Prop} {items : List α}
    (each : ∀ item ∈ items, ∀ result, f item = .ok result ↔ condition item ∧ result = g item)
    {results : List β} :
    items.mapM f = .ok results ↔ (∀ item ∈ items, condition item) ∧ results = items.map g := by
  constructor
  · intro done
    have rounds := forall₂_of_mapM_ok done
    clear done
    induction rounds with
    | nil => simp
    | @cons item result items results first _ ih =>
        rw [List.forall_mem_cons] at each
        obtain ⟨holds, rfl⟩ := (each.1 result).mp first
        obtain ⟨rest, rfl⟩ := ih each.2
        exact ⟨List.forall_mem_cons.mpr ⟨holds, rest⟩, rfl⟩
  · rintro ⟨holds, rfl⟩
    exact mapM_eq_ok_map fun item mem => (each item mem _).mpr ⟨holds item mem, rfl⟩

/-! ## Postconditions -/

/-- A result satisfies `post`, and a failure `fails`. -/
def Meets (out : Except ε α) (post : α → Prop) (fails : ε → Prop) : Prop :=
  match out with
  | .ok value => post value
  | .error failure => fails failure

instance (out : Except ε α) (post : α → Prop) (fails : ε → Prop) [DecidablePred post]
    [DecidablePred fails] : Decidable (Meets out post fails) :=
  match out with
  | .ok value => inferInstanceAs (Decidable (post value))
  | .error failure => inferInstanceAs (Decidable (fails failure))

namespace Meets

variable {out : Except ε α} {post : α → Prop} {fails : ε → Prop}

theorem exists_ok (meets : Meets out post fun _ => False) :
    ∃ value, out = .ok value ∧ post value := by
  cases out with
  | error failure => exact absurd meets id
  | ok value => exact ⟨value, rfl, meets⟩

theorem ok {value : α} (holds : post value) : Meets (.ok value) post fails :=
  holds

theorem error {failure : ε} (holds : fails failure) :
    Meets (.error failure : Except ε α) post fails :=
  holds

theorem of_ok (meets : Meets out post fails) {value : α} (done : out = .ok value) :
    post value := by
  subst done
  exact meets

theorem of_error (meets : Meets out post fails) {failure : ε} (failed : out = .error failure) :
    fails failure := by
  subst failed
  exact meets

theorem bind {mid : α → Prop} {next : α → Except ε β} {post : β → Prop}
    (first : Meets out mid fails) (rest : ∀ value, mid value → Meets (next value) post fails) :
    Meets (out >>= next) post fails := by
  cases out with
  | error failure => exact first
  | ok value => exact rest value first

theorem mono {weaker : α → Prop} {milder : ε → Prop} (meets : Meets out post fails)
    (results : ∀ value, post value → weaker value)
    (failures : ∀ failure, fails failure → milder failure) : Meets out weaker milder := by
  cases out with
  | error failure => exact failures failure meets
  | ok value => exact results value meets

/-- What is known of each outcome separately. -/
theorem intro_ (results : ∀ value, out = .ok value → post value)
    (failures : ∀ failure, out = .error failure → fails failure) : Meets out post fails := by
  cases out with
  | error failure => exact failures failure rfl
  | ok value => exact results value rfl

end Meets
