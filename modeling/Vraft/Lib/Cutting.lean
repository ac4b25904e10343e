import Mathlib.Data.List.Basic

/-!
# Cutting a stream into frames

A prefix of a concatenation of frames consists of the frames that are whole in it and
of a rest that belongs to the next one.  The rest and what comes after it are cut in the
same way, so it does not matter in which pieces a stream arrives.
-/

universe u v

namespace Cutting

variable {α : Type u} {β : Type v} (code : α → List β)

/-- The frames that are whole in the front of a stream, and the rest of it. -/
def cut : List α → List β → List α × List β
  | [], front => ([], front)
  | frame :: frames, front =>
      if (code frame).length ≤ front.length then
        (frame :: (cut frames (front.drop (code frame).length)).1,
          (cut frames (front.drop (code frame).length)).2)
      else ([], front)

variable {code} {frames : List α} {front : List β}

theorem cut_nil_frames : cut code [] front = ([], front) :=
  rfl

theorem cut_cons_of_le {frame : α} (whole : (code frame).length ≤ front.length) :
    cut code (frame :: frames) front =
      (frame :: (cut code frames (front.drop (code frame).length)).1,
        (cut code frames (front.drop (code frame).length)).2) :=
  if_pos whole

theorem cut_cons_of_lt {frame : α} (part : front.length < (code frame).length) :
    cut code (frame :: frames) front = ([], front) :=
  if_neg (Nat.not_le.mpr part)

theorem cut_append_code (frame : α) (rest : List β) :
    cut code (frame :: frames) (code frame ++ rest) =
      (frame :: (cut code frames rest).1, (cut code frames rest).2) := by
  rw [cut_cons_of_le (by simp), List.drop_left]

theorem cut_snd_of_none (none : (cut code frames front).1 = []) : (cut code frames front).2 = front := by
  cases frames with
  | nil => rfl
  | cons frame frames =>
      unfold cut at none ⊢
      split_ifs with whole
      · rw [if_pos whole] at none
        contradiction
      · rfl

/-- Nothing is cut from nothing if no frame is empty. -/
theorem cut_nil (nonempty : ∀ frame, 0 < (code frame).length) : cut code frames [] = ([], []) := by
  cases frames with
  | nil => rfl
  | cons frame frames => exact cut_cons_of_lt (nonempty frame)

/-- The rest of what has arrived is cut together with what comes later. -/
theorem cut_append (frames : List α) (front later : List β)
    (prefix_ : front <+: frames.flatMap code) :
    cut code frames (front ++ later) =
      ((cut code frames front).1 ++
          (cut code (frames.drop (cut code frames front).1.length)
            ((cut code frames front).2 ++ later)).1,
        (cut code (frames.drop (cut code frames front).1.length)
            ((cut code frames front).2 ++ later)).2) := by
  induction frames generalizing front with
  | nil => rfl
  | cons frame frames ih =>
      by_cases whole : (code frame).length ≤ front.length
      · rw [List.flatMap_cons] at prefix_
        obtain ⟨rest, rfl⟩ := List.prefix_of_prefix_length_le (List.prefix_append _ _) prefix_ whole
        rw [List.append_assoc, cut_append_code, cut_append_code,
          ih rest ((List.prefix_append_right_inj _).mp prefix_)]
        rfl
      · rw [cut_cons_of_lt (Nat.not_le.mp whole)]
        rfl

/-- The rest, with all that comes later, makes up the frames that have not been cut. -/
theorem rest_append (frames : List α) (front later : List β)
    (whole : front ++ later = frames.flatMap code) :
    (cut code frames front).2 ++ later =
      (frames.drop (cut code frames front).1.length).flatMap code := by
  induction frames generalizing front with
  | nil => exact whole
  | cons frame frames ih =>
      by_cases there : (code frame).length ≤ front.length
      · have before := List.prefix_append front later
        rw [whole, List.flatMap_cons] at before
        obtain ⟨rest, rfl⟩ := List.prefix_of_prefix_length_le (List.prefix_append _ _) before there
        rw [cut_append_code]
        rw [List.append_assoc, List.flatMap_cons, List.append_cancel_left_eq] at whole
        exact ih rest whole
      · rw [cut_cons_of_lt (Nat.not_le.mp there)]
        exact whole

/-- The rest, with what comes later, belongs to the frames that have not been cut. -/
theorem rest_front (frames : List α) (front later : List β)
    (prefix_ : front ++ later <+: frames.flatMap code) :
    (cut code frames front).2 ++ later <+:
      (frames.drop (cut code frames front).1.length).flatMap code := by
  obtain ⟨behind, whole⟩ := prefix_
  rw [List.append_assoc] at whole
  rw [← rest_append frames front _ whole, ← List.append_assoc]
  exact List.prefix_append _ _

/-- Nothing more can be cut from the rest. -/
theorem cut_rest (frames : List α) (front : List β) :
    cut code (frames.drop (cut code frames front).1.length) (cut code frames front).2 =
      ([], (cut code frames front).2) := by
  induction frames generalizing front with
  | nil => rfl
  | cons frame frames ih =>
      by_cases whole : (code frame).length ≤ front.length
      · rw [cut_cons_of_le whole]
        exact ih _
      · rw [cut_cons_of_lt (Nat.not_le.mp whole)]
        exact cut_cons_of_lt (Nat.not_le.mp whole)

end Cutting
