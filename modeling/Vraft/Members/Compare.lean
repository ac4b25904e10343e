import Vraft.Members.Change

/-!
# Comparing configurations

`ConfigCompare` tests equality of two configurations as they are written, but
inclusion of their sets of members.  So it decides the relation of the sets except
for one case: the same members written in two ways count as more.
-/

namespace Vraft

namespace RaftConfig

variable {c1 c2 : RaftConfig}

/-- The code and the difference that belong to the two sets of members. -/
structure Decides (c1 c2 : RaftConfig) (result : ℤ × List Addr) : Prop where
  equal : result.1 = 0 ↔ c1.SameMembers c2
  inside : result.1 = -1 ↔ c1.Within c2
  around : result.1 = 1 ↔ c2.Within c1
  apart : result.1 = -2 ↔ ¬c1.SameMembers c2 ∧ ¬c1.Within c2 ∧ ¬c2.Within c1
  once : result.2.Nodup
  more : result.1 = -1 → ∀ addr, addr ∈ result.2 ↔ addr ∈ c2.toVector ∧ addr ∉ c1.toVector
  fewer : result.1 = 1 → ∀ addr, addr ∈ result.2 ↔ addr ∈ c1.toVector ∧ addr ∉ c2.toVector
  none_ : result.1 = 0 ∨ result.1 = -2 → result.2 = []

theorem sameMembers_iff : c1.SameMembers c2 ↔ c1.iamIn c2 = true ∧ c2.iamIn c1 = true := by
  rw [iamIn_iff, iamIn_iff]
  constructor
  · exact fun same => ⟨fun addr => (same addr).mp, fun addr => (same addr).mpr⟩
  · exact fun both addr => ⟨fun mem => both.1 mem, fun mem => both.2 mem⟩

theorem within_iff : c1.Within c2 ↔ c1.iamIn c2 = true ∧ c2.iamIn c1 = false := by
  rw [Within, ← iamIn_iff, ← iamIn_iff, Bool.not_eq_true]

theorem missingFrom_nodup (nodup : c2.toVector.Nodup) : (c1.missingFrom c2).Nodup :=
  nodup.filter _

/-- Configurations written in the same way. -/
theorem decides_self : Decides c1 c1 (configCompare c1 c1) := by
  have result : configCompare c1 c1 = (0, []) := if_pos rfl
  have same : c1.SameMembers c1 := .refl c1
  have strict : ¬c1.Within c1 := fun within => within.2 fun _ => id
  rw [result]
  refine ⟨?_, ?_, ?_, ?_, List.nodup_nil, ?_, ?_, fun _ => rfl⟩ <;> simp [same, strict]

/-- Configurations of different sets of members. -/
theorem decides_of_different (nodup1 : c1.toVector.Nodup) (nodup2 : c2.toVector.Nodup)
    (different : ¬c1.SameMembers c2) : Decides c1 c2 (configCompare c1 c2) := by
  rw [sameMembers_iff] at different
  cases inside : c1.iamIn c2 with
  | true =>
      have around : c2.iamIn c1 = false := by
        rw [← Bool.not_eq_true]
        exact fun around => different ⟨inside, around⟩
      rw [configCompare_of_lt inside around]
      refine ⟨?_, ?_, ?_, ?_, missingFrom_nodup nodup2, fun _ addr => mem_missingFrom, ?_, ?_⟩ <;>
        simp [sameMembers_iff, within_iff, inside, around]
  | false =>
      cases around : c2.iamIn c1 with
      | true =>
          rw [configCompare_of_gt inside around]
          refine ⟨?_, ?_, ?_, ?_, missingFrom_nodup nodup1, ?_, fun _ addr => mem_missingFrom, ?_⟩ <;>
            simp [sameMembers_iff, within_iff, inside, around]
      | false =>
          have ne : c1 ≠ c2 := by
            rintro rfl
            rw [← Bool.not_eq_true, iamIn_iff] at inside
            exact inside fun _ => id
          have result : configCompare c1 c2 = (-2, []) := by
            simp [configCompare, ne, inside, around]
          rw [result]
          refine ⟨?_, ?_, ?_, ?_, List.nodup_nil, ?_, ?_, fun _ => rfl⟩ <;>
            simp [sameMembers_iff, within_iff, inside, around]

/-- The same members written in two ways are taken for more, by nobody. -/
theorem configCompare_of_rewritten (ne : c1 ≠ c2) (same : c1.SameMembers c2) :
    configCompare c1 c2 = (-1, []) := by
  obtain ⟨inside, around⟩ := sameMembers_iff.mp same
  have missing : c1.missingFrom c2 = [] := by
    rw [List.eq_nil_iff_forall_not_mem]
    intro addr mem
    obtain ⟨new, old⟩ := mem_missingFrom.mp mem
    exact old ((same addr).mpr new)
  simp [configCompare, ne, inside, missing]

/-- `ConfigCompare` decides the relation of the sets of members if and only if the
two configurations are not the same members written in two ways.  For different
sets it does not matter how either is written. -/
theorem configCompare_decides_iff (c1 c2 : RaftConfig) (nodup1 : c1.toVector.Nodup)
    (nodup2 : c2.toVector.Nodup) :
    (Decides c1 c2 (configCompare c1 c2) ↔ (c1.SameMembers c2 → c1 = c2)) ∧
    (¬c1.SameMembers c2 → ∀ d1 d2 : RaftConfig, d1.toVector.Nodup → d2.toVector.Nodup →
      c1.SameMembers d1 → c2.SameMembers d2 →
      (configCompare d1 d2).1 = (configCompare c1 c2).1 ∧
        ∀ addr, addr ∈ (configCompare d1 d2).2 ↔ addr ∈ (configCompare c1 c2).2) := by
  constructor
  · constructor
    · intro decides same
      by_contra ne
      have equal := decides.equal.mpr same
      rw [configCompare_of_rewritten ne same] at equal
      contradiction
    · intro written
      by_cases same : c1.SameMembers c2
      · obtain rfl := written same
        exact decides_self
      · exact decides_of_different nodup1 nodup2 same
  · intro different d1 d2 dup1 dup2 same1 same2
    have different' : ¬d1.SameMembers d2 :=
      fun same => different ((same1.trans same).trans same2.symm)
    have decides := decides_of_different nodup1 nodup2 different
    have decides' := decides_of_different dup1 dup2 different'
    by_cases lt : c1.Within c2
    · have lt' := lt.congr same1.symm same2.symm
      rw [decides.inside.mpr lt, decides'.inside.mpr lt']
      refine ⟨rfl, fun addr => ?_⟩
      rw [decides.more (decides.inside.mpr lt), decides'.more (decides'.inside.mpr lt'), same1, same2]
    · by_cases gt : c2.Within c1
      · have gt' := gt.congr same2.symm same1.symm
        rw [decides.around.mpr gt, decides'.around.mpr gt']
        refine ⟨rfl, fun addr => ?_⟩
        rw [decides.fewer (decides.around.mpr gt), decides'.fewer (decides'.around.mpr gt'), same1,
          same2]
      · have apart := decides.apart.mpr ⟨different, lt, gt⟩
        have apart' := decides'.apart.mpr
          ⟨different', fun lt' => lt (lt'.congr same1 same2), fun gt' => gt (gt'.congr same2 same1)⟩
        rw [apart, apart', decides.none_ (.inr apart), decides'.none_ (.inr apart')]
        exact ⟨rfl, fun _ => Iff.rfl⟩

/-- Three members seen by two of them. -/
theorem configCompare_decides_iff_views :
    ¬Decides ⟨1, [2, 3]⟩ ⟨2, [1, 3]⟩ (configCompare ⟨1, [2, 3]⟩ ⟨2, [1, 3]⟩) ∧
      Decides ⟨1, [2, 3]⟩ ⟨4, [2, 1, 3]⟩ (configCompare ⟨1, [2, 3]⟩ ⟨4, [2, 1, 3]⟩) := by
  constructor
  · rw [(configCompare_decides_iff ⟨1, [2, 3]⟩ ⟨2, [1, 3]⟩ (by decide) (by decide)).1]
    intro written
    exact absurd (written (by decide)) (by decide)
  · refine (configCompare_decides_iff ⟨1, [2, 3]⟩ ⟨4, [2, 1, 3]⟩ (by decide) (by decide)).1.mpr ?_
    exact fun same => absurd same (by decide)

/-- The members `1`, `2` and `3` as seen by `1` are a part of themselves as seen by
`2`. -/
theorem configCompare_not_decides :
    RaftConfig.SameMembers ⟨1, [2, 3]⟩ ⟨2, [1, 3]⟩ ∧
      (configCompare ⟨1, [2, 3]⟩ ⟨2, [1, 3]⟩).1 = -1 := by
  decide

end RaftConfig

end Vraft
