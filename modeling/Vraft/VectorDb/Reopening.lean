import Vraft.VectorDb.Objects
import Vraft.VectorDb.Search

/-!
# Indices after a restart

`VindexMeta::Init` of `vectordb/vindex_meta.cc` and `VEngine::LoadIndex` of
`vectordb/vengine.cc`.  The parameters of an index are stored when its directory is made,
and read when it is found again, with the timestamp by which the manager sorts.
-/

namespace Vraft.VectorDb

open Raw Std

/-- What is stored, and the parameters.  `stored` is the value in a directory that exists. -/
def VindexMeta.init (stored : Option Bytes) (param : VIndexParam) (beyond : Memory) :
    Except MetadataFault (Bytes × VIndexParam) :=
  match stored with
  | none => do
      let value ← toString param.maxBytes param.toBytes
      pure (value, param)
  | some value => do
      let (tmpParam, bytes) ← decode VIndexParam.decoder value beyond
      if 0 < bytes then pure (value, tmpParam) else .error .indexMeta

/-- The directory of an index: its parameters, its tree and its numbers. -/
structure IndexDir where
  path : Bytes
  metaValue : Bytes
  vectors : List (List Float32Bits)
  keyid : Db

/-- What an index leaves in the directory that was made for it. -/
def VindexAnnoy.dir (index : VindexAnnoy) (beyond : Memory) : Except MetadataFault IndexDir := do
  let (value, _) ← VindexMeta.init none index.param beyond
  pure ⟨index.param.path, value, index.vectors, index.keyid⟩

namespace VindexManager

/-- Its indices, in the order of their timestamps. -/
def items (indices : VindexManager) : List VindexAnnoy :=
  indices.toList.map Prod.snd

/-- `VindexManager::Add`. -/
def add (indices : VindexManager) (index : VindexAnnoy) : VindexManager :=
  indices.insert index.param.timestamp index

/-- A round of the loop in `LoadIndex`. -/
def loadDir (dim : Int32) (beyond : Memory) (indices : VindexManager) (dir : IndexDir) :
    Except MetadataFault VindexManager := do
  let (_, param) ← VindexMeta.init (some dir.metaValue) ⟨dir.path, 0, dim, .annoy, .cosine, 0⟩
    beyond
  pure (indices.add ⟨param, dir.vectors, dir.keyid⟩)

/-- The directories of these indices are loaded by a new engine. -/
def restart (order : List VindexAnnoy) (dim : Int32) (beyond : Memory) :
    Except MetadataFault VindexManager := do
  let dirs ← order.mapM fun index => index.dir beyond
  dirs.foldlM (loadDir dim beyond) ∅

/-- An index is found under its own timestamp. -/
def Keyed (indices : VindexManager) : Prop :=
  ∀ (timestamp : UInt64) (index : VindexAnnoy), indices[timestamp]? = some index →
    index.param.timestamp = timestamp

/-- The parameters of all indices are as they were, and so is the newest one, in whatever
order the directories are listed. -/
def Reopens (indices : VindexManager) : Prop :=
  ∀ order : List VindexAnnoy, order.Perm indices.items → ∀ dim beyond, ∃ reopened,
    restart order dim beyond = .ok reopened ∧
      (∀ timestamp : UInt64, (reopened[timestamp]?).map VindexAnnoy.param =
        (indices[timestamp]?).map VindexAnnoy.param) ∧
      reopened.getNewest = indices.getNewest

theorem keyed_empty : Keyed ∅ := by
  intro timestamp index found
  rw [ExtTreeMap.getElem?_empty] at found
  contradiction

/-- `Add` is the only way in. -/
theorem Keyed.add {indices : VindexManager} (keyed : indices.Keyed) (index : VindexAnnoy) :
    (indices.add index).Keyed := by
  intro timestamp found at_
  rw [VindexManager.add, ExtTreeMap.getElem?_insert] at at_
  split at at_
  · rename_i same
    obtain rfl := Option.some.inj at_
    exact LawfulEqCmp.eq_of_compare same
  · exact keyed timestamp found at_

end VindexManager

/-! ## What is read after a restart -/

section Restart

variable {index : VindexAnnoy} {beyond : Memory}

theorem VindexAnnoy.dir_eq_ok (fits : index.param.maxBytes < 2 ^ 31) :
    index.dir beyond = .ok ⟨index.param.path, index.param.toBytes, index.vectors, index.keyid⟩ := by
  have written : toString index.param.maxBytes index.param.toBytes = .ok index.param.toBytes :=
    if_pos ⟨fits, index.param.length_toBytes_le⟩
  rw [dir, VindexMeta.init, written]
  rfl

/-- The parameters that survive are read. -/
theorem VindexMeta.init_eq_ok {param fresh : VIndexParam}
    (survives : Survives param.maxBytes param.toBytes VIndexParam.decoder param) :
    VindexMeta.init (some param.toBytes) fresh beyond = .ok (param.toBytes, param) := by
  obtain ⟨value, written, decodes⟩ := survives
  obtain ⟨rfl, -, -⟩ := toString_eq_ok written
  have positive : 0 < param.toBytes.length := by
    rw [VIndexParam.length_toBytes]
    omega
  rw [VindexMeta.init]
  dsimp only
  rw [decodes beyond, ok_bind]
  exact if_pos positive

namespace VindexManager

variable {indices : VindexManager}

theorem loadDir_eq_ok {dim : Int32} {loaded : VindexManager}
    (survives : Survives index.param.maxBytes index.param.toBytes VIndexParam.decoder index.param) :
    loadDir dim beyond loaded ⟨index.param.path, index.param.toBytes, index.vectors, index.keyid⟩ =
      .ok (loaded.add index) := by
  rw [loadDir, VindexMeta.init_eq_ok survives]
  rfl

/-- Indices that are added in any order are found under their timestamps. -/
theorem getElem?_foldl_add {order : List VindexAnnoy}
    (found : ∀ index ∈ order, indices[index.param.timestamp]? = some index)
    (loaded : VindexManager) (timestamp : UInt64) :
    (order.foldl add loaded)[timestamp]? =
      if timestamp ∈ order.map (fun index => index.param.timestamp) then indices[timestamp]?
      else loaded[timestamp]? := by
  induction order generalizing loaded with
  | nil => rfl
  | cons index order ih =>
      rw [List.forall_mem_cons] at found
      rw [List.foldl_cons, ih found.2, List.map_cons]
      by_cases later : timestamp ∈ order.map fun index => index.param.timestamp
      · rw [if_pos later, if_pos (List.mem_cons_of_mem _ later)]
      · rw [if_neg later, add, ExtTreeMap.getElem?_insert]
        by_cases same : index.param.timestamp = timestamp
        · rw [← same, if_pos ReflCmp.compare_self, if_pos List.mem_cons_self, found.1]
        · rw [if_neg fun equal => same (LawfulEqCmp.eq_of_compare equal),
            if_neg fun mem => (List.mem_cons.mp mem).elim (fun equal => same equal.symm) later]

theorem mem_items : index ∈ indices.items ↔ ∃ timestamp : UInt64, indices[timestamp]? = some index := by
  rw [items, List.mem_map]
  constructor
  · rintro ⟨binding, mem, rfl⟩
    exact ⟨binding.1, ExtTreeMap.mem_toList_iff_getElem?_eq_some.mp mem⟩
  · rintro ⟨timestamp, at_⟩
    exact ⟨(timestamp, index), ExtTreeMap.mem_toList_iff_getElem?_eq_some.mpr at_, rfl⟩

theorem foldlM_loadDir {order : List VindexAnnoy} {dim : Int32}
    (survive : ∀ index ∈ order,
      Survives index.param.maxBytes index.param.toBytes VIndexParam.decoder index.param)
    (loaded : VindexManager) :
    (order.map fun index => (⟨index.param.path, index.param.toBytes, index.vectors,
        index.keyid⟩ : IndexDir)).foldlM (loadDir dim beyond) loaded =
      .ok (order.foldl add loaded) := by
  induction order generalizing loaded with
  | nil => rfl
  | cons index order ih =>
      rw [List.forall_mem_cons] at survive
      rw [List.map_cons, List.foldlM_cons, loadDir_eq_ok survive.1, ok_bind, ih survive.2,
        List.foldl_cons]

/-- All indices come back if their parameters do. -/
theorem restart_eq_ok (keyed : indices.Keyed) {order : List VindexAnnoy}
    (perm : order.Perm indices.items) {dim : Int32}
    (fits : ∀ index ∈ order, index.param.maxBytes < 2 ^ 31)
    (survive : ∀ index ∈ order,
      Survives index.param.maxBytes index.param.toBytes VIndexParam.decoder index.param) :
    restart order dim beyond = .ok indices := by
  have found : ∀ index ∈ order, indices[index.param.timestamp]? = some index := by
    intro index mem
    obtain ⟨timestamp, at_⟩ := mem_items.mp (perm.mem_iff.mp mem)
    rw [keyed timestamp index at_, at_]
  have loaded : restart order dim beyond = .ok (order.foldl add ∅) := by
    rw [restart, mapM_eq_ok_map fun index mem => VindexAnnoy.dir_eq_ok (fits index mem), ok_bind]
    exact foldlM_loadDir survive ∅
  rw [loaded]
  refine congrArg Except.ok (ExtTreeMap.ext_getElem? fun timestamp => ?_)
  rw [getElem?_foldl_add found]
  split
  · rfl
  · rename_i absent
    rw [ExtTreeMap.getElem?_empty]
    cases at_ : indices[timestamp]? with
    | none => rfl
    | some index =>
        have mem : index ∈ order := perm.mem_iff.mpr (mem_items.mpr ⟨timestamp, at_⟩)
        exact absurd (List.mem_map.mpr ⟨index, mem, keyed timestamp index at_⟩) absent

theorem reopens (keyed : indices.Keyed) (fits : ∀ index ∈ indices.items, index.param.maxBytes < 2 ^ 31)
    (survive : ∀ index ∈ indices.items,
      Survives index.param.maxBytes index.param.toBytes VIndexParam.decoder index.param) :
    indices.Reopens := by
  intro order perm dim beyond
  refine ⟨indices, restart_eq_ok keyed perm (fun index mem => ?_) fun index mem => ?_,
    fun _ => rfl, rfl⟩
  · exact fits index (perm.mem_iff.mp mem)
  · exact survive index (perm.mem_iff.mp mem)

end VindexManager

end Restart

/-! ## All together -/

/-- Everything fits into an `int32_t`. -/
structure RecordsFit (vec : List Float32Bits) (vv : VecValue) (vo : VecObj) (param : VIndexParam)
    (indices : VindexManager) : Prop where
  vec : Vec.maxBytes vec < 2 ^ 31
  vv : vv.maxBytes < 2 ^ 31
  vo : vo.maxBytes < 2 ^ 31
  param : param.maxBytes < 2 ^ 31
  indices : ∀ index ∈ indices.items, index.param.maxBytes < 2 ^ 31

/-- Records are read as they were written, and indices are found again.  That the records
of the indices are read to their end is more than `reopens`: parameters that are read from
the wrong bytes may be equal by accident. -/
structure Restored (vec : List Float32Bits) (vv : VecValue) (vo : VecObj) (param : VIndexParam)
    (indices : VindexManager) : Prop where
  vec : Survives (Vec.maxBytes vec) (Vec.toBytes vec) Vec.decoder vec
  vv : Survives vv.maxBytes vv.toBytes VecValue.decoder vv
  vo : Survives vo.maxBytes vo.toBytes VecObj.decoder vo
  param : Survives param.maxBytes param.toBytes VIndexParam.decoder param
  params : ∀ index ∈ indices.items,
    Survives index.param.maxBytes index.param.toBytes VIndexParam.decoder index.param
  reopens : indices.Reopens

/-- Strings below 128 bytes are what records and indices need to come back. -/
theorem records_restored_iff {vec : List Float32Bits} {vv : VecValue} {vo : VecObj}
    {param : VIndexParam} {indices : VindexManager} (keyed : indices.Keyed)
    (fit : RecordsFit vec vv vo param indices) :
    Restored vec vv vo param indices ↔
      vv.attachValue.length < 128 ∧ (vo.key.length < 128 ∧ vo.vv.attachValue.length < 128) ∧
        param.path.length < 128 ∧ ∀ index ∈ indices.items, index.param.path.length < 128 := by
  rw [← vv.survives_iff_attach fit.vv, ← vo.survives_iff_strings fit.vo,
    ← param.survives_iff_path fit.param]
  constructor
  · intro restored
    refine ⟨restored.vv, restored.vo, restored.param, fun index mem => ?_⟩
    exact (index.param.survives_iff_path (fit.indices index mem)).mp (restored.params index mem)
  · rintro ⟨vvSurvives, voSurvives, paramSurvives, short⟩
    have survive : ∀ index ∈ indices.items,
        Survives index.param.maxBytes index.param.toBytes VIndexParam.decoder index.param :=
      fun index mem => (index.param.survives_iff_path (fit.indices index mem)).mpr (short index mem)
    exact ⟨Vec.survives vec fit.vec, vvSurvives, voSurvives, paramSurvives, survive,
      VindexManager.reopens keyed fit.indices survive⟩

/-- An index at `/i`. -/
def smallIndex : VindexAnnoy :=
  ⟨⟨[47, 105], 7, 1, .annoy, .cosine, 10⟩, [], ∅⟩

theorem mem_items_small {index : VindexAnnoy}
    (mem : index ∈ (VindexManager.add ∅ smallIndex).items) : index = smallIndex := by
  obtain ⟨timestamp, at_⟩ := VindexManager.mem_items.mp mem
  rw [VindexManager.add, ExtTreeMap.getElem?_insert, ExtTreeMap.getElem?_empty] at at_
  split at at_
  · exact (Option.some.inj at_).symm
  · contradiction

/-- A vector, a key, an attached string and the index at `/i`. -/
theorem records_restored_small :
    Restored [1] ⟨[1], [97]⟩ ⟨[107], ⟨[1], [97]⟩⟩ smallIndex.param
      (VindexManager.add ∅ smallIndex) := by
  have fit : RecordsFit [1] ⟨[1], [97]⟩ ⟨[107], ⟨[1], [97]⟩⟩ smallIndex.param
      (VindexManager.add ∅ smallIndex) :=
    ⟨by decide, by decide, by decide, by decide, fun index mem => by
      rw [mem_items_small mem]
      decide⟩
  refine (records_restored_iff (VindexManager.keyed_empty.add smallIndex) fit).mpr
    ⟨by decide, by decide, by decide, fun index mem => ?_⟩
  rw [mem_items_small mem]
  decide

/-- The parameters of an index whose path has 128 bytes are not read back. -/
theorem not_records_restored :
    ¬∀ (vec : List Float32Bits) (vv : VecValue) (vo : VecObj) (param : VIndexParam)
      (indices : VindexManager), indices.Keyed → RecordsFit vec vv vo param indices →
        Restored vec vv vo param indices := by
  intro all
  have exists_long (count : ℕ) : ∃ path : Bytes, path.length = count :=
    ⟨List.replicate count 47, List.length_replicate⟩
  obtain ⟨path, length⟩ := exists_long 128
  have fits : VIndexParam.maxBytes ⟨path, 7, 1, .annoy, .cosine, 10⟩ < 2 ^ 31 := by
    rw [VIndexParam.maxBytes, length]
    decide
  have none_ : ∀ index ∈ VindexManager.items ∅, index.param.maxBytes < 2 ^ 31 := by
    intro index mem
    obtain ⟨timestamp, at_⟩ := VindexManager.mem_items.mp mem
    rw [ExtTreeMap.getElem?_empty] at at_
    contradiction
  have restored := all [] ⟨[], []⟩ ⟨[], ⟨[], []⟩⟩ ⟨path, 7, 1, .annoy, .cosine, 10⟩ ∅
    VindexManager.keyed_empty ⟨by decide, by decide, by decide, fits, none_⟩
  have short := (VIndexParam.survives_iff_path _ fits).mp restored.param
  rw [length] at short
  exact absurd short (by decide)

end Vraft.VectorDb
