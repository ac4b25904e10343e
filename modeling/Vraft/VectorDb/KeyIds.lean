import Vraft.VectorDb.Creation
import Vraft.VectorDb.Engine

/-!
# Keys and identifiers of an index

`VindexAnnoy::Build` of `vectordb/vindex_annoy.cc` numbers the keys of an engine, and
`KeyidMeta` of `vectordb/keyid_meta.cc` keeps the number of every key and the key of every
number in one database.  A key with four bytes may be the number of another one, and
an empty key is not read back.
-/

namespace Vraft.VectorDb

open Raw Std

/-- What fails: the engine, the metadata, or an assert of an index. -/
inductive IndexFault
  | engine (fault : EngineFault)
  | metadata (fault : MetadataFault)
  /-- A vector has another dimension than the index. -/
  | dimension
  /-- There are more vectors than an `int32_t` can number. -/
  | overflow
  /-- Nothing stands behind the prefix of a key. -/
  | annoyKey
  /-- A number has no key, or a key no object. -/
  | notFound
  deriving DecidableEq, Repr

/-! ## Both directions in one database -/

namespace KeyidMeta

/-- `key_`. -/
def annoyKeyPrefix : Bytes := [107, 101, 121, 95]

/-- The key behind its prefix. -/
def encodeAnnoyKey (key : Bytes) : Bytes :=
  annoyKeyPrefix ++ key

/-- The key, unless the assert fails. -/
def decodeAnnoyKey (value : Bytes) : Except IndexFault Bytes :=
  if annoyKeyPrefix.length < value.length then .ok (value.drop annoyKeyPrefix.length)
  else .error .annoyKey

/-- The number of a key. -/
def putKey (db : Db) (vkey : Bytes) (id : Int32) : Db :=
  db.insert vkey (encodeInt32 id)

/-- The key of a number. -/
def putId (db : Db) (id : Int32) (vkey : Bytes) : Db :=
  db.insert (encodeInt32 id) (encodeAnnoyKey vkey)

/-- The number that is returned, and the identifier that is set. -/
def getKey (db : Db) (vkey : Bytes) : ℤ × Option Int32 :=
  match db[vkey]? with
  | some value => (0, some (UInt32.ofNat (decodeFixed32 value)).toInt32)
  | none => (-2, none)

/-- The number that is returned, and the key that is set. -/
def getId (db : Db) (id : Int32) : Except IndexFault (ℤ × Option Bytes) :=
  match db[encodeInt32 id]? with
  | some value => do
      let key ← decodeAnnoyKey value
      pure (0, some key)
  | none => .ok (-2, none)

end KeyidMeta

/-! ## Building an index -/

/-- The kinds of indices. -/
inductive VIndexType
  | annoy
  deriving DecidableEq, Repr

/-- The distances an index can go by. -/
inductive DistanceType
  | cosine
  | innerProduct
  | euclidean
  deriving DecidableEq, Repr

/-- The parameters of an index. -/
structure VIndexParam where
  path : Bytes
  timestamp : UInt64
  dim : Int32
  indexType : VIndexType
  distanceType : DistanceType
  annoyTreeNum : Int32
  deriving DecidableEq

/-- The vectors that have been given to the tree, by their numbers, and the database of
keys and numbers. -/
structure VindexAnnoy where
  param : VIndexParam
  vectors : List (List Float32Bits)
  keyid : Db

/-- A round of the loop in `Build`. -/
def addItem (beyond : Memory) (index : VindexAnnoy) (binding : Bytes × Bytes) :
    Except IndexFault VindexAnnoy :=
  match fromString VecValue.decoder binding.2 beyond with
  | .error fault => .error (.metadata fault)
  | .ok vv =>
      let id := Int32.ofNat index.vectors.length
      if dimOf vv.vec ≠ index.param.dim then .error .dimension
      else if index.vectors.length + 1 = 2 ^ 31 then .error .overflow
      else .ok
        { index with
          vectors := index.vectors ++ [vv.vec]
          keyid := KeyidMeta.putId (KeyidMeta.putKey index.keyid binding.1 id) id binding.1 }

/-- All keys of the database of an engine, in their order. -/
def buildIndex (param : VIndexParam) (data : Db) (beyond : Memory) :
    Except IndexFault VindexAnnoy :=
  data.toList.foldlM (addItem beyond) ⟨param, [], ∅⟩

/-- The number of a key is read back, and the key of a number. -/
def Inverse (keyid : Db) (keys : List Bytes) : Prop :=
  ∀ i key, keys[i]? = some key →
    KeyidMeta.getKey keyid key = (0, some (Int32.ofNat i)) ∧
      KeyidMeta.getId keyid (Int32.ofNat i) = .ok (0, some key)

/-- No key is empty, and none is a number that is given to a key.  The exception is a key
whose own number is spelled by the prefix of keys, and that is overwritten after it was
written: so the prefix is read for the number. -/
structure Separate (keys : List Bytes) : Prop where
  nonempty : [] ∉ keys
  noNumber : ∀ m i, keys[m]? = some (encodeInt32 (Int32.ofNat i)) → i < keys.length →
    m = decodeFixed32 KeyidMeta.annoyKeyPrefix ∧ m ≤ i

/-! ## What is in the database -/

/-- What the rounds write for the keys. -/
def writeKeys (keys : List Bytes) : Db :=
  (keys.zipIdx).foldl
    (fun db entry => KeyidMeta.putId (KeyidMeta.putKey db entry.1 (Int32.ofNat entry.2))
      (Int32.ofNat entry.2) entry.1) ∅

theorem writeKeys_concat (keys : List Bytes) (key : Bytes) :
    writeKeys (keys ++ [key]) =
      KeyidMeta.putId (KeyidMeta.putKey (writeKeys keys) key (Int32.ofNat keys.length))
        (Int32.ofNat keys.length) key := by
  rw [writeKeys, writeKeys, List.zipIdx_append, List.foldl_append, Nat.zero_add,
    List.zipIdx_singleton, List.foldl_cons, List.foldl_nil]

theorem buildIndex_eq_ok {param : VIndexParam} {data : Db} {beyond : Memory} {index : VindexAnnoy}
    (built : buildIndex param data beyond = .ok index) :
    index.param = param ∧ index.keyid = writeKeys data.keys ∧ data.keys.length < 2 ^ 31 ∧
      List.Forall₂ (fun binding vec => ∃ vv, vv.vec = vec ∧ dimOf vec = param.dim ∧
        fromString VecValue.decoder binding.2 beyond = .ok vv) data.toList index.vectors := by
  have all (bindings : List (Bytes × Bytes)) {index : VindexAnnoy}
      (built : bindings.foldlM (addItem beyond) ⟨param, [], ∅⟩ = .ok index) :
      index.param = param ∧ index.keyid = writeKeys (bindings.map Prod.fst) ∧
        bindings.length < 2 ^ 31 ∧
          List.Forall₂ (fun binding vec => ∃ vv, vv.vec = vec ∧ dimOf vec = param.dim ∧
            fromString VecValue.decoder binding.2 beyond = .ok vv) bindings index.vectors := by
    induction bindings using List.reverseRecOn generalizing index with
    | nil =>
        obtain rfl := Except.ok.inj built
        exact ⟨rfl, rfl, by simp, .nil⟩
    | append_singleton bindings binding ih =>
        rw [List.foldlM_append] at built
        obtain ⟨middle, first, last⟩ := ok_of_bind_ok built
        obtain ⟨params, keyid, small, vectors⟩ := ih first
        rw [List.foldlM_cons] at last
        obtain ⟨final, added, done⟩ := ok_of_bind_ok last
        obtain rfl := Except.ok.inj done
        unfold addItem at added
        split at added
        · contradiction
        · rename_i vv decoded
          dsimp only at added
          split_ifs at added with other full
          obtain rfl := Except.ok.inj added
          have length := vectors.length_eq
          refine ⟨params, ?_, ?_, List.rel_append vectors (.cons ⟨vv, rfl, ?_, decoded⟩ .nil)⟩
          · dsimp only
            rw [List.map_append, List.map_singleton, writeKeys_concat, List.length_map, keyid,
              length]
          · rw [List.length_append, List.length_singleton]
            omega
          · rw [not_not.mp other, params]
  obtain ⟨params, keyid, small, vectors⟩ := all data.toList built
  have keys : data.toList.map Prod.fst = data.keys := ExtTreeMap.map_fst_toList_eq_keys
  rw [keys] at keyid
  rw [ExtTreeMap.length_toList] at small
  exact ⟨params, keyid, by rw [ExtTreeMap.length_keys]; exact small, vectors⟩

section Written

variable {keys : List Bytes} {key : Bytes} {i m : ℕ}

theorem encodeInt32_inj {first second : Int32} (same : encodeInt32 first = encodeInt32 second) :
    first = second := by
  have value (id : Int32) : decodeFixed32 (encodeInt32 id ++ []) = id.toUInt32.toNat :=
    decodeFixed32_encodeFixed32 id.toUInt32.toNat_lt []
  have decoded := value first
  rw [same, value second] at decoded
  have bits : first.toUInt32 = second.toUInt32 := UInt32.toNat_inj.mp decoded.symm
  rw [← Int32.toInt32_toUInt32 first, bits, Int32.toInt32_toUInt32]

theorem number_inj (small : i < 2 ^ 31) (small' : m < 2 ^ 31)
    (same : encodeInt32 (Int32.ofNat i) = encodeInt32 (Int32.ofNat m)) : i = m :=
  ofNat_inj small small' (encodeInt32_inj same)

theorem getElem?_writeKeys_concat (keys : List Bytes) (key k : Bytes) :
    (writeKeys (keys ++ [key]))[k]? =
      if encodeInt32 (Int32.ofNat keys.length) = k then some (KeyidMeta.encodeAnnoyKey key)
      else if key = k then some (encodeInt32 (Int32.ofNat keys.length))
      else (writeKeys keys)[k]? := by
  rw [writeKeys_concat, KeyidMeta.putId, KeyidMeta.putKey, ExtTreeMap.getElem?_insert,
    ExtTreeMap.getElem?_insert]
  simp only [LawfulEqCmp.compare_eq_iff_eq]

/-- The key of a number that is not the spelling of a later key. -/
theorem getElem?_number (small : keys.length < 2 ^ 31) (at_ : keys[i]? = some key)
    (later : ∀ m, i < m → keys[m]? ≠ some (encodeInt32 (Int32.ofNat i))) :
    (writeKeys keys)[encodeInt32 (Int32.ofNat i)]? = some (KeyidMeta.encodeAnnoyKey key) := by
  induction keys using List.reverseRecOn with
  | nil => simp at at_
  | append_singleton keys last ih =>
      rw [List.length_append, List.length_singleton] at small
      have within := (List.getElem?_eq_some_iff.mp at_).1
      rw [List.length_append, List.length_singleton] at within
      rw [getElem?_writeKeys_concat]
      by_cases new : i = keys.length
      · rw [new, List.getElem?_concat_length, Option.some.injEq] at at_
        rw [if_pos (by rw [new]), at_]
      · have before : i < keys.length := by omega
        have other : last ≠ encodeInt32 (Int32.ofNat i) := by
          rintro rfl
          exact later keys.length before List.getElem?_concat_length
        rw [if_neg fun same => new (number_inj (by omega) (by omega) same).symm, if_neg other]
        rw [List.getElem?_append_left before] at at_
        refine ih (by omega) at_ fun m after there => later m after ?_
        rw [List.getElem?_append_left (List.getElem?_eq_some_iff.mp there).1, there]

/-- A number is overwritten by a later key that is spelled like it. -/
theorem getElem?_overwritten (nodup : keys.Nodup) (small : keys.length < 2 ^ 31)
    (there : keys[m]? = some (encodeInt32 (Int32.ofNat i))) (after : i < m) :
    (writeKeys keys)[encodeInt32 (Int32.ofNat i)]? = some (encodeInt32 (Int32.ofNat m)) := by
  induction keys using List.reverseRecOn with
  | nil => simp at there
  | append_singleton keys last ih =>
      rw [List.length_append, List.length_singleton] at small
      have within := (List.getElem?_eq_some_iff.mp there).1
      rw [List.length_append, List.length_singleton] at within
      rw [getElem?_writeKeys_concat,
        if_neg fun same => absurd (number_inj (by omega) (by omega) same) (by omega)]
      by_cases new : m = keys.length
      · rw [new, List.getElem?_concat_length, Option.some.injEq] at there
        rw [if_pos there, new]
      · rw [List.getElem?_append_left (by omega)] at there
        have other : last ≠ encodeInt32 (Int32.ofNat i) := by
          rintro rfl
          exact (List.nodup_append.mp nodup).2.2 _ (List.mem_of_getElem? there) _
            (List.mem_singleton_self _) rfl
        rw [if_neg other]
        exact ih (List.nodup_append.mp nodup).1 (by omega) there

/-- The number of a key that is not the spelling of a later number. -/
theorem getElem?_key (nodup : keys.Nodup) (small : keys.length < 2 ^ 31)
    (at_ : keys[i]? = some key)
    (later : ∀ m, i ≤ m → m < keys.length → key ≠ encodeInt32 (Int32.ofNat m)) :
    (writeKeys keys)[key]? = some (encodeInt32 (Int32.ofNat i)) := by
  induction keys using List.reverseRecOn with
  | nil => simp at at_
  | append_singleton keys last ih =>
      rw [List.length_append, List.length_singleton] at small later
      have within := (List.getElem?_eq_some_iff.mp at_).1
      rw [List.length_append, List.length_singleton] at within
      rw [getElem?_writeKeys_concat,
        if_neg fun same => later keys.length (by omega) (by omega) same.symm]
      by_cases new : i = keys.length
      · rw [new, List.getElem?_concat_length, Option.some.injEq] at at_
        rw [if_pos at_, new]
      · rw [List.getElem?_append_left (by omega)] at at_
        have other : last ≠ key := by
          rintro rfl
          exact (List.nodup_append.mp nodup).2.2 _ (List.mem_of_getElem? at_) _
            (List.mem_singleton_self _) rfl
        rw [if_neg other]
        exact ih (List.nodup_append.mp nodup).1 (by omega) at_ fun m le lt => later m le (by omega)

/-- A key that is neither given a number nor spelled like one. -/
theorem getElem?_no_key (absent : key ∉ keys)
    (other : ∀ m < keys.length, key ≠ encodeInt32 (Int32.ofNat m)) :
    (writeKeys keys)[key]? = none := by
  induction keys using List.reverseRecOn with
  | nil => exact ExtTreeMap.getElem?_empty
  | append_singleton keys last ih =>
      rw [List.length_append, List.length_singleton] at other
      rw [List.mem_append, List.mem_singleton, not_or] at absent
      rw [getElem?_writeKeys_concat, if_neg fun same => other keys.length (by omega) same.symm,
        if_neg fun same => absent.2 same.symm]
      exact ih absent.1 fun m lt => other m (by omega)

end Written

/-! ## Both directions -/

section Directions

variable {keys : List Bytes} {key : Bytes} {db : Db} {i m : ℕ}

theorem getKey_number (found : db[key]? = some (encodeInt32 (Int32.ofNat i))) :
    KeyidMeta.getKey db key = (0, some (Int32.ofNat i)) := by
  have value : decodeFixed32 (encodeInt32 (Int32.ofNat i) ++ []) = (Int32.ofNat i).toUInt32.toNat :=
    decodeFixed32_encodeFixed32 (Int32.ofNat i).toUInt32.toNat_lt []
  rw [List.append_nil] at value
  rw [KeyidMeta.getKey, found]
  dsimp only
  rw [value, UInt32.ofNat_toNat, Int32.toInt32_toUInt32]

/-- Where a key was put, its prefix is taken for a number. -/
theorem getKey_annoyKey (found : db[key]? = some (KeyidMeta.encodeAnnoyKey key')) :
    KeyidMeta.getKey db key =
      (0, some (Int32.ofNat (decodeFixed32 KeyidMeta.annoyKeyPrefix))) := by
  have value : decodeFixed32 (KeyidMeta.encodeAnnoyKey key') =
      decodeFixed32 KeyidMeta.annoyKeyPrefix := rfl
  rw [KeyidMeta.getKey, found]
  dsimp only
  rw [value]
  rfl

theorem getId_annoyKey (found : db[encodeInt32 (Int32.ofNat i)]? = some (KeyidMeta.encodeAnnoyKey key)) :
    KeyidMeta.getId db (Int32.ofNat i) =
      if key = [] then .error .annoyKey else .ok (0, some key) := by
  rw [KeyidMeta.getId, found]
  dsimp only
  rw [KeyidMeta.decodeAnnoyKey, KeyidMeta.encodeAnnoyKey, List.length_append]
  split_ifs with longer empty empty
  · rw [empty] at longer
    simp at longer
  · rw [List.drop_left]
    rfl
  · rfl
  · have := List.length_pos_iff.mpr empty
    omega

theorem getId_number (found : db[encodeInt32 (Int32.ofNat i)]? = some (encodeInt32 (Int32.ofNat m))) :
    KeyidMeta.getId db (Int32.ofNat i) = .error .annoyKey := by
  rw [KeyidMeta.getId, found]
  dsimp only
  rw [KeyidMeta.decodeAnnoyKey, if_neg (by rw [length_encodeInt32]; decide)]
  rfl

/-- The two directions are inverse to each other if and only if they are kept apart. -/
theorem inverse_writeKeys_iff (nodup : keys.Nodup) (small : keys.length < 2 ^ 31) :
    Inverse (writeKeys keys) keys ↔ Separate keys := by
  have before {i : ℕ} {key : Bytes} (at_ : keys[i]? = some key) : i < keys.length :=
    (List.getElem?_eq_some_iff.mp at_).1
  constructor
  · intro inverse
    constructor
    · intro mem
      obtain ⟨i, at_⟩ := List.getElem?_of_mem mem
      have back := (inverse i [] at_).2
      by_cases later : ∃ m, i < m ∧ keys[m]? = some (encodeInt32 (Int32.ofNat i))
      · obtain ⟨m, after, there⟩ := later
        rw [getId_number (getElem?_overwritten nodup small there after)] at back
        contradiction
      · rw [getId_annoyKey (getElem?_number small at_ fun m after there => later ⟨m, after, there⟩),
          if_pos rfl] at back
        contradiction
    · intro m i there lt
      have le : m ≤ i := by
        by_contra after
        have back := (inverse i _ (List.getElem?_eq_getElem lt)).2
        rw [getId_number (getElem?_overwritten nodup small there (by omega))] at back
        contradiction
      refine ⟨?_, le⟩
      have found := getElem?_number small (List.getElem?_eq_getElem lt) fun m' after there' => by
        have same := (List.getElem?_inj (before there) nodup).mp (there.trans there'.symm)
        omega
      have number := (inverse m _ there).1
      rw [getKey_annoyKey found, Prod.mk.injEq, Option.some.injEq] at number
      exact (ofNat_inj (by decide) (by have := before there; omega) number.2).symm
  · intro separate i key at_
    have lt := before at_
    constructor
    · by_cases later : ∃ m, i ≤ m ∧ m < keys.length ∧ key = encodeInt32 (Int32.ofNat m)
      · obtain ⟨m, le, within, rfl⟩ := later
        have own := (separate.noNumber i m at_ within).1
        have found := getElem?_number small (List.getElem?_eq_getElem within)
          fun m' after there' => by
            have same := (List.getElem?_inj lt nodup).mp (at_.trans there'.symm)
            omega
        rw [getKey_annoyKey found, ← own]
      · exact getKey_number (getElem?_key nodup small at_
          fun m le within same => later ⟨m, le, within, same⟩)
    · have nonempty : key ≠ [] := by
        rintro rfl
        exact separate.nonempty (List.mem_of_getElem? at_)
      rw [getId_annoyKey (getElem?_number small at_ fun m after there =>
        absurd (separate.noNumber m i there lt).2 (by omega)), if_neg nonempty]

end Directions

/-- After an index has been built, its tables of keys and numbers are inverse to each
other if and only if the keys of the engine can be told from their numbers. -/
theorem inverse_iff {param : VIndexParam} {data : Db} {beyond : Memory} {index : VindexAnnoy}
    (built : buildIndex param data beyond = .ok index) :
    Inverse index.keyid data.keys ↔ Separate data.keys := by
  obtain ⟨-, keyid, small, -⟩ := buildIndex_eq_ok built
  rw [keyid]
  exact inverse_writeKeys_iff (Indexed.nodup_keys data) small

/-- An engine with the values of some keys. -/
def dataOf (keys : List Bytes) : Db :=
  keys.foldl (fun data key => data.insert key (VecValue.toBytes ⟨[], []⟩)) ∅

/-- The parameters of an index of vectors without components. -/
def emptyParam : VIndexParam := ⟨[47], 1, 0, .annoy, .cosine, 10⟩

theorem inverse_two_keys : ∃ index,
    buildIndex emptyParam (dataOf [[97], [98, 98]]) (fun _ => 0) = .ok index ∧
      Inverse index.keyid (dataOf [[97], [98, 98]]).keys := by
  have evaluated : Meets (buildIndex emptyParam (dataOf [[97], [98, 98]]) fun _ => 0)
      (fun _ => (dataOf [[97], [98, 98]]).keys = [[97], [98, 98]]) fun _ => False := by
    decide +kernel
  obtain ⟨index, built, keys⟩ := evaluated.exists_ok
  refine ⟨index, built, (inverse_iff built).mpr ⟨by rw [keys]; decide, fun m i there _ => ?_⟩⟩
  have mem := List.mem_of_getElem? there
  have short : ∀ key ∈ (dataOf [[97], [98, 98]]).keys, key.length < 4 := by
    rw [keys]
    decide
  exact absurd (short _ mem) (by rw [length_encodeInt32]; decide)

/-- A key that is spelled like its own number. -/
theorem getKey_own_number :
    Meets (buildIndex emptyParam (dataOf [[0, 0, 0, 0]]) fun _ => 0)
      (fun index => (dataOf [[0, 0, 0, 0]]).keys = [[0, 0, 0, 0]] ∧
        KeyidMeta.getKey index.keyid [0, 0, 0, 0] ≠ (0, some 0)) fun _ => False := by
  decide +kernel

theorem not_inverse : ¬∀ param data beyond index, buildIndex param data beyond = .ok index →
    Inverse index.keyid data.keys := by
  intro inverse
  obtain ⟨index, built, keys, other⟩ := getKey_own_number.exists_ok
  exact other (inverse _ _ _ index built 0 [0, 0, 0, 0] (by rw [keys]; rfl)).1

end Vraft.VectorDb
