import Mathlib.Data.List.Basic

/-!
# Ordered stores

A key-value store whose bindings are kept in the order of a comparator and that
is written in batches, as an embedded database offers it.  A store is the list
of its bindings.  Nothing is assumed of the comparator: each law asks for what it
needs of the keys at hand, so that a comparator that is an order on part of the
key space only can still be used there.
-/

universe u v

namespace OrderedStore

variable {κ : Type u} {ν : Type v}

/-- One edit of a batch. -/
inductive Edit (κ : Type u) (ν : Type v)
  | put (key : κ) (value : ν)
  | delete (key : κ)
  deriving DecidableEq, Repr

variable (cmp : κ → κ → Ordering)

/-- Bind a key, in its place. -/
def put (key : κ) (value : ν) : List (κ × ν) → List (κ × ν)
  | [] => [(key, value)]
  | binding :: rest =>
      match cmp key binding.1 with
      | .lt => (key, value) :: binding :: rest
      | .eq => (key, value) :: rest
      | .gt => binding :: put key value rest

/-- Forget a key. -/
def delete (key : κ) (store : List (κ × ν)) : List (κ × ν) :=
  store.filter fun binding => cmp binding.1 key != .eq

/-- The value of a key, found by comparison. -/
def get (store : List (κ × ν)) (key : κ) : Option ν :=
  (store.find? fun binding => cmp binding.1 key == .eq).map Prod.snd

/-- One write of a batch. -/
def edit (store : List (κ × ν)) : Edit κ ν → List (κ × ν)
  | .put key value => put cmp key value store
  | .delete key => delete cmp key store

/-- Carry out a batch. -/
def write (store : List (κ × ν)) (batch : List (Edit κ ν)) : List (κ × ν) :=
  batch.foldl (edit cmp) store

variable {cmp} {store : List (κ × ν)} {key : κ} {value : ν}

/-! ## Reading -/

theorem get_eq_none (absent : ∀ binding ∈ store, cmp binding.1 key ≠ .eq) :
    get cmp store key = none := by
  rw [get, Option.map_eq_none_iff, List.find?_eq_none]
  intro binding mem found
  exact absent binding mem (eq_of_beq found)

/-- Bindings under other keys do not hide a later one. -/
theorem get_append (absent : ∀ binding ∈ store, cmp binding.1 key ≠ .eq) (rest : List (κ × ν)) :
    get cmp (store ++ rest) key = get cmp rest key := by
  have none_before := get_eq_none absent
  rw [get, Option.map_eq_none_iff] at none_before
  rw [get, List.find?_append, none_before, Option.none_or, get]

theorem get_cons_self {found : κ} (same : cmp found key = .eq) (rest : List (κ × ν)) :
    get cmp ((found, value) :: rest) key = some value := by
  simp [get, same]

theorem get_cons_ne {other : κ} (ne : cmp other key ≠ .eq) (rest : List (κ × ν)) :
    get cmp ((other, value) :: rest) key = get cmp rest key := by
  simp [get, ne]

/-! ## Writing -/

theorem write_append (store : List (κ × ν)) (first second : List (Edit κ ν)) :
    write cmp store (first ++ second) = write cmp (write cmp store first) second :=
  List.foldl_append

/-- A key above all others goes to the end. -/
theorem put_above (above : ∀ binding ∈ store, cmp key binding.1 = .gt) :
    put cmp key value store = store ++ [(key, value)] := by
  induction store with
  | nil => rfl
  | cons binding rest ih =>
      rw [List.forall_mem_cons] at above
      simp [put, above.1, ih above.2]

/-- The first key is bound anew. -/
theorem put_head {found : κ} {old : ν} (same : cmp key found = .eq) (rest : List (κ × ν)) :
    put cmp key value ((found, old) :: rest) = (key, value) :: rest := by
  simp [put, same]

/-- A batch of deletions keeps the bindings of all other keys. -/
theorem write_deletes (store : List (κ × ν)) (keys : List κ) :
    write cmp store (keys.map .delete) =
      store.filter fun binding => keys.all fun key => cmp binding.1 key != .eq := by
  induction keys generalizing store with
  | nil => simp [write]
  | cons key keys ih =>
      have step : write cmp store ((key :: keys).map .delete) =
          write cmp (delete cmp key store) (keys.map .delete) := rfl
      rw [step, ih, delete, List.filter_filter]
      simp only [List.all_cons, Bool.and_comm]

end OrderedStore
