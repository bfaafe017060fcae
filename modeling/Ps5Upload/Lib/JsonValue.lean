import Mathlib.Data.String.Basic
import Ps5Upload.Lib.BTreeMap

/-!
# JSON values

JSON values whose objects are maps in the order of their keys, and what reading, writing, inserting
and removing a member do to each other.

* `get_update`, `get_insert_ne` — what a member is after the others' changes;
* `update_remove`, `update_insert`, `update_update` — changes at different members commute, and a
  second one at the same member counts;
* `insert_remove`, `update_self` — a member put back leaves the value as it was.
-/

namespace Ps5Upload.JsonValue

/-- A JSON value.  The members of an object are kept in the order of their keys. -/
inductive Value where
  | null
  | bool (b : Bool)
  | number (text : String)
  | string (s : String)
  | array (items : List Value)
  | object (fields : List (String × Value))

namespace Value

/-- The keys of every object stand in order, each once. -/
inductive Sorted : Value → Prop
  | null : Sorted .null
  | bool (b : Bool) : Sorted (.bool b)
  | number (text : String) : Sorted (.number text)
  | string (s : String) : Sorted (.string s)
  | array {items : List Value} (h : ∀ v ∈ items, Sorted v) : Sorted (.array items)
  | object {fields : List (String × Value)} (keys : fields.Pairwise fun a b => a.1 < b.1)
      (values : ∀ p ∈ fields, Sorted p.2) : Sorted (.object fields)

def getField (k : String) : List (String × Value) → Option Value
  | [] => none
  | p :: ps => if p.1 = k then some p.2 else getField k ps

def updateField (k : String) (f : Value → Value) : List (String × Value) → List (String × Value)
  | [] => []
  | p :: ps => if p.1 = k then (p.1, f p.2) :: ps else p :: updateField k f ps

def removeField (k : String) : List (String × Value) → List (String × Value)
  | [] => []
  | p :: ps => if p.1 = k then removeField k ps else p :: removeField k ps

/-- `Value::get` with a key. -/
def get (b : Value) (k : String) : Option Value :=
  match b with
  | .object fields => getField k fields
  | _ => none

def asStr : Value → Option String
  | .string s => some s
  | _ => none

/-- What stands at a key replaced through `get_mut`. -/
def update (b : Value) (k : String) (f : Value → Value) : Value :=
  match b with
  | .object fields => .object (updateField k f fields)
  | _ => b

/-- `Map::insert` -/
def insert (b : Value) (k : String) (v : Value) : Value :=
  match b with
  | .object fields => .object (BTreeMap.insertEntry k v fields)
  | _ => b

/-- `Map::remove` -/
def remove (b : Value) (k : String) : Value :=
  match b with
  | .object fields => .object (removeField k fields)
  | _ => b

variable {k k' : String} {f g : Value → Value} {v w b : Value}

theorem update_update (k : String) (f g : Value → Value) (b : Value) :
    (b.update k f).update k g = b.update k (g ∘ f) := by
  cases b with
  | object fields =>
    simp only [update, Value.object.injEq]
    induction fields with
    | nil => rfl
    | cons p ps ih => by_cases hp : p.1 = k <;> simp [updateField, hp, ih]
  | _ => rfl

theorem get_update_ne (h : k ≠ k') (f : Value → Value) (b : Value) :
    (b.update k f).get k' = b.get k' := by
  cases b with
  | object fields =>
    simp only [update, get]
    induction fields with
    | nil => rfl
    | cons p ps ih =>
      by_cases hp : p.1 = k
      · simp [updateField, getField, hp, h]
      · simp [updateField, getField, hp, ih]
  | _ => rfl

theorem get_update (k : String) (f : Value → Value) (b : Value) :
    (b.update k f).get k = (b.get k).map f := by
  cases b with
  | object fields =>
    simp only [update, get]
    induction fields with
    | nil => rfl
    | cons p ps ih => by_cases hp : p.1 = k <;> simp [updateField, getField, hp, ih]
  | _ => rfl

theorem update_remove (h : k ≠ k') (f : Value → Value) (b : Value) :
    (b.remove k).update k' f = (b.update k' f).remove k := by
  cases b with
  | object fields =>
    simp only [remove, update, Value.object.injEq]
    induction fields with
    | nil => rfl
    | cons p ps ih =>
      by_cases hp : p.1 = k
      · simp [updateField, removeField, hp, h, ih]
      · by_cases hp' : p.1 = k' <;> simp [updateField, removeField, hp, hp', ih, Ne.symm h]
  | _ => rfl

theorem get_insert_ne (h : k ≠ k') (v b : Value) : (b.insert k v).get k' = b.get k' := by
  cases b with
  | object fields =>
    simp only [insert, get]
    induction fields with
    | nil => simp [BTreeMap.insertEntry, getField, h]
    | cons p ps ih =>
      rw [BTreeMap.insertEntry]
      split
      · simp [getField, h]
      · split
        · rename_i hk
          simp [getField, ← hk, h]
        · simp [getField, ih]
  | _ => rfl

theorem get_insert_self (h : (b.get k).isSome) : (b.insert k v).get k = some v := by
  cases b with
  | object fields =>
    clear h
    simp only [insert, get]
    induction fields with
    | nil => simp [BTreeMap.insertEntry, getField]
    | cons p ps ih =>
      rw [BTreeMap.insertEntry]
      split
      · simp [getField]
      · split
        · simp [getField]
        · rename_i hk
          simp [getField, Ne.symm hk, ih]
  | _ => cases h

theorem update_insert (h : k ≠ k') (f : Value → Value) (v b : Value) :
    (b.insert k v).update k' f = (b.update k' f).insert k v := by
  cases b with
  | object fields =>
    simp only [insert, update, Value.object.injEq]
    induction fields with
    | nil => simp [BTreeMap.insertEntry, updateField, h]
    | cons p ps ih =>
      by_cases hp : p.1 = k'
      · have hne : k ≠ p.1 := hp ▸ h
        by_cases hlt : k < p.1
        · simp [BTreeMap.insertEntry, updateField, hp, h, hp ▸ hlt]
        · simp [BTreeMap.insertEntry, updateField, hp, h, hp ▸ hlt]
      · rw [updateField, if_neg hp, BTreeMap.insertEntry, BTreeMap.insertEntry]
        split
        · simp [updateField, h, hp]
        · split
          · simp [updateField, h]
          · simp [updateField, hp, ih]
  | _ => rfl

theorem remove_insert (k : String) (v b : Value) : (b.insert k v).remove k = b.remove k := by
  cases b with
  | object fields =>
    simp only [insert, remove, Value.object.injEq]
    induction fields with
    | nil => simp [BTreeMap.insertEntry, removeField]
    | cons p ps ih =>
      rw [BTreeMap.insertEntry]
      split
      · simp [removeField]
      · split
        · rename_i hk
          simp [removeField, ← hk]
        · simp only [removeField, ih]
  | _ => rfl

theorem update_self (h : b.get k = some v) : b.update k (fun _ => v) = b := by
  cases b with
  | object fields =>
    simp only [get] at h
    simp only [update, Value.object.injEq]
    induction fields with
    | nil => rfl
    | cons p ps ih =>
      rw [getField] at h
      rw [updateField]
      split
      · rename_i hp
        rw [if_pos hp] at h
        cases h
        rfl
      · rename_i hp
        rw [if_neg hp] at h
        rw [ih h]
  | _ => rfl

variable {l : List (String × Value)}

theorem removeField_eq_self (h : ∀ p ∈ l, p.1 ≠ k) : removeField k l = l := by
  induction l with
  | nil => rfl
  | cons p ps ih =>
    rw [removeField, if_neg (h p List.mem_cons_self),
      ih fun q hq => h q (List.mem_cons_of_mem p hq)]

theorem exists_of_getField (h : getField k l = some v) : ∃ p ∈ l, p.1 = k := by
  induction l with
  | nil => cases h
  | cons p ps ih =>
    rw [getField] at h
    split at h
    · exact ⟨p, List.mem_cons_self, by assumption⟩
    · obtain ⟨q, hq, hk⟩ := ih h
      exact ⟨q, List.mem_cons_of_mem p hq, hk⟩

theorem insertEntry_removeField
    (keys : l.Pairwise fun a b => a.1 < b.1) (h : getField k l = some v) :
    BTreeMap.insertEntry k v (removeField k l) = l := by
  induction l with
  | nil => cases h
  | cons p ps ih =>
    obtain ⟨hp, hps⟩ := List.pairwise_cons.1 keys
    rw [getField] at h
    split at h
    · rename_i hk
      cases h
      subst hk
      rw [removeField, if_pos rfl, removeField_eq_self fun q hq => ne_of_gt (hp q hq)]
      cases ps with
      | nil => rfl
      | cons q qs => rw [BTreeMap.insertEntry, if_pos (hp q List.mem_cons_self)]
    · rename_i hk
      obtain ⟨q, hq, rfl⟩ := exists_of_getField h
      rw [removeField, if_neg hk, BTreeMap.insertEntry, if_neg (not_lt_of_gt (hp q hq)),
        if_neg (Ne.symm hk), ih hps h]

/-- What is removed from a map and put back leaves the map as it was. -/
theorem insert_remove (hb : b.Sorted) (h : b.get k = some v) : (b.remove k).insert k v = b := by
  cases hb with
  | object keys _ => exact congrArg Value.object (insertEntry_removeField keys h)
  | _ => cases h

theorem remove_eq_self (h : b.get k = none) : b.remove k = b := by
  cases b with
  | object fields =>
    simp only [get] at h
    simp only [remove, Value.object.injEq]
    induction fields with
    | nil => rfl
    | cons p ps ih =>
      rw [getField] at h
      split at h
      · cases h
      · rename_i hk
        rw [removeField, if_neg hk, ih h]
  | _ => rfl

/-! ## Maps stay maps -/

theorem updateField_keys (k : String) (f : Value → Value) (l : List (String × Value)) :
    (updateField k f l).map Prod.fst = l.map Prod.fst := by
  induction l with
  | nil => rfl
  | cons p ps ih =>
    rw [updateField]
    split
    · rfl
    · rw [List.map_cons, List.map_cons, ih]

theorem mem_updateField {p : String × Value}
    (h : p ∈ updateField k f l) : p ∈ l ∨ ∃ q ∈ l, p = (q.1, f q.2) := by
  induction l with
  | nil => cases h
  | cons q qs ih =>
    rw [updateField] at h
    split at h
    · rcases List.mem_cons.1 h with rfl | h
      · exact .inr ⟨q, List.mem_cons_self, rfl⟩
      · exact .inl (List.mem_cons_of_mem q h)
    · rcases List.mem_cons.1 h with rfl | h
      · exact .inl List.mem_cons_self
      · rcases ih h with h | ⟨r, hr, hp⟩
        · exact .inl (List.mem_cons_of_mem q h)
        · exact .inr ⟨r, List.mem_cons_of_mem q hr, hp⟩

theorem Sorted.update (hb : b.Sorted) (hf : ∀ v, v.Sorted → (f v).Sorted) :
    (b.update k f).Sorted := by
  cases hb with
  | @object fields keys values =>
    refine .object ?_ fun p hp => ?_
    · have hkeys : ((updateField k f fields).map Prod.fst).Pairwise (· < ·) := by
        rw [updateField_keys]
        exact List.pairwise_map.2 keys
      exact List.pairwise_map.1 hkeys
    · rcases mem_updateField hp with h | ⟨q, hq, rfl⟩
      · exact values p h
      · exact hf _ (values q hq)
  | null => exact .null
  | bool x => exact .bool x
  | number x => exact .number x
  | string x => exact .string x
  | array h => exact .array h

end Value

end Ps5Upload.JsonValue
