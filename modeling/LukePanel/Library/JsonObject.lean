import Mathlib.Data.List.Dedup

/-! # JSON values and objects

`any` and `map[string]any` of Go, as `encoding/json` decodes them. -/
namespace LukePanel.Library.JsonObject

inductive Json where
  | null
  | bool (b : Bool)
  | num (n : Int)
  | str (s : String)
  | arr (items : List Json)
  | obj (fields : List (String × Json))

abbrev Object := List (String × Json)

namespace Object

/-- `m[key]`; a key that is not there reads as `nil`. -/
def get : Object → String → Json
  | [], _ => .null
  | (k, v) :: rest, key => if k = key then v else get rest key

def erase (m : Object) (key : String) : Object := m.filter fun e => !(e.1 == key)

def set (m : Object) (key : String) (v : Json) : Object := (key, v) :: erase m key

@[simp] theorem get_set_self (m : Object) (key : String) (v : Json) : get (set m key v) key = v := by
  simp [set, get]

@[simp] theorem get_erase_ne {m : Object} {key key' : String} (h : key' ≠ key) :
    get (erase m key) key' = get m key' := by
  induction m with
  | nil => rfl
  | cons e rest ih =>
    obtain ⟨k, v⟩ := e
    by_cases hk : k = key
    · have hskip : erase ((k, v) :: rest) key = erase rest key := by simp [erase, hk]
      rw [hskip, ih, get, if_neg fun hkk => h (hkk.symm.trans hk)]
    · have hkeep : erase ((k, v) :: rest) key = (k, v) :: erase rest key := by simp [erase, hk]
      rw [hkeep, get, get, ih]

@[simp] theorem get_set_ne {m : Object} {key key' : String} {v : Json} (h : key' ≠ key) :
    get (set m key v) key' = get m key' := by
  rw [set, get, if_neg h.symm, get_erase_ne h]

/-- The keys of a map, each once. -/
def keys (m : Object) : List String := (m.map Prod.fst).dedup

theorem mem_keys {m : Object} {key : String} : key ∈ keys m ↔ ∃ v, (key, v) ∈ m := by
  rw [keys, List.mem_dedup, List.mem_map]
  exact ⟨fun ⟨e, he, hk⟩ => ⟨e.2, hk ▸ he⟩, fun ⟨v, hv⟩ => ⟨(key, v), hv, rfl⟩⟩

theorem mem_keys_set {m : Object} {key key' : String} {v : Json} :
    key' ∈ keys (set m key v) ↔ key' = key ∨ key' ∈ keys m := by
  simp only [mem_keys, set, erase, List.mem_cons, Prod.mk.injEq, List.mem_filter, Bool.not_eq_true',
    beq_eq_false_iff_ne, ne_eq]
  by_cases hk : key' = key
  · simp [hk]
  · simp [hk]

/-- A key that is not there reads as `nil`. -/
theorem get_of_not_mem {m : Object} {key : String} (h : key ∉ keys m) : get m key = .null := by
  induction m with
  | nil => rfl
  | cons e rest ih =>
    obtain ⟨k, v⟩ := e
    rw [mem_keys] at h ih
    rw [get, if_neg fun hk => h ⟨v, by simp [hk]⟩]
    exact ih fun ⟨w, hw⟩ => h ⟨w, List.mem_cons_of_mem _ hw⟩

/-- What is read after the values are mapped. -/
theorem get_map (m : Object) (f : Json → Json) (key : String) :
    get (m.map fun e => (e.1, f e.2)) key = if key ∈ keys m then f (get m key) else .null := by
  induction m with
  | nil => rfl
  | cons e rest ih =>
    obtain ⟨k, v⟩ := e
    by_cases hk : k = key
    · have hmem : key ∈ keys ((k, v) :: rest) := mem_keys.mpr ⟨v, by simp [hk]⟩
      rw [if_pos hmem, List.map_cons, get, get, if_pos hk, if_pos hk]
    · have hmem : key ∈ keys ((k, v) :: rest) ↔ key ∈ keys rest := by
        simp [mem_keys, Ne.symm hk]
      rw [List.map_cons, get, get, if_neg hk, if_neg hk, ih]
      simp only [hmem]

theorem keys_map (m : Object) (f : Json → Json) : keys (m.map fun e => (e.1, f e.2)) = keys m := by
  simp [keys, Function.comp_def]

end Object

/-- `stringValue`: anything but a string reads as the empty one. -/
def Json.stringValue : Json → String
  | .str s => s
  | _ => ""

def Json.boolValue : Json → Bool
  | .bool b => b
  | _ => false

/-- `stringSlice` of a decoded value. -/
def Json.stringSlice : Json → List String
  | .arr items => items.filterMap fun
    | .str s => some s
    | _ => none
  | _ => []

/-- The fields of an object, none of anything else. -/
def Json.fields : Json → Object
  | .obj fields => fields
  | _ => []

/-- The elements of an array, none of anything else. -/
def Json.items : Json → List Json
  | .arr items => items
  | _ => []

/-- `intValue` of a decoded value. -/
def Json.intValue : Json → Int
  | .num n => n
  | _ => 0

def strings (values : List String) : Json := .arr (values.map .str)

@[simp] theorem stringSlice_strings (values : List String) :
    (strings values).stringSlice = values := by
  simp [strings, Json.stringSlice, List.filterMap_map]

end LukePanel.Library.JsonObject
