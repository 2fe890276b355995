/-
JSON values as `serde_json` has them.

An object is a map with its keys in order, so writing a key again replaces its value.  A value
is represented by the entries of its objects in the order of the keys; `Json.Ok` says that they
are in that order all the way down, which holds of every value that is parsed or written.
-/
import Riets.SortedMap
import Mathlib.Data.String.Basic

/-- `serde_json::Number`: which of its three kinds a number is decides how it reads. -/
inductive JsonNumber where
  | posInt (n : ℕ)
  | negInt (n : ℕ)
  | float (bits : BitVec 64)
  deriving DecidableEq, Repr

/-- `serde_json::Value`. -/
inductive Json where
  | null
  | bool (b : Bool)
  | number (n : JsonNumber)
  | string (s : String)
  | array (items : List Json)
  | object (entries : List (String × Json))

namespace Json

open SortedMap List Keyed

mutual

/-- The keys of every object ascend, as in a `BTreeMap`. -/
def Ok : Json → Prop
  | null => True
  | bool _ => True
  | number _ => True
  | string _ => True
  | array items => OkItems items
  | object entries => Ascending Prod.fst entries ∧ OkEntries entries

def OkItems : List Json → Prop
  | [] => True
  | item :: items => Ok item ∧ OkItems items

def OkEntries : List (String × Json) → Prop
  | [] => True
  | (_, value) :: entries => Ok value ∧ OkEntries entries

end

/-- The value under a key. -/
def get (entries : List (String × Json)) (key : String) : Option Json :=
  (Keyed.find Prod.fst key entries).map Prod.snd

/-- The entries as a map; a later one replaces an earlier one. -/
def mapOf (entries : List (String × Json)) : SortedMap String Json :=
  SortedMap.empty.extend (fun _ value => value) entries

/-- An object of entries in any order. -/
def ofEntries (entries : List (String × Json)) : Json := object (mapOf entries).entries

section Entries

variable {entries : List (String × Json)}

theorem get_mapOf (hnodup : (entries.map Prod.fst).Nodup) {key : String} {value : Json} :
    get (mapOf entries).entries key = some value ↔ (key, value) ∈ entries := by
  show (mapOf entries).get? key = some value ↔ _
  constructor
  · intro h
    by_cases hkey : key ∈ entries.map Prod.fst
    · obtain ⟨⟨_, value'⟩, hmem, rfl⟩ := mem_map.mp hkey
      rw [mapOf, get?_extend_of_nodup hnodup hmem] at h
      rwa [← Option.some_inj.mp h]
    · have hnone : entries.filter (fun e => e.1 = key) = [] := by
        refine filter_eq_nil_iff.mpr fun e he heq => hkey ?_
        exact mem_map.mpr ⟨e, he, of_decide_eq_true heq⟩
      rw [mapOf, get?_extend, hnone] at h
      cases h
  · intro h
    exact get?_extend_of_nodup hnodup h

theorem get_mapOf_eq (hnodup : (entries.map Prod.fst).Nodup) {key : String} {o : Option Json}
    (h : ∀ value, (key, value) ∈ entries ↔ o = some value) : get (mapOf entries).entries key = o :=
  Option.ext fun value => (get_mapOf hnodup).trans (h value)

theorem get_of_keys {keys : List String} (hkeys : entries.map Prod.fst = keys) (hnodup : keys.Nodup) :
    ∀ e ∈ entries, get (mapOf entries).entries e.1 = some e.2 := by
  rw [← hkeys] at hnodup
  exact fun e he => (get_mapOf hnodup).mpr he

theorem get_mapOf_none {key : String} (h : key ∉ entries.map Prod.fst) : get (mapOf entries).entries key = none := by
  have hnone : entries.filter (fun e => e.1 = key) = [] := by
    refine filter_eq_nil_iff.mpr fun e he heq => h ?_
    exact mem_map.mpr ⟨e, he, of_decide_eq_true heq⟩
  show (mapOf entries).get? key = none
  rw [mapOf, get?_extend, hnone]
  rfl

theorem filter_mapOf (hnodup : (entries.map Prod.fst).Nodup) {keep : String × Json → Bool}
    (hasc : Ascending Prod.fst (entries.filter keep)) : (mapOf entries).entries.filter keep = entries.filter keep := by
  have hirrefl : Std.Irrefl fun a b : String × Json => a.1 < b.1 := ⟨fun a => lt_irrefl a.1⟩
  refine ((mapOf entries).ascending.filter keep).eq_of_mem_iff hasc fun e => ?_
  rw [mem_filter, mem_filter]
  refine and_congr_left fun _ => ?_
  exact mem_entries.trans (get_mapOf hnodup)

theorem mapOf_ascending (hasc : Ascending Prod.fst entries) : (mapOf entries).entries = entries := by
  have hmap := extend_entries (⟨entries, hasc⟩ : SortedMap String Json)
  exact congrArg SortedMap.entries hmap

end Entries

end Json
