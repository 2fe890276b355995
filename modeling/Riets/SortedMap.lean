/-
Finite maps as ascending association lists.

The maps of an index (hash maps and B-tree maps alike) are represented by the
list of their entries in key order, with the order carried as a field, so two
maps with the same bindings are equal (`ext_get?`) and every map can be
iterated.
-/
import Riets.Keyed

theorem exists_of_mem_mapM {α β : Type} {f : α → Option β} {l : List α} {bs : List β}
    (h : l.mapM f = some bs) {b : β} (hb : b ∈ bs) : ∃ a ∈ l, f a = some b := by
  induction l generalizing bs with
  | nil =>
    obtain rfl : [] = bs := Option.some_inj.mp h
    exact absurd hb List.not_mem_nil
  | cons a l ih =>
    rw [List.mapM_cons] at h
    obtain ⟨b', hb', h⟩ := Option.bind_eq_some_iff.mp h
    obtain ⟨bs', hbs', h⟩ := Option.bind_eq_some_iff.mp h
    obtain rfl : b' :: bs' = bs := Option.some_inj.mp h
    rcases List.mem_cons.mp hb with rfl | hb
    · exact ⟨a, List.mem_cons_self, hb'⟩
    · obtain ⟨a', ha', hf⟩ := ih hbs' hb
      exact ⟨a', List.mem_cons_of_mem a ha', hf⟩

structure SortedMap (K V : Type*) [LinearOrder K] where
  entries : List (K × V)
  ascending : Keyed.Ascending Prod.fst entries

namespace SortedMap

open List Keyed

variable {K V : Type*} [LinearOrder K]

instance [DecidableEq V] : DecidableEq (SortedMap K V) := fun m n =>
  decidable_of_iff (m.entries = n.entries) (by cases m; cases n; simp)

def empty : SortedMap K V := ⟨[], Pairwise.nil⟩

instance : Inhabited (SortedMap K V) := ⟨empty⟩

def get? (m : SortedMap K V) (k : K) : Option V :=
  (Keyed.find Prod.fst k m.entries).map Prod.snd

def size (m : SortedMap K V) : ℕ := m.entries.length

/-- Change the value at `k` to `f` of the old one, or insert `f none`. -/
def upsert (m : SortedMap K V) (k : K) (f : Option V → V) : SortedMap K V where
  entries := Keyed.upsert Prod.fst k (fun o => (k, f (o.map Prod.snd))) m.entries
  ascending := by
    exact ascending_upsert (by intro o; rfl) m.ascending

def insert (m : SortedMap K V) (k : K) (v : V) : SortedMap K V := m.upsert k fun _ => v

def filter (m : SortedMap K V) (p : K × V → Bool) : SortedMap K V where
  entries := m.entries.filter p
  ascending := ascending_filter m.ascending p

def map {W : Type*} (m : SortedMap K V) (f : V → W) : SortedMap K W where
  entries := m.entries.map fun e => (e.1, f e.2)
  ascending := by
    exact pairwise_map.mpr m.ascending

def erase (m : SortedMap K V) (k : K) : SortedMap K V := m.filter fun e => e.1 ≠ k

def extend {W : Type*} (f : Option V → W → V) (l : List (K × W)) (m : SortedMap K V) :
    SortedMap K V :=
  l.foldl (fun acc e => acc.upsert e.1 fun o => f o e.2) m

/-- Merge the entries of `n` into `m`. -/
def mergeWith (f : Option V → V → V) (m n : SortedMap K V) : SortedMap K V :=
  m.extend f n.entries

/-- Change the values at the keys of another map, each with a function of its
key. -/
def absorb {W : Type*} (f : K → Option V → W → V) (m : SortedMap K V) (n : SortedMap K W) :
    SortedMap K V :=
  n.entries.foldl (fun acc e => acc.upsert e.1 fun o => f e.1 o e.2) m

@[simp] theorem get?_empty (k : K) : (empty : SortedMap K V).get? k = none := rfl

theorem mem_entries {m : SortedMap K V} {k : K} {v : V} :
    (k, v) ∈ m.entries ↔ m.get? k = some v := by
  rw [mem_iff_find m.ascending, get?, Option.map_eq_some_iff]
  constructor
  · intro h
    exact ⟨(k, v), h, rfl⟩
  · rintro ⟨⟨k', v'⟩, h, rfl⟩
    obtain rfl : k' = k := find_key h
    exact h

theorem ext_get? {m n : SortedMap K V} (h : ∀ k, m.get? k = n.get? k) : m = n := by
  have hfind : ∀ k, find Prod.fst k m.entries = find Prod.fst k n.entries := by
    intro k
    have hk := h k
    simp only [get?] at hk
    cases hm : find Prod.fst k m.entries with
    | none => cases hn : find Prod.fst k n.entries <;> simp_all
    | some a =>
      cases hn : find Prod.fst k n.entries with
      | none => simp_all
      | some b =>
        have ha : a.1 = k := find_key hm
        have hb : b.1 = k := find_key hn
        simp only [hm, hn, Option.map_some, Option.some_inj] at hk
        rw [Option.some_inj]
        exact Prod.ext (ha.trans hb.symm) hk
  have := ext_find m.ascending n.ascending hfind
  cases m
  cases n
  simpa using this

theorem get?_upsert (m : SortedMap K V) (k : K) (f : Option V → V) (k' : K) :
    (m.upsert k f).get? k' = if k' = k then some (f (m.get? k)) else m.get? k' := by
  rw [get?, upsert, find_upsert (by intro o; rfl) m.ascending]
  split_ifs <;> simp [get?]

@[simp] theorem get?_insert (m : SortedMap K V) (k : K) (v : V) (k' : K) :
    (m.insert k v).get? k' = if k' = k then some v else m.get? k' :=
  get?_upsert m k _ k'

theorem size_insert_of_none {m : SortedMap K V} {k : K} (h : m.get? k = none) (v : V) :
    (m.insert k v).size = m.size + 1 :=
  length_upsert_of_none (by simpa [get?] using h)

theorem get?_filter (m : SortedMap K V) (p : K × V → Bool) (k : K) :
    (m.filter p).get? k = (m.get? k).filter fun v => p (k, v) := by
  rw [get?, filter, find_filter m.ascending, get?]
  cases h : find Prod.fst k m.entries with
  | none => rfl
  | some e =>
    have hk : e.1 = k := find_key h
    by_cases hp : p e <;> simp [Option.filter, ← hk, hp]

theorem get?_map {W : Type*} (m : SortedMap K V) (f : V → W) (k : K) :
    (m.map f).get? k = (m.get? k).map f := by
  rw [get?, get?, map, find, find, find?_map, Option.map_map, Option.map_map]
  rfl

@[simp] theorem get?_erase (m : SortedMap K V) (k k' : K) :
    (m.erase k).get? k' = if k' = k then none else m.get? k' := by
  rw [erase, get?_filter]
  by_cases h : k' = k <;> cases hm : m.get? k' <;> simp_all [Option.filter]

theorem get?_extend {W : Type*} (f : Option V → W → V) (l : List (K × W)) (m : SortedMap K V)
    (k : K) :
    (m.extend f l).get? k
      = (l.filter fun e => e.1 = k).foldl (fun o e => some (f o e.2)) (m.get? k) := by
  induction l generalizing m with
  | nil => rfl
  | cons e l ih =>
    have h := ih (m.upsert e.1 fun o => f o e.2)
    rw [extend, foldl_cons]
    rw [extend] at h
    rw [h, get?_upsert]
    by_cases hk : e.1 = k
    · subst hk
      simp
    · simp [hk, Ne.symm hk]

theorem get?_extend_of_nodup {l : List (K × V)} (h : (l.map Prod.fst).Nodup) {e : K × V} (he : e ∈ l) :
    (empty.extend (fun _ v => v) l : SortedMap K V).get? e.1 = some e.2 := by
  have hone : l.filter (fun e' => e'.1 = e.1) = [e] := by
    induction l with
    | nil => cases he
    | cons a l ih =>
      rw [map_cons, nodup_cons] at h
      rcases mem_cons.mp he with rfl | he
      · have hnone : l.filter (fun e' => e'.1 = e.1) = [] := by
          rw [filter_eq_nil_iff]
          exact fun b hb hkey => h.1 (by simpa using ⟨b.2, by simpa [← of_decide_eq_true hkey] using hb⟩)
        simp [hnone]
      · have hne : a.1 ≠ e.1 := fun heq => h.1 (heq ▸ mem_map_of_mem he)
        simp [hne, ih h.2 he]
  rw [get?_extend, hone]
  rfl

theorem get?_mergeWith (f : Option V → V → V) (m n : SortedMap K V) (k : K) :
    (m.mergeWith f n).get? k
      = match n.get? k with
        | none => m.get? k
        | some v => some (f (m.get? k) v) := by
  rw [mergeWith, get?_extend, filter_eq_find n.ascending]
  cases h : find Prod.fst k n.entries <;> simp [get?, h]

theorem extend_entries (m : SortedMap K V) : empty.extend (fun _ v => v) m.entries = m := by
  refine ext_get? fun k => ?_
  rw [← mergeWith, get?_mergeWith]
  cases m.get? k with
  | none => rfl
  | some v => rfl

theorem get?_absorb {W : Type*} (f : K → Option V → W → V) (m : SortedMap K V) (n : SortedMap K W)
    (k : K) :
    (m.absorb f n).get? k = ((n.get? k).map (f k (m.get? k))).or (m.get? k) := by
  have heq : m.absorb f n =
      m.extend (fun o (e : K × W) => f e.1 o e.2) (n.entries.map fun e => (e.1, e)) := by
    rw [absorb, extend, foldl_map]
  rw [heq, get?_extend, filter_map]
  show (List.map _ (n.entries.filter fun e => e.1 = k)).foldl _ _ = _
  rw [filter_eq_find n.ascending]
  cases h : find Prod.fst k n.entries with
  | none => simp [get?, h]
  | some e =>
    have hk : e.1 = k := find_key h
    simp [get?, h, hk]

theorem get?_foldl_upsert {A : Type*} (key : A → K) (f : Option V → A → V) (l : List A) (m : SortedMap K V)
    (k : K) : (l.foldl (fun acc a => acc.upsert (key a) fun o => f o a) m).get? k
      = (l.filter fun a => key a = k).foldl (fun o a => some (f o a)) (m.get? k) := by
  have heq : l.foldl (fun acc a => acc.upsert (key a) fun o => f o a) m =
      m.extend f (l.map fun a => (key a, a)) := by
    rw [extend, foldl_map]
  rw [heq, get?_extend, filter_map, foldl_map]
  rfl

theorem foldl_upsert_induction {A : Type*} {key : A → K} {f : Option V → A → V} {P : K → V → Prop}
    {l : List A} {m : SortedMap K V} (hm : ∀ k v, m.get? k = some v → P k v)
    (hf : ∀ a ∈ l, ∀ o, (∀ v, o = some v → P (key a) v) → P (key a) (f o a)) {k : K} {v : V}
    (h : (l.foldl (fun acc a => acc.upsert (key a) fun o => f o a) m).get? k = some v) : P k v := by
  induction l generalizing m with
  | nil => exact hm k v h
  | cons a l ih =>
    refine ih (m := m.upsert (key a) fun o => f o a) ?_ (fun b hb => hf b (mem_cons_of_mem a hb)) h
    intro k' v' hv'
    rw [get?_upsert] at hv'
    split_ifs at hv' with hk
    · subst hk
      obtain rfl := Option.some_inj.mp hv'
      exact hf a mem_cons_self _ fun v hv => hm (key a) v hv
    · exact hm k' v' hv'

def keys (m : SortedMap K V) : List K := m.entries.map Prod.fst

theorem keys_ascending (m : SortedMap K V) : m.keys.Pairwise (· < ·) :=
  pairwise_map.2 m.ascending

theorem mem_keys {m : SortedMap K V} {k : K} : k ∈ m.keys ↔ ∃ v, m.get? k = some v := by
  rw [keys, mem_map]
  constructor
  · rintro ⟨⟨k', v⟩, hmem, rfl⟩
    exact ⟨v, mem_entries.1 hmem⟩
  · rintro ⟨v, hv⟩
    exact ⟨(k, v), mem_entries.2 hv, rfl⟩

theorem keys_map {W : Type*} (m : SortedMap K V) (f : V → W) : (m.map f).keys = m.keys := by
  rw [keys, keys, map, map_map]
  rfl

theorem keys_insert_of_gt (m : SortedMap K V) {k : K} (hk : ∀ k' ∈ m.keys, k' < k) (v : V) :
    (m.insert k v).keys = m.keys ++ [k] := by
  refine (keys_ascending _).eq_of_mem_iff ?_ fun k' => ?_
  · refine pairwise_append.2 ⟨m.keys_ascending, pairwise_singleton _ _, ?_⟩
    intro a ha b hb
    rw [mem_singleton.1 hb]
    exact hk a ha
  · rw [mem_keys, mem_append, mem_singleton, mem_keys, get?_insert]
    by_cases h : k' = k <;> simp [h]

theorem keys_insert_of_mem (m : SortedMap K V) {k : K} (hk : k ∈ m.keys) (v : V) :
    (m.insert k v).keys = m.keys := by
  refine (keys_ascending _).eq_of_mem_iff m.keys_ascending fun k' => ?_
  rw [mem_keys, mem_keys, get?_insert]
  by_cases h : k' = k
  · simpa [h] using mem_keys.1 hk
  · simp [h]

theorem getLast?_entries {m : SortedMap K V} {k : K} {v : V} (hk : m.get? k = some v)
    (hmax : ∀ k' ∈ m.keys, k' ≤ k) : m.entries.getLast? = some (k, v) := by
  have hmem := mem_entries.2 hk
  rcases eq_nil_or_concat m.entries with hnil | ⟨init, e, hinit⟩
  · rw [hnil] at hmem
    cases hmem
  · rw [concat_eq_append] at hinit
    have hasc := m.ascending
    rw [hinit] at hasc hmem
    have hle : e.1 ≤ k := by
      refine hmax _ (mem_map_of_mem ?_)
      rw [hinit]
      exact mem_append_right _ (mem_singleton.2 rfl)
    rw [hinit, getLast?_append]
    rcases mem_append.1 hmem with hm | hm
    · have hlt : k < e.1 := (pairwise_append.1 hasc).2.2 _ hm e (mem_singleton.2 rfl)
      exact absurd hle (not_le_of_gt hlt)
    · rw [mem_singleton.1 hm]
      rfl

end SortedMap
