/-
The longest synonym match.

The walk along the trie of a dictionary finds the greatest length at which a form has the
lookup keys of the words and was typed as it must be, the same as a search over all forms
(`Built.walkKeys_eq`).  The layers together find the greatest length of any of them, with
the alternatives of the groups that match at it (`Synonyms.matchAt_spec`).
-/
import Riets.Synonyms

open WordTrie List Fallible

def nodesOf (alternatives : List NodeAlternative) : List QueryNode := alternatives.map NodeAlternative.node

theorem nodesOf_pushUnique (out : List NodeAlternative) (alternative : NodeAlternative) :
    nodesOf (pushUnique out alternative) =
      if alternative.node ∈ nodesOf out then nodesOf out else nodesOf out ++ [alternative.node] := by
  rw [pushUnique]
  cases hplace : out.findIdx? (·.node = alternative.node) with
  | some place =>
    obtain ⟨hlt, hnode, -⟩ := findIdx?_eq_some_iff_getElem.1 hplace
    have hmem : alternative.node ∈ nodesOf out := by
      rw [← of_decide_eq_true hnode]
      exact mem_map_of_mem (getElem_mem hlt)
    rw [if_pos hmem]
    refine ext_getElem? fun i => ?_
    simp only [nodesOf, getElem?_map, getElem?_modify]
    cases out[i]? with
    | none => rfl
    | some known =>
      show some _ = some _
      split_ifs
      · rfl
      · rfl
  | none =>
    have hmem : alternative.node ∉ nodesOf out := by
      intro hmem
      obtain ⟨known, hknown, hnode⟩ := mem_map.1 hmem
      have hne := findIdx?_eq_none_iff.1 hplace known hknown
      exact absurd hnode (of_decide_eq_false hne)
    rw [if_neg hmem, nodesOf, map_append]
    rfl

theorem mem_nodesOf_foldl {out : List NodeAlternative} {l : List NodeAlternative} {node : QueryNode} :
    node ∈ nodesOf (l.foldl pushUnique out) ↔ node ∈ nodesOf out ∨ node ∈ nodesOf l := by
  induction l generalizing out with
  | nil => simp [nodesOf]
  | cons alternative l ih =>
    have hcons : node ∈ nodesOf (alternative :: l) ↔ node = alternative.node ∨ node ∈ nodesOf l :=
      mem_cons
    rw [foldl_cons, ih, nodesOf_pushUnique, hcons]
    by_cases hmem : alternative.node ∈ nodesOf out
    · rw [if_pos hmem]
      constructor
      · rintro (h | h)
        · exact Or.inl h
        · exact Or.inr (Or.inr h)
      · rintro (h | rfl | h)
        · exact Or.inl h
        · exact Or.inl hmem
        · exact Or.inr h
    · rw [if_neg hmem, mem_append, mem_singleton, or_assoc]

theorem nodup_nodesOf_foldl {out : List NodeAlternative} (l : List NodeAlternative)
    (h : (nodesOf out).Nodup) : (nodesOf (l.foldl pushUnique out)).Nodup := by
  induction l generalizing out with
  | nil => exact h
  | cons alternative l ih =>
    refine ih ?_
    rw [nodesOf_pushUnique]
    split_ifs with hmem
    · exact h
    · rw [nodup_append]
      refine ⟨h, nodup_singleton _, fun a ha b hb heq => ?_⟩
      rw [heq, mem_singleton.1 hb] at ha
      exact hmem ha

/-! ### One dictionary -/

/-- A form of the group that is looked up has the keys and was typed as it must be. -/
def SynonymGroup.MatchesAt (tables : UnicodeTables) (analyze : String → List String) (group : SynonymGroup)
    (surface keys : List String) (len : ℕ) : Prop :=
  ∃ v ∈ group.findable, v.key tables analyze = keys.take len ∧ v.matchesTyped (surface.take len)

theorem SynonymGroup.variants_of_findable {group : SynonymGroup} {i : ℕ} {v : Variant}
    (h : group.findable[i]? = some v) : group.variants[i]? = some v := by
  rw [findable] at h
  split_ifs at h
  · rw [getElem?_take] at h
    split_ifs at h
    exact h
  · exact h

namespace SynonymDictionary

open List Fallible

variable {tables : UnicodeTables} {analyze : String → List String} {d : SynonymDictionary}

def Refers (d : SynonymDictionary) (r : VariantRef) (v : Variant) : Prop :=
  ∃ group, d.groups[r.group]? = some group ∧ group.findable[r.variant]? = some v

variable {r : VariantRef}

theorem Refers.variantAt {v : Variant} (h : d.Refers r v) : d.variantAt r = .ok v := by
  obtain ⟨group, hgroup, hv⟩ := h
  rw [SynonymDictionary.variantAt, index_of_some hgroup, ok_bind,
    index_of_some (SynonymGroup.variants_of_findable hv)]

theorem mem_entries {groups : List SynonymGroup} {path : List String} :
    (path, r) ∈ DictionaryBuilder.entries tables analyze groups ↔
      ∃ group, groups[r.group]? = some group ∧ ∃ v, group.findable[r.variant]? = some v ∧
        v.key tables analyze = path := by
  rw [DictionaryBuilder.entries, mem_flatMap]
  constructor
  · rintro ⟨⟨group, groupIndex⟩, hgroup, hmem⟩
    obtain ⟨⟨v, variantIndex⟩, hv, heq⟩ := mem_map.1 hmem
    cases heq
    exact ⟨group, mem_zipIdx_iff_getElem?.1 hgroup, v, mem_zipIdx_iff_getElem?.1 hv, rfl⟩
  · rintro ⟨group, hgroup, v, hv, rfl⟩
    refine ⟨(group, r.group), mem_zipIdx_iff_getElem?.2 hgroup, mem_map.2 ?_⟩
    exact ⟨(v, r.variant), mem_zipIdx_iff_getElem?.2 hv, rfl⟩

structure Built (tables : UnicodeTables) (analyze : String → List String) (b : DictionaryBuilder)
    (d : SynonymDictionary) : Prop where
  groups : d.groups = b.groups
  roman : d.roman = b.roman
  trie : ∃ paths, Labelled d.nodes paths (DictionaryBuilder.entries tables analyze b.groups)

theorem build_built (tables : UnicodeTables) (analyze : String → List String) (b : DictionaryBuilder) :
    ∃ d, b.build tables analyze = .ok d ∧ Built tables analyze b d := by
  obtain ⟨nodes, paths, hbuild, hlabelled⟩ :=
    build_labelled (DictionaryBuilder.entries tables analyze b.groups)
  refine ⟨⟨nodes, b.groups, b.roman⟩, ?_, rfl, rfl, paths, hlabelled⟩
  rw [DictionaryBuilder.build, hbuild]
  rfl

def typedAs (d : SynonymDictionary) (typed : List String) (r : VariantRef) : Bool :=
  ((d.groups[r.group]?).bind fun group => group.findable[r.variant]?).any (·.matchesTyped typed)

theorem Refers.typedAs {v : Variant} (h : d.Refers r v) (typed : List String) :
    d.typedAs typed r = v.matchesTyped typed := by
  obtain ⟨group, hgroup, hv⟩ := h
  rw [SynonymDictionary.typedAs, hgroup, Option.bind_some, hv, Option.any_some]

variable {len : ℕ}

theorem matchedTerminals_eq {surface : List String} (hlen : len ≤ surface.length)
    {refs : List VariantRef} (hrefs : ∀ r ∈ refs, ∃ v, d.Refers r v) :
    d.matchedTerminals surface len refs = .ok (refs.filter (d.typedAs (surface.take len))) := by
  induction refs with
  | nil => rfl
  | cons r refs ih =>
    obtain ⟨v, hv⟩ := hrefs r (mem_cons_self ..)
    have ih' := ih fun r' hr' => hrefs r' (mem_cons_of_mem _ hr')
    rw [matchedTerminals, hv.variantAt, ok_bind, slice_of_le (Nat.zero_le _) hlen,
      ok_bind, ih', ok_bind, drop_zero, filter_cons, hv.typedAs]
    rfl

def foundAt (tables : UnicodeTables) (analyze : String → List String) (d : SynonymDictionary)
    (surface keys : List String) (accept : ℕ → Bool) (len : ℕ) : List VariantRef :=
  if accept len then
    (((DictionaryBuilder.entries tables analyze d.groups).filter fun e => e.1 = keys.take len).map
      Prod.snd).filter (d.typedAs (surface.take len))
  else []

variable {b : DictionaryBuilder} {surface keys : List String} {accept : ℕ → Bool}
  {acceptLen : ℕ → Fallible Bool}

theorem mem_foundAt :
    r ∈ d.foundAt tables analyze surface keys accept len ↔
      accept len ∧ ∃ v, d.Refers r v ∧ v.key tables analyze = keys.take len ∧
        v.matchesTyped (surface.take len) := by
  rw [foundAt]
  split_ifs with haccept
  · rw [mem_filter, mem_map]
    constructor
    · rintro ⟨⟨⟨path, r'⟩, he, rfl⟩, htyped⟩
      obtain ⟨he, hpath⟩ := mem_filter.1 he
      obtain ⟨group, hgroup, v, hv, hkey⟩ := mem_entries.1 he
      have hrefers : d.Refers r' v := ⟨group, hgroup, hv⟩
      rw [hrefers.typedAs] at htyped
      exact ⟨haccept, v, hrefers, hkey.trans (of_decide_eq_true hpath), htyped⟩
    · rintro ⟨-, v, hrefers, hkey, htyped⟩
      obtain ⟨group, hgroup, hv⟩ := id hrefers
      refine ⟨⟨(keys.take len, r), mem_filter.2 ⟨?_, decide_eq_true rfl⟩, rfl⟩, ?_⟩
      · exact mem_entries.2 ⟨group, hgroup, v, hv, hkey⟩
      · rwa [hrefers.typedAs]
  · constructor
    · intro hmem
      cases hmem
    · rintro ⟨h, -⟩
      exact absurd h haccept

theorem Built.walkKeys_eq (h : Built tables analyze b d) (hlen : keys.length ≤ surface.length)
    (haccept : ∀ len, 0 < len → len ≤ keys.length → acceptLen len = .ok (accept len)) :
    d.walkKeys surface acceptLen keys 0 0 none =
      .ok (longest (d.foundAt tables analyze surface keys accept) keys.length) := by
  obtain ⟨paths, hlabelled⟩ := h.trie
  rw [← h.groups] at hlabelled
  have hwalk : ∀ (rest done : List String) (node : ℕ), keys = done ++ rest → paths[node]? = some done →
      d.walkKeys surface acceptLen rest done.length node
          (longest (d.foundAt tables analyze surface keys accept) done.length) =
        .ok (longest (d.foundAt tables analyze surface keys accept) keys.length) := by
    intro rest
    induction rest with
    | nil =>
      intro done node hkeys _
      rw [walkKeys, hkeys, append_nil]
    | cons key rest ih =>
      intro done node hkeys hnode
      have htake : keys.take (done.length + 1) = done ++ [key] := by
        rw [hkeys, append_cons]
        exact take_left' (by simp)
      have hkeys' : keys.length = done.length + (rest.length + 1) := by
        rw [hkeys, length_append, length_cons]
      obtain ⟨next, hchild, hnext⟩ := hlabelled.child_eq hnode key
      rw [walkKeys, hchild, ok_bind]
      cases next with
      | none =>
        -- no form goes on with the key
        have hnone : ∀ len, done.length < len → len ≤ done.length + (rest.length + 1) →
            d.foundAt tables analyze surface keys accept len = [] := by
          intro len hlt hle
          rw [eq_nil_iff_forall_not_mem]
          intro r hr
          obtain ⟨-, v, ⟨group, hgroup, hv⟩, hkey, -⟩ := mem_foundAt.1 hr
          have hentry := mem_entries.2 ⟨group, hgroup, v, hv, hkey⟩
          have hout : ∀ j : ℕ, paths[j]? ≠ some (done ++ [key]) := by
            intro j hj
            cases (hnext j).2 hj
          refine hlabelled.no_entry hout hentry (rest.take (len - (done.length + 1))) ?_
          obtain ⟨k, rfl⟩ := Nat.exists_eq_add_of_lt hlt
          have hk : done.length + k + 1 - done.length = k + 1 := by omega
          have hk' : done.length + k + 1 - (done.length + 1) = k := by omega
          rw [hkeys, take_append, take_of_length_le (by omega), hk, hk', take_succ_cons]
        rw [hkeys', longest_add _ hnone]
      | some next =>
        have hpath := (hnext next).1 rfl
        have hdone : (done ++ [key]).length = done.length + 1 := by
          rw [length_append, length_singleton]
        have ih' := ih (done ++ [key]) next (by rw [hkeys, append_cons]) hpath
        rw [hdone] at ih'
        obtain ⟨reached, hreached⟩ := hlabelled.node hpath
        have hterminals := hlabelled.terminals next reached _ hreached hpath
        have hrefs : ∀ r ∈ reached.terminals, ∃ v, d.Refers r v := by
          intro r hr
          rw [hterminals] at hr
          obtain ⟨⟨path, r'⟩, he, rfl⟩ := mem_map.1 hr
          obtain ⟨group, hgroup, v, hv, -⟩ := mem_entries.1 (mem_of_mem_filter he)
          exact ⟨v, group, hgroup, hv⟩
        have hmatched := matchedTerminals_eq (show done.length + 1 ≤ surface.length by omega) hrefs
        rw [hterminals] at hmatched
        have hlongest : longest (d.foundAt tables analyze surface keys accept) (done.length + 1) =
            if (d.foundAt tables analyze surface keys accept (done.length + 1)).isEmpty then
              longest (d.foundAt tables analyze surface keys accept) done.length
            else some (done.length + 1, d.foundAt tables analyze surface keys accept (done.length + 1)) := rfl
        rw [hlongest] at ih'
        simp only [haccept (done.length + 1) (Nat.succ_pos _) (by omega), ok_bind,
          index_of_some hreached, hterminals, hmatched]
        by_cases ha : accept (done.length + 1)
        · have hfound : d.foundAt tables analyze surface keys accept (done.length + 1) =
              (((DictionaryBuilder.entries tables analyze d.groups).filter fun e =>
                e.1 = done ++ [key]).map Prod.snd).filter
                  (d.typedAs (surface.take (done.length + 1))) := by
            rw [foundAt, if_pos ha, htake]
          rw [if_pos ha, ← hfound]
          exact ih'
        · have hfound : d.foundAt tables analyze surface keys accept (done.length + 1) = [] := if_neg ha
          rw [hfound] at ih'
          rw [if_neg ha]
          exact ih'
  exact hwalk keys [] 0 rfl hlabelled.root

theorem exists_collect {α γ : Type} {f : γ → Fallible α} {l : List γ} (h : ∀ x ∈ l, ∃ a, f x = .ok a) :
    ∃ as, collect (l.map f) = .ok as ∧ ∀ a, a ∈ as ↔ ∃ x ∈ l, f x = .ok a := by
  induction l with
  | nil => exact ⟨[], rfl, fun a => by simp⟩
  | cons x l ih =>
    obtain ⟨a, ha⟩ := h x (mem_cons_self ..)
    obtain ⟨as, has, hmem⟩ := ih fun y hy => h y (mem_cons_of_mem _ hy)
    refine ⟨a :: as, ?_, fun a' => ?_⟩
    · rw [map_cons, collect, ha, ok_bind, has]
      rfl
    · rw [mem_cons, hmem, exists_mem_cons_iff, ha, ok.injEq, eq_comm]

def Offers (tables : UnicodeTables) (analyze : String → List String) (b : DictionaryBuilder)
    (surface keys : List String) (len : ℕ) (node : QueryNode) : Prop :=
  ∃ group ∈ b.groups, group.MatchesAt tables analyze surface keys len ∧
    ((∃ v ∈ group.variants, v.toNode tables = node) ∨
      len = 1 ∧ ∃ word, surface.head? = some word ∧
        node ∈ nodesOf ((b.roman.expandNumber tables word).getD []))

theorem Built.foundAt_ne_nil (h : Built tables analyze b d) (haccept : accept len) :
    d.foundAt tables analyze surface keys accept len ≠ [] ↔
      ∃ group ∈ b.groups, group.MatchesAt tables analyze surface keys len := by
  rw [← h.groups]
  constructor
  · intro hne
    obtain ⟨r, hr⟩ := exists_mem_of_ne_nil _ hne
    obtain ⟨-, v, ⟨group, hgroup, hv⟩, hkey, htyped⟩ := mem_foundAt.1 hr
    exact ⟨group, mem_of_getElem? hgroup, v, mem_of_getElem? hv, hkey, htyped⟩
  · rintro ⟨group, hgroup, v, hv, hkey, htyped⟩ hnil
    obtain ⟨i, hi⟩ := mem_iff_getElem?.1 hgroup
    obtain ⟨j, hj⟩ := mem_iff_getElem?.1 hv
    have hmem : (⟨i, j⟩ : VariantRef) ∈ d.foundAt tables analyze surface keys accept len :=
      mem_foundAt.2 ⟨haccept, v, ⟨group, hi, hj⟩, hkey, htyped⟩
    rw [hnil] at hmem
    cases hmem

theorem Built.matchOf_eq (h : Built tables analyze b d) (keys : List String)
    (haccept : accept len) (hsurface : len ≤ surface.length) :
    ∃ m, d.matchOf tables surface len (d.foundAt tables analyze surface keys accept len) = .ok m ∧
      m.len = len ∧ (nodesOf m.alternatives).Nodup ∧
      ((∃ group ∈ b.groups, group.MatchesAt tables analyze surface keys len) →
        ∀ node, node ∈ nodesOf m.alternatives ↔ Offers tables analyze b surface keys len node) := by
  have hrefers : ∀ r ∈ d.foundAt tables analyze surface keys accept len, ∃ v, d.Refers r v := by
    intro r hr
    obtain ⟨-, v, hv, -⟩ := mem_foundAt.1 hr
    exact ⟨v, hv⟩
  obtain ⟨variants, hvariants, -⟩ := exists_collect fun r hr => by
    obtain ⟨v, hv⟩ := hrefers r hr
    exact ⟨v, hv.variantAt⟩
  let indexes := (((d.foundAt tables analyze surface keys accept len).map VariantRef.group).insertionSort
    (· ≤ ·)).dedup
  have hindexes : ∀ i, i ∈ indexes ↔
      ∃ r ∈ d.foundAt tables analyze surface keys accept len, r.group = i := by
    intro i
    rw [mem_dedup, mem_insertionSort, mem_map]
  obtain ⟨groups, hgroups, hmem⟩ := exists_collect (f := index d.groups) (l := indexes)
    fun i hi => by
      obtain ⟨r, hr, rfl⟩ := (hindexes i).1 hi
      obtain ⟨v, group, hgroup, -⟩ := hrefers r hr
      exact ⟨group, index_of_some hgroup⟩
  have hmatching : ∀ group, group ∈ groups ↔
      group ∈ b.groups ∧ group.MatchesAt tables analyze surface keys len := by
    intro group
    rw [hmem, ← h.groups]
    constructor
    · rintro ⟨i, hi, hgroup⟩
      obtain ⟨r, hr, rfl⟩ := (hindexes i).1 hi
      obtain ⟨-, v, ⟨group', hgroup', hv⟩, hkey, htyped⟩ := mem_foundAt.1 hr
      rw [index_of_some hgroup'] at hgroup
      cases hgroup
      exact ⟨mem_of_getElem? hgroup', v, mem_of_getElem? hv, hkey, htyped⟩
    · rintro ⟨hgroup, v, hv, hkey, htyped⟩
      obtain ⟨i, hi⟩ := mem_iff_getElem?.1 hgroup
      obtain ⟨j, hj⟩ := mem_iff_getElem?.1 hv
      have hr : (⟨i, j⟩ : VariantRef) ∈ d.foundAt tables analyze surface keys accept len :=
        mem_foundAt.2 ⟨haccept, v, ⟨group, hi, hj⟩, hkey, htyped⟩
      exact ⟨i, (hindexes i).2 ⟨_, hr, rfl⟩, index_of_some hi⟩
  have hforms : ∀ node, node ∈ nodesOf ((groups.flatMap SynonymGroup.variants).map (alternativeOf tables)) ↔
      ∃ group ∈ b.groups, group.MatchesAt tables analyze surface keys len ∧
        ∃ v ∈ group.variants, v.toNode tables = node := by
    intro node
    rw [nodesOf, map_map, mem_map]
    constructor
    · rintro ⟨v, hv, hnode⟩
      obtain ⟨group, hgroup, hv⟩ := mem_flatMap.1 hv
      obtain ⟨hgroup, hmatches⟩ := (hmatching group).1 hgroup
      exact ⟨group, hgroup, hmatches, v, hv, hnode⟩
    · rintro ⟨group, hgroup, hmatches, v, hv, hnode⟩
      exact ⟨v, mem_flatMap.2 ⟨group, (hmatching group).2 ⟨hgroup, hmatches⟩, hv⟩, hnode⟩
  have hnil : nodesOf [] = [] := rfl
  rw [matchOf, hvariants, ok_bind]
  simp only [indexes] at hgroups
  rw [hgroups, ok_bind, ← foldl_map]
  by_cases hone : len = 1
  · obtain ⟨word, hword⟩ : ∃ word, surface[0]? = some word := ⟨_, getElem?_eq_getElem (by omega)⟩
    rw [if_pos hone, index_of_some hword]
    refine ⟨_, rfl, rfl, nodup_nodesOf_foldl _ (nodup_nodesOf_foldl _ nodup_nil), ?_⟩
    rintro ⟨group, hgroup, hmatches⟩ node
    rw [mem_nodesOf_foldl, mem_nodesOf_foldl, hforms, hnil, Offers, expandNumber, h.roman]
    rw [← head?_eq_getElem?] at hword
    constructor
    · rintro ((hnode | ⟨group', hgroup', hmatches', hnode⟩) | hnode)
      · cases hnode
      · exact ⟨group', hgroup', hmatches', Or.inl hnode⟩
      · exact ⟨group, hgroup, hmatches, Or.inr ⟨hone, word, hword, hnode⟩⟩
    · rintro ⟨group', hgroup', hmatches', hnode | ⟨-, word', hword', hnode⟩⟩
      · exact Or.inl (Or.inr ⟨group', hgroup', hmatches', hnode⟩)
      · rw [hword] at hword'
        cases hword'
        exact Or.inr hnode
  · rw [if_neg hone]
    refine ⟨_, rfl, rfl, nodup_nodesOf_foldl _ nodup_nil, ?_⟩
    rintro - node
    rw [mem_nodesOf_foldl, hforms, hnil, Offers]
    constructor
    · rintro (hnode | ⟨group, hgroup, hmatches, hnode⟩)
      · cases hnode
      · exact ⟨group, hgroup, hmatches, Or.inl hnode⟩
    · rintro ⟨group, hgroup, hmatches, hnode | ⟨hone', -⟩⟩
      · exact Or.inr ⟨group, hgroup, hmatches, hnode⟩
      · exact absurd hone' hone

theorem take_maxPhraseTokens (h : len ≤ maxPhraseTokens) (keys : List String) :
    (keys.take maxPhraseTokens).take len = keys.take len := by
  rw [take_take, min_eq_left h]

end SynonymDictionary

/-! ### The layers -/

section Layers

variable (tables : UnicodeTables) (surface keys : List String) (accept : ℕ → Bool)

def Admitted (len : ℕ) : Prop := 0 < len ∧ len ≤ keys.length ∧ len ≤ maxPhraseTokens ∧ accept len

def LayerMatches (layer : DictionaryBuilder × (String → List String)) (len : ℕ) : Prop :=
  ∃ group ∈ layer.1.groups, group.MatchesAt tables layer.2 surface keys len

def LayerOffers (layer : DictionaryBuilder × (String → List String)) (len : ℕ) (node : QueryNode) : Prop :=
  SynonymDictionary.Offers tables layer.2 layer.1 surface keys len node

/-- The match of some layers: the greatest length at which a group of any of them matches, with what
the groups that match at it offer. -/
structure MatchOf (layers : List (DictionaryBuilder × (String → List String)))
    (found : Option SynonymMatch) : Prop where
  nothing : found = none → ∀ len, Admitted keys accept len → ∀ layer ∈ layers,
    ¬ LayerMatches tables surface keys layer len
  best : ∀ m, found = some m → Admitted keys accept m.len ∧
    (∃ layer ∈ layers, LayerMatches tables surface keys layer m.len) ∧
    (∀ len, m.len < len → Admitted keys accept len → ∀ layer ∈ layers,
      ¬ LayerMatches tables surface keys layer len) ∧
    (∀ node, node ∈ nodesOf m.alternatives ↔
      ∃ layer ∈ layers, LayerOffers tables surface keys layer m.len node) ∧
    (nodesOf m.alternatives).Nodup

end Layers

section Layers

variable {tables : UnicodeTables} {surface keys : List String} {accept : ℕ → Bool}
  {acceptLen : ℕ → Fallible Bool}

theorem LayerOffers.matches {layer : DictionaryBuilder × (String → List String)} {len : ℕ}
    {node : QueryNode} (h : LayerOffers tables surface keys layer len node) :
    LayerMatches tables surface keys layer len := by
  obtain ⟨group, hgroup, hmatches, -⟩ := h
  exact ⟨group, hgroup, hmatches⟩

theorem SynonymDictionary.Built.matchAt_eq {analyze : String → List String} {b : DictionaryBuilder}
    {d : SynonymDictionary} (h : SynonymDictionary.Built tables analyze b d)
    (hlen : keys.length = surface.length)
    (haccept : ∀ len, 0 < len → len ≤ keys.length → acceptLen len = .ok (accept len)) :
    ∃ found, d.matchAt tables surface keys acceptLen = .ok found ∧
      MatchOf tables surface keys accept [(b, analyze)] found := by
  have hkeys : (keys.take maxPhraseTokens).length = min maxPhraseTokens keys.length := length_take
  have hle : (keys.take maxPhraseTokens).length ≤ surface.length := by omega
  have hwalk := h.walkKeys_eq hle fun len hpos hlen' => haccept len hpos (by omega)
  have hfound : ∀ len, len ≤ maxPhraseTokens →
      d.foundAt tables analyze surface (keys.take maxPhraseTokens) accept len =
        d.foundAt tables analyze surface keys accept len := by
    intro len hlen'
    rw [SynonymDictionary.foundAt, SynonymDictionary.foundAt,
      SynonymDictionary.take_maxPhraseTokens hlen']
  have hmatches : ∀ len, Admitted keys accept len →
      (d.foundAt tables analyze surface keys accept len ≠ [] ↔
        LayerMatches tables surface keys (b, analyze) len) :=
    fun len hlen' => h.foundAt_ne_nil hlen'.2.2.2
  rw [SynonymDictionary.matchAt, hwalk, ok_bind]
  cases hlongest : longest (d.foundAt tables analyze surface (keys.take maxPhraseTokens) accept)
      (keys.take maxPhraseTokens).length with
  | none =>
    refine ⟨none, rfl, fun _ len hlen' layer hlayer hlayerMatches => ?_, fun m hm => by cases hm⟩
    obtain rfl := mem_singleton.1 hlayer
    refine (hmatches len hlen').2 hlayerMatches ?_
    obtain ⟨hpos, hle', hmax, -⟩ := hlen'
    rw [← hfound len hmax]
    exact longest_eq_none.1 hlongest len hpos (by omega)
  | some best =>
    obtain ⟨len, matched⟩ := best
    obtain ⟨hpos, hle', rfl, hne, hafter⟩ := longest_eq_some hlongest
    have hmax : len ≤ maxPhraseTokens := by omega
    rw [hfound len hmax] at hne
    have haccepted : accept len := by
      by_contra hnot
      exact hne (if_neg hnot)
    have hadmitted : Admitted keys accept len := ⟨hpos, by omega, hmax, haccepted⟩
    obtain ⟨m, hm, rfl, hnodup, hnodes⟩ := h.matchOf_eq keys haccepted (show len ≤ surface.length by omega)
    have hlayer := (hmatches m.len hadmitted).1 hne
    simp only [hfound m.len hmax, hm, ok_bind]
    refine ⟨some m, rfl, ?_, ?_⟩
    · intro hnone
      cases hnone
    intro m' hm'
    cases hm'
    refine ⟨hadmitted, ⟨_, mem_singleton_self _, hlayer⟩, ?_, fun node => ?_, hnodup⟩
    · intro len' hlt hadmitted' layer hlayer' hlayerMatches
      obtain rfl := mem_singleton.1 hlayer'
      refine (hmatches len' hadmitted').2 hlayerMatches ?_
      obtain ⟨-, hle'', hmax', -⟩ := hadmitted'
      rw [← hfound len' hmax']
      exact hafter len' hlt (by omega)
    · rw [hnodes hlayer node]
      constructor
      · intro hoffers
        exact ⟨_, mem_singleton_self _, hoffers⟩
      · rintro ⟨layer, hlayer', hoffers⟩
        obtain rfl := mem_singleton.1 hlayer'
        exact hoffers

variable {xs ys zs : List (DictionaryBuilder × (String → List String))}

variable {m : SynonymMatch}

theorem MatchOf.extend (h : MatchOf tables surface keys accept xs (some m))
    (hzs : ∀ layer, layer ∈ zs ↔ layer ∈ xs ∨ layer ∈ ys)
    (hsilent : ∀ len, m.len ≤ len → Admitted keys accept len → ∀ layer ∈ ys,
      ¬ LayerMatches tables surface keys layer len) :
    MatchOf tables surface keys accept zs (some m) := by
  obtain ⟨hadmitted, ⟨layer, hlayer, hmatches⟩, hlongest, hnodes, hnodup⟩ := h.best m rfl
  refine ⟨?_, ?_⟩
  · intro hnone
    cases hnone
  · intro m' hm'
    cases hm'
    refine ⟨hadmitted, ⟨layer, (hzs layer).2 (Or.inl hlayer), hmatches⟩, ?_, fun node => ?_, hnodup⟩
    · intro len hlt hlen layer' hlayer'
      obtain hlayer' | hlayer' := (hzs layer').1 hlayer'
      · exact hlongest len hlt hlen layer' hlayer'
      · exact hsilent len hlt.le hlen layer' hlayer'
    · rw [hnodes node]
      constructor
      · rintro ⟨layer', hlayer', hoffers⟩
        exact ⟨layer', (hzs layer').2 (Or.inl hlayer'), hoffers⟩
      · rintro ⟨layer', hlayer', hoffers⟩
        obtain hlayer' | hlayer' := (hzs layer').1 hlayer'
        · exact ⟨layer', hlayer', hoffers⟩
        · exact absurd hoffers.matches (hsilent m.len le_rfl hadmitted layer' hlayer')

variable {f : SynonymMatch}

theorem MatchOf.merge_same (h : MatchOf tables surface keys accept xs (some m))
    (h' : MatchOf tables surface keys accept ys (some f)) (hlen : m.len = f.len) :
    MatchOf tables surface keys accept (xs ++ ys) (some (Synonyms.merge (some m) f)) := by
  obtain ⟨hadmitted, ⟨layer, hlayer, hmatches⟩, hlongest, hnodes, hnodup⟩ := h.best m rfl
  obtain ⟨-, -, hlongest', hnodes', -⟩ := h'.best f rfl
  rw [Synonyms.merge]
  simp only [if_pos hlen]
  refine ⟨?_, ?_⟩
  · intro hnone
    cases hnone
  · intro m' hm'
    cases hm'
    refine ⟨hadmitted, ⟨layer, mem_append_left _ hlayer, hmatches⟩, ?_, fun node => ?_,
      nodup_nodesOf_foldl _ hnodup⟩
    · intro len hlt hlen' layer' hlayer'
      obtain hlayer' | hlayer' := mem_append.1 hlayer'
      · exact hlongest len hlt hlen' layer' hlayer'
      · exact hlongest' len (hlen ▸ hlt) hlen' layer' hlayer'
    · rw [mem_nodesOf_foldl, hnodes, hnodes', hlen]
      constructor
      · rintro (⟨layer', hlayer', hoffers⟩ | ⟨layer', hlayer', hoffers⟩)
        · exact ⟨layer', mem_append_left _ hlayer', hoffers⟩
        · exact ⟨layer', mem_append_right _ hlayer', hoffers⟩
      · rintro ⟨layer', hlayer', hoffers⟩
        obtain hlayer' | hlayer' := mem_append.1 hlayer'
        · exact Or.inl ⟨layer', hlayer', hoffers⟩
        · exact Or.inr ⟨layer', hlayer', hoffers⟩

variable {best : Option SynonymMatch}

theorem MatchOf.merge_layers
    (h : MatchOf tables surface keys accept xs best) (h' : MatchOf tables surface keys accept ys (some f)) :
    MatchOf tables surface keys accept (xs ++ ys) (some (Synonyms.merge best f)) := by
  cases best with
  | none =>
    refine h'.extend (fun layer => ?_) fun len _ hlen => h.nothing rfl len hlen
    rw [mem_append, or_comm]
  | some m =>
    obtain hlt | heq | hgt := lt_trichotomy m.len f.len
    · have hmerge : Synonyms.merge (some m) f = f := by
        rw [Synonyms.merge]
        simp only [if_neg hlt.ne, if_neg (not_lt.2 hlt.le)]
      rw [hmerge]
      obtain ⟨-, -, hlongest, -⟩ := h.best m rfl
      refine h'.extend (fun layer => ?_) fun len hle hlen =>
        hlongest len (lt_of_lt_of_le hlt hle) hlen
      rw [mem_append, or_comm]
    · exact h.merge_same h' heq
    · have hmerge : Synonyms.merge (some m) f = m := by
        rw [Synonyms.merge]
        simp only [if_neg hgt.ne', if_pos hgt]
      rw [hmerge]
      obtain ⟨-, -, hlongest, -⟩ := h'.best f rfl
      exact h.extend (fun layer => mem_append) fun len hle hlen =>
        hlongest len (lt_of_lt_of_le hgt hle) hlen

theorem MatchOf.skip_layers (h : MatchOf tables surface keys accept xs best)
    (h' : MatchOf tables surface keys accept ys none) :
    MatchOf tables surface keys accept (xs ++ ys) best := by
  cases best with
  | none =>
    refine ⟨fun _ len hlen layer hlayer => ?_, fun m hm => by cases hm⟩
    obtain hlayer | hlayer := mem_append.1 hlayer
    · exact h.nothing rfl len hlen layer hlayer
    · exact h'.nothing rfl len hlen layer hlayer
  | some m => exact h.extend (fun layer => mem_append) fun len _ hlen => h'.nothing rfl len hlen

theorem Synonyms.mergeLayers_eq {dictionaries : List SynonymDictionary}
    (hbuilt : Forall₂ (fun layer d => SynonymDictionary.Built tables layer.2 layer.1 d) ys dictionaries)
    (hlen : keys.length = surface.length)
    (haccept : ∀ len, 0 < len → len ≤ keys.length → acceptLen len = .ok (accept len))
    (hbest : MatchOf tables surface keys accept xs best) :
    ∃ found, mergeLayers tables surface keys acceptLen dictionaries best = .ok found ∧
      MatchOf tables surface keys accept (xs ++ ys) found := by
  induction hbuilt generalizing xs best with
  | nil =>
    refine ⟨best, rfl, ?_⟩
    rwa [append_nil]
  | cons hd _ ih =>
    obtain ⟨found, hmatch, hfound⟩ := hd.matchAt_eq hlen haccept
    rw [mergeLayers, hmatch, ok_bind, append_cons]
    cases found with
    | none => exact ih (hbest.skip_layers hfound)
    | some f => exact ih (hbest.merge_layers hfound)

structure Synonyms.Built (tables : UnicodeTables)
    (builders : List (DictionaryBuilder × (String → List String))) (s : Synonyms) : Prop where
  layers : Forall₂ (fun layer d => SynonymDictionary.Built tables layer.2 layer.1 d) builders s.layers

theorem Synonyms.ofBuilders_eq (tables : UnicodeTables)
    (builders : List (DictionaryBuilder × (String → List String))) :
    ∃ s, ofBuilders tables builders = .ok s ∧ s.Built tables builders := by
  have hlayers : ∃ layers, collect (builders.map fun layer => layer.1.build tables layer.2) =
      .ok layers ∧
        Forall₂ (fun layer d => SynonymDictionary.Built tables layer.2 layer.1 d) builders layers := by
    induction builders with
    | nil => exact ⟨[], rfl, Forall₂.nil⟩
    | cons layer builders ih =>
      obtain ⟨layers, hcollect, hbuilt⟩ := ih
      obtain ⟨d, hd, hbuilt'⟩ := SynonymDictionary.build_built tables layer.2 layer.1
      refine ⟨d :: layers, ?_, Forall₂.cons hbuilt' hbuilt⟩
      rw [map_cons, collect, hd, ok_bind, hcollect]
      rfl
  obtain ⟨layers, hcollect, hbuilt⟩ := hlayers
  refine ⟨⟨layers⟩, ?_, ⟨hbuilt⟩⟩
  rw [ofBuilders, hcollect]
  rfl

theorem Synonyms.Built.matchAt_eq {s : Synonyms} (h : s.Built tables ys)
    (hlen : keys.length = surface.length)
    (haccept : ∀ len, 0 < len → len ≤ keys.length → acceptLen len = .ok (accept len)) :
    ∃ found, s.matchAt tables surface keys acceptLen = .ok found ∧
      MatchOf tables surface keys accept ys found := by
  have hnone : MatchOf tables surface keys accept [] none := by
    constructor
    · intro _ len _ layer hlayer
      cases hlayer
    · intro m hm
      cases hm
  exact Synonyms.mergeLayers_eq h.layers hlen haccept hnone

end Layers
