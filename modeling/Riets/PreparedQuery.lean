/-
Preparing a query.

Before a search ranks anything, every shard reads the posting lists of the query
once.
-/
import Riets.CorpusStats

/-- What a shard says of its own index. -/
structure LocalStats where
  fieldTotals : XPathId → FieldTotals
  fuzzyExpansions : String → XPathId → FuzzyOptions → List FuzzyExpansion

/-- The statistics of an index for a query, and the posting lists they were read from. -/
structure PreparedQuery where
  stats : CorpusStats
  lists : XPathId → LeafKey → Option PostingList

namespace PreparedQuery

def empty : PreparedQuery := ⟨.new, fun _ _ => none⟩

def insertField (p : PreparedQuery) (x : XPathId) (totals : FieldTotals) : PreparedQuery :=
  { p with stats := p.stats.insertField x totals }

def insertLeaf (p : PreparedQuery) (x : XPathId) (key : LeafKey) (list : PostingList) : PreparedQuery where
  stats := p.stats.insertDocFreq x key list.items.length
  lists x' key' := if x' = x ∧ key' = key then some list else p.lists x' key'

def insertFuzzy (p : PreparedQuery) (x : XPathId) (key : FuzzyKey) (candidates : List FuzzyExpansion) :
    PreparedQuery :=
  { p with stats := p.stats.insertFuzzy x key candidates }

end PreparedQuery

namespace QueryExecutor

open Option List

variable {F : Type} (e : QueryExecutor F) (own : LocalStats)

/-- The list and the frequency of a leaf are noted. -/
def prepareLeaf (ctx : FieldCtx) (query : Query) (out : PreparedQuery) : PreparedQuery :=
  match leafKey query ctx with
  | none => out
  | some (key, x) =>
    if (out.lists x key).isSome then out
    else (out.insertField x (own.fieldTotals x)).insertLeaf x key (e.fetchLeaf key x)

def prepareFuzzy (ctx : FieldCtx) (raw : String) (fuzziness : Fuzziness) (spec : FuzzySpec)
    (out : PreparedQuery) : PreparedQuery :=
  (e.fuzzyWords raw).foldl (fun out word =>
    let opts := fuzzyOptions word fuzziness spec
    if out.stats.hasFuzzy ctx.xpath (.new word opts) then out
    else out.insertFuzzy ctx.xpath (.new word opts) (own.fuzzyExpansions word ctx.xpath opts))
    (out.insertField ctx.xpath (own.fieldTotals ctx.xpath))

mutual

/-- All leaves of a query. -/
def prepareLeaves (ctx : FieldCtx) : Query → PreparedQuery → PreparedQuery
  | .wand parts, out => prepareEach ctx parts out
  | .or parts, out => prepareEach ctx parts out
  | .and parts, out => prepareEach ctx parts out
  | .synonym forms, out => prepareForms ctx forms out
  -- a phrase is also scored by its words
  | .phrase terms, out => e.prepareLeaf own ctx (.phrase terms)
      (terms.foldl (fun out term => e.prepareLeaf own ctx (.term term.text) out) out)
  | .fuzzy raw fuzziness spec, out => e.prepareFuzzy own ctx raw fuzziness spec out
  | .term v, out => e.prepareLeaf own ctx (.term v) out
  | .prefixed v, out => e.prepareLeaf own ctx (.prefixed v) out
  | .wildcard p, out => e.prepareLeaf own ctx (.wildcard p) out
  | .exactly v, out => e.prepareLeaf own ctx (.exactly v) out
  | .range lo hi, out => e.prepareLeaf own ctx (.range lo hi) out
  | .sameElement children, out => e.prepareLeaf own ctx (.sameElement children) out
  | .bool value, out => e.prepareLeaf own ctx (.bool value) out
  | .matchAll, out => e.prepareLeaf own ctx .matchAll out

def prepareEach (ctx : FieldCtx) : List Query → PreparedQuery → PreparedQuery
  | [], out => out
  | part :: parts, out => prepareEach ctx parts (prepareLeaves ctx part out)

def prepareForms (ctx : FieldCtx) : List (Query × ℕ) → PreparedQuery → PreparedQuery
  | [], out => out
  | (form, _) :: forms, out => prepareForms ctx forms (prepareLeaves ctx form out)

end

def prepare (queries : List Query) (ctxs : List FieldCtx) : PreparedQuery :=
  queries.foldl (fun out query => ctxs.foldl (fun out ctx => e.prepareLeaves own ctx query out) out) .empty

/-- The executor that takes prepared lists from `p`. -/
def withPrepared (p : PreparedQuery) : QueryExecutor F := { e with prepared := p.lists }

/-! ### What preparing keeps -/

section Induction

variable {e own} {ctx : FieldCtx} {P : PreparedQuery → Prop}

theorem foldl_induction {α : Type} {f : PreparedQuery → α → PreparedQuery} (hf : ∀ a out, P out → P (f out a))
    (l : List α) {out : PreparedQuery} (h : P out) : P (l.foldl f out) := by
  induction l generalizing out with
  | nil => exact h
  | cons a l ih => exact ih (hf a out h)

mutual

theorem prepareLeaves_induction (hleaf : ∀ query out, P out → P (e.prepareLeaf own ctx query out))
    (hfuzzy : ∀ raw fuzziness spec out, P out → P (e.prepareFuzzy own ctx raw fuzziness spec out)) :
    ∀ (query : Query) {out : PreparedQuery}, P out → P (e.prepareLeaves own ctx query out)
  | .wand parts, _, h => prepareEach_induction hleaf hfuzzy parts h
  | .or parts, _, h => prepareEach_induction hleaf hfuzzy parts h
  | .and parts, _, h => prepareEach_induction hleaf hfuzzy parts h
  | .synonym forms, _, h => prepareForms_induction hleaf hfuzzy forms h
  | .phrase terms, _, h =>
    hleaf (.phrase terms) _ (foldl_induction (fun term : PhraseTerm => hleaf (.term term.text)) terms h)
  | .fuzzy raw fuzziness spec, _, h => hfuzzy raw fuzziness spec _ h
  | .term v, _, h => hleaf (.term v) _ h
  | .prefixed v, _, h => hleaf (.prefixed v) _ h
  | .wildcard p, _, h => hleaf (.wildcard p) _ h
  | .exactly v, _, h => hleaf (.exactly v) _ h
  | .range lo hi, _, h => hleaf (.range lo hi) _ h
  | .sameElement children, _, h => hleaf (.sameElement children) _ h
  | .bool value, _, h => hleaf (.bool value) _ h
  | .matchAll, _, h => hleaf .matchAll _ h

theorem prepareEach_induction (hleaf : ∀ query out, P out → P (e.prepareLeaf own ctx query out))
    (hfuzzy : ∀ raw fuzziness spec out, P out → P (e.prepareFuzzy own ctx raw fuzziness spec out)) :
    ∀ (parts : List Query) {out : PreparedQuery}, P out → P (e.prepareEach own ctx parts out)
  | [], _, h => h
  | part :: parts, _, h =>
    prepareEach_induction hleaf hfuzzy parts (prepareLeaves_induction hleaf hfuzzy part h)

theorem prepareForms_induction (hleaf : ∀ query out, P out → P (e.prepareLeaf own ctx query out))
    (hfuzzy : ∀ raw fuzziness spec out, P out → P (e.prepareFuzzy own ctx raw fuzziness spec out)) :
    ∀ (forms : List (Query × ℕ)) {out : PreparedQuery}, P out → P (e.prepareForms own ctx forms out)
  | [], _, h => h
  | (form, _) :: forms, _, h =>
    prepareForms_induction hleaf hfuzzy forms (prepareLeaves_induction hleaf hfuzzy form h)

end

end Induction

variable {e own} {ctx : FieldCtx}

theorem lists_prepareFuzzy (raw : String) (fuzziness : Fuzziness) (spec : FuzzySpec) (out : PreparedQuery) :
    (e.prepareFuzzy own ctx raw fuzziness spec out).lists = out.lists := by
  refine foldl_induction (P := fun out' => out'.lists = out.lists) (fun word out' hout => ?_) _ rfl
  simp only
  split_ifs
  · exact hout
  · exact hout

theorem lists_prepareLeaf (query : Query) (out : PreparedQuery) (x : XPathId) (key : LeafKey) :
    (e.prepareLeaf own ctx query out).lists x key =
      (out.lists x key).or (if leafKey query ctx = some (key, x) then some (e.fetchLeaf key x) else none) := by
  rw [prepareLeaf]
  split
  case h_1 hkey => simp [hkey]
  case h_2 key' x' hkey =>
    by_cases hsame : x = x' ∧ key = key'
    · obtain ⟨rfl, rfl⟩ := hsame
      cases hlist : out.lists x key with
      | none => simp [PreparedQuery.insertLeaf, hkey]
      | some list => simp [hkey, hlist]
    · have hne : ¬ leafKey query ctx = some (key, x) := by
        rw [hkey]
        rintro heq
        obtain ⟨rfl, rfl⟩ := Prod.mk.inj (some_inj.mp heq)
        exact hsame ⟨rfl, rfl⟩
      rw [if_neg hne, or_none]
      split_ifs
      · rfl
      · exact if_neg hsame

/-- What was prepared is what a lookup gives. -/
def Faithful (e : QueryExecutor F) (p : PreparedQuery) : Prop :=
  ∀ x key, ∀ list ∈ p.lists x key, list = e.fetchLeaf key x

theorem faithful_prepare (queries : List Query) (ctxs : List FieldCtx) :
    e.Faithful (e.prepare own queries ctxs) := by
  have hleaf : ∀ ctx query out, e.Faithful out → e.Faithful (e.prepareLeaf own ctx query out) := by
    intro ctx query out hout x key list hlist
    rw [mem_def, lists_prepareLeaf, or_eq_some_iff] at hlist
    rcases hlist with hold | ⟨-, hnew⟩
    · exact hout x key list hold
    · split_ifs at hnew
      exact (some_inj.mp hnew).symm
  have hfuzzy : ∀ ctx raw fuzziness spec out, e.Faithful out →
      e.Faithful (e.prepareFuzzy own ctx raw fuzziness spec out) := by
    intro ctx raw fuzziness spec out hout x key list hlist
    rw [lists_prepareFuzzy] at hlist
    exact hout x key list hlist
  refine foldl_induction (fun query out hout => ?_) queries fun x key list hlist => by cases hlist
  exact foldl_induction (fun ctx out hout => prepareLeaves_induction (hleaf ctx) (hfuzzy ctx) query hout) ctxs hout

/-! ### The leaves of a query -/

mutual

def leaves : Query → List Query
  | .wand parts => leavesOfEach parts
  | .or parts => leavesOfEach parts
  | .and parts => leavesOfEach parts
  | .synonym forms => leavesOfForms forms
  | query => [query]

def leavesOfEach : List Query → List Query
  | [] => []
  | part :: parts => leaves part ++ leavesOfEach parts

def leavesOfForms : List (Query × ℕ) → List Query
  | [] => []
  | (form, _) :: forms => leaves form ++ leavesOfForms forms

end

def Covered (p : PreparedQuery) (ctx : FieldCtx) (leaf : Query) : Prop :=
  ∀ kx ∈ leafKey leaf ctx, (p.lists kx.2 kx.1).isSome

theorem covered_prepareLeaf (e : QueryExecutor F) (own : LocalStats) (query : Query) (out : PreparedQuery) :
    ∀ leaf ∈ [query], Covered (e.prepareLeaf own ctx query out) ctx leaf := by
  intro leaf hleaf kx hkx
  obtain rfl := mem_singleton.mp hleaf
  rw [lists_prepareLeaf, if_pos (show leafKey leaf ctx = some (kx.1, kx.2) from hkx)]
  cases out.lists kx.2 kx.1 with
  | none => rfl
  | some list => rfl

theorem isSome_prepareLeaf (x : XPathId) (key : LeafKey) (query : Query) (out : PreparedQuery)
    (h : (out.lists x key).isSome = true) : ((e.prepareLeaf own ctx query out).lists x key).isSome = true := by
  rw [lists_prepareLeaf]
  cases hlist : out.lists x key with
  | none => simp [hlist] at h
  | some list => rfl

theorem isSome_prepareFuzzy (x : XPathId) (key : LeafKey) (raw : String) (fuzziness : Fuzziness)
    (spec : FuzzySpec) (out : PreparedQuery) (h : (out.lists x key).isSome = true) :
    ((e.prepareFuzzy own ctx raw fuzziness spec out).lists x key).isSome = true := by
  rw [lists_prepareFuzzy]
  exact h

mutual

theorem covered_prepareLeaves : ∀ (query : Query) (out : PreparedQuery), ∀ leaf ∈ leaves query,
    Covered (e.prepareLeaves own ctx query out) ctx leaf
  | .wand parts, out => covered_prepareEach parts out
  | .or parts, out => covered_prepareEach parts out
  | .and parts, out => covered_prepareEach parts out
  | .synonym forms, out => covered_prepareForms forms out
  | .fuzzy _ _ _, _ => by simp [leaves, Covered, leafKey]
  | .term v, out => covered_prepareLeaf e own (.term v) out
  | .prefixed v, out => covered_prepareLeaf e own (.prefixed v) out
  | .wildcard p, out => covered_prepareLeaf e own (.wildcard p) out
  | .phrase terms, _ => covered_prepareLeaf e own (.phrase terms) _
  | .exactly v, out => covered_prepareLeaf e own (.exactly v) out
  | .range lo hi, out => covered_prepareLeaf e own (.range lo hi) out
  | .sameElement children, out => covered_prepareLeaf e own (.sameElement children) out
  | .bool value, out => covered_prepareLeaf e own (.bool value) out
  | .matchAll, out => covered_prepareLeaf e own .matchAll out

theorem covered_prepareEach : ∀ (parts : List Query) (out : PreparedQuery), ∀ leaf ∈ leavesOfEach parts,
    Covered (e.prepareEach own ctx parts out) ctx leaf
  | [], _ => fun _ hleaf => by cases hleaf
  | part :: parts, out => fun leaf hleaf => by
    rcases mem_append.mp hleaf with hleaf | hleaf
    · -- what the part has read stays while the other parts are read
      intro kx hkx
      exact prepareEach_induction (isSome_prepareLeaf kx.2 kx.1) (isSome_prepareFuzzy kx.2 kx.1) parts
        (covered_prepareLeaves part out leaf hleaf kx hkx)
    · exact covered_prepareEach parts _ leaf hleaf

theorem covered_prepareForms : ∀ (forms : List (Query × ℕ)) (out : PreparedQuery), ∀ leaf ∈ leavesOfForms forms,
    Covered (e.prepareForms own ctx forms out) ctx leaf
  | [], _ => fun _ hleaf => by cases hleaf
  | (form, _) :: forms, out => fun leaf hleaf => by
    rcases mem_append.mp hleaf with hleaf | hleaf
    · intro kx hkx
      exact prepareForms_induction (isSome_prepareLeaf kx.2 kx.1) (isSome_prepareFuzzy kx.2 kx.1) forms
        (covered_prepareLeaves form out leaf hleaf kx hkx)
    · exact covered_prepareForms forms _ leaf hleaf

end

theorem foldl_of_mem {α : Type} {P : PreparedQuery → Prop} {f : PreparedQuery → α → PreparedQuery}
    (hkeep : ∀ a out, P out → P (f out a)) {l : List α} {a : α} (ha : a ∈ l) (hone : ∀ out, P (f out a))
    (out : PreparedQuery) : P (l.foldl f out) := by
  obtain ⟨l₁, l₂, rfl⟩ := append_of_mem ha
  rw [foldl_append, foldl_cons]
  exact foldl_induction hkeep l₂ (hone _)

theorem covered_prepare {queries : List Query} {ctxs : List FieldCtx} {query : Query} (hquery : query ∈ queries)
    (hctx : ctx ∈ ctxs) {leaf : Query} (hleaf : leaf ∈ leaves query) :
    Covered (e.prepare own queries ctxs) ctx leaf := by
  intro kx hkx
  have hkeep : ∀ query ctx' out, ((out : PreparedQuery).lists kx.2 kx.1).isSome = true →
      ((e.prepareLeaves own ctx' query out).lists kx.2 kx.1).isSome = true := fun query ctx' out hout =>
    prepareLeaves_induction (isSome_prepareLeaf kx.2 kx.1) (isSome_prepareFuzzy kx.2 kx.1) query hout
  refine foldl_of_mem (P := fun out => (out.lists kx.2 kx.1).isSome = true)
    (fun query out hout => foldl_induction (fun ctx' out hout => hkeep query ctx' out hout) ctxs hout) hquery
    (fun out => ?_) _
  exact foldl_of_mem (P := fun out => (out.lists kx.2 kx.1).isSome = true) (hkeep query) hctx
    (fun out => covered_prepareLeaves query out leaf hleaf kx hkx) out

end QueryExecutor
