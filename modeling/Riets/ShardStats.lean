/-
The statistics of documents that are spread over shards.

A word, a phrase or an exact value is found in a target or it is not, whatever
else the index has.  So the document frequency of a leaf counts targets, and the
totals of a field add up lengths of targets: what an index reports is a sum over
the contents of its documents, and the sums of the shards make the sum over all.
-/
import Riets.PreparedQuery
import Riets.SnapshotStats
import Riets.MatchAll

open List PostingList World AnalyzedDocument

/-! ### Leaves in a target -/

/-- Whether a leaf is found where every word has the given positions, if it is there at all. -/
def LeafKey.foundIn (positions : String → Option (List ℕ)) : LeafKey → Bool
  | .term v => v ≠ "" && (positions v).isSome
  | .phrase terms =>
    match terms.mapM fun term => positions term.text with
    | some (first :: rest) => phraseMatches (first :: rest) (terms.map PhraseTerm.offset)
    | _ => false
  | .exactly v =>
    match exactKey v with
    | some key => (positions key).isSome
    | none => false
  -- the terms a pattern expands to are another matter
  | .prefixed _ => false
  | .wildcard _ => false

def LeafKey.Whole : LeafKey → Prop
  | .prefixed _ => False
  | .wildcard _ => False
  | _ => True

theorem LeafKey.exists_of_foundIn {positions : String → Option (List ℕ)} {key : LeafKey}
    (h : key.foundIn positions = true) : ∃ v, positions v ≠ none := by
  cases key with
  | term v =>
    rw [foundIn, Bool.and_eq_true] at h
    exact ⟨v, Option.isSome_iff_ne_none.mp h.2⟩
  | phrase terms =>
    rw [foundIn] at h
    split at h
    case h_1 first rest hlists =>
      cases terms with
      | nil => cases hlists
      | cons term terms =>
        refine ⟨term.text, fun hnone => ?_⟩
        rw [mapM_cons, hnone] at hlists
        cases hlists
    case h_2 => cases h
  | exactly v =>
    rw [foundIn] at h
    split at h
    case h_1 key _ => exact ⟨key, Option.isSome_iff_ne_none.mp h⟩
    case h_2 => cases h
  | prefixed v => cases h
  | wildcard v => cases h

namespace QueryExecutor

open List PostingList Option LeafKey

variable {F : Type} {e : QueryExecutor F}

theorem mem_ids_fromItems {items : List Posting} {d : DocId} :
    d ∈ (fromItems items).ids ↔ ∃ p ∈ items, p.docId = d := by
  have hjoin : Keyed.foldRun Posting.absorb (items.filter fun p => p.docId = d) =
      joinAll ((items.filter fun p => p.docId = d).map some) := by
    rw [joinAll_map, filterMap_some]
  rw [mem_ids, find_fromItems, hjoin, joinAll_ne_none]
  simp

theorem mapM_map_option {α β γ : Type} (f : α → Option β) (g : β → γ) (l : List α) :
    (l.mapM fun a => (f a).map g) = (l.mapM f).map (map g) := by
  induction l with
  | nil => rfl
  | cons a l ih =>
    rw [mapM_cons, mapM_cons, ih]
    cases f a with
    | none => rfl
    | some b =>
      cases l.mapM f with
      | none => rfl
      | some bs => rfl

theorem mapM_eq_none {α β : Type} {f : α → Option β} {l : List α} (h : ∃ a ∈ l, f a = none) : l.mapM f = none := by
  induction l with
  | nil => simp at h
  | cons a l ih =>
    rw [mapM_cons]
    obtain ⟨b, hb, hnone⟩ := h
    rcases mem_cons.mp hb with rfl | hb
    · rw [hnone]
      rfl
    · rw [ih ⟨b, hb, hnone⟩]
      cases f a <;> rfl

theorem mem_executePhrase (hplain : e.prepared = fun _ _ => none) (terms : List PhraseTerm) (x : XPathId)
    (d : DocId) : d ∈ (e.executePhrase terms x).ids ↔ (phrase terms).foundIn
      (fun v => ((e.index.lookup v x).find d).map Posting.positions) = true := by
  have hlists : (terms.map fun term => (e.fetchTermList term.text x).1) =
      terms.map fun term => e.index.lookup term.text x := by
    simp only [fetchTermList, hplain, getD_none]
  have hfound : (terms.mapM fun term : PhraseTerm => ((e.index.lookup term.text x).find d).map Posting.positions) =
      ((terms.map fun term => e.index.lookup term.text x).mapM fun list : PostingList => list.find d).map
        (map Posting.positions) := by
    rw [mapM_map_option, mapM_map]
    rfl
  rw [executePhrase, hlists, foundIn, hfound]
  generalize hterms : (terms.map fun term => e.index.lookup term.text x) = lists
  have hnil : terms = [] ↔ lists = [] := by rw [← hterms, map_eq_nil_iff]
  simp only [hnil]
  split_ifs with hnone
  · have hmiss : lists.mapM (fun list => list.find d) = some [] ∨ lists.mapM (fun list => list.find d) = none := by
      rcases hnone with rfl | hempty
      · exact .inl rfl
      · obtain ⟨list, hlist, hitems⟩ := any_eq_true.mp hempty
        refine .inr (mapM_eq_none ⟨list, hlist, ?_⟩)
        rw [find, of_decide_eq_true hitems]
        rfl
    have hids : d ∉ (default : PostingList).ids := fun h => mem_ids.mp h rfl
    rcases hmiss with hmiss | hmiss
    all_goals simp [hmiss, hids]
  · rw [not_or] at hnone
    obtain ⟨rarest, hrarest⟩ := isSome_iff_exists.mp
      (List.isSome_minOn?_iff (f := fun list : PostingList => list.items.length) |>.mpr hnone.1)
    simp only [hrarest, mem_ids_fromItems, mem_filterMap]
    constructor
    · rintro ⟨p, ⟨driver, -, hp⟩, hd⟩
      split at hp
      case h_1 first rest hall =>
        split_ifs at hp with hphrase
        obtain rfl := some_inj.mp hp
        obtain rfl : driver.docId = d := hd
        rw [hall]
        exact hphrase
      case h_2 => cases hp
    · intro hmatch
      cases hall : lists.mapM fun list => list.find d with
      | none => simp [hall] at hmatch
      | some postings =>
        cases postings with
        | nil => simp [hall] at hmatch
        | cons first rest =>
          -- the rarest word is one of the words, so it has the id too
          have hfind : rarest.find d ≠ none := by
            intro hno
            rw [mapM_eq_none (f := fun list : PostingList => list.find d)
              ⟨rarest, List.minOn?_mem hrarest, hno⟩] at hall
            cases hall
          obtain ⟨driver, hdriver, rfl⟩ := mem_map.mp (mem_ids.mpr hfind)
          rw [hall] at hmatch
          refine ⟨⟨driver.docId, first.positions, first.weight⟩, ⟨driver, hdriver, ?_⟩, rfl⟩
          rw [hall]
          exact if_pos hmatch

theorem mem_fetchLeaf (hplain : e.prepared = fun _ _ => none) {key : LeafKey} (hkey : key.Whole) (x : XPathId)
    (d : DocId) : d ∈ (e.fetchLeaf key x).ids ↔
      key.foundIn (fun v => ((e.index.lookup v x).find d).map Posting.positions) = true := by
  have hnone : d ∉ (default : PostingList).ids := fun h => mem_ids.mp h rfl
  cases key with
  | term v =>
    rw [fetchLeaf, foundIn]
    split_ifs with hempty
    · simp [hnone, hempty]
    · simp [hempty, mem_ids, isSome_iff_ne_none]
  | phrase terms => exact mem_executePhrase hplain terms x d
  | exactly v =>
    rw [fetchLeaf, executeExact, foundIn]
    cases exactKey v with
    | none => simp [hnone]
    | some key => simp [mem_ids, isSome_iff_ne_none]
  | prefixed v => cases hkey
  | wildcard v => cases hkey

end QueryExecutor

def AnalyzedTarget.positions (t : AnalyzedTarget) (k : TermKey) : Option (List ℕ) :=
  (t.posting 0 k).map Posting.positions

/-- Whether a leaf is found in field `x` of a target. -/
def AnalyzedTarget.hasLeaf (t : AnalyzedTarget) (x : XPathId) (key : LeafKey) : Bool :=
  key.foundIn fun v => t.positions ⟨x, v⟩

theorem AnalyzedTarget.positions_posting (t : AnalyzedTarget) (d : DocId) (k : TermKey) :
    (t.posting d k).map Posting.positions = t.positions k := by
  have hfold : ∀ {α : Type} (f : DocId → MemIndex → α → MemIndex),
      (∀ a m n, (m.posting k d).map Posting.positions = (n.posting k 0).map Posting.positions →
        ((f d m a).posting k d).map Posting.positions = ((f 0 n a).posting k 0).map Posting.positions) →
      ∀ (l : List α) (m n : MemIndex), (m.posting k d).map Posting.positions = (n.posting k 0).map Posting.positions →
        ((l.foldl (f d) m).posting k d).map Posting.positions =
          ((l.foldl (f 0) n).posting k 0).map Posting.positions := by
    intro α f hf l
    induction l with
    | nil => exact fun _ _ h => h
    | cons a l ih => exact fun m n h => ih _ _ (hf a m n h)
  have hterm : ∀ (x : XPathId) (w : AnalyzedTerm) (m n : MemIndex),
      (m.posting k d).map Posting.positions = (n.posting k 0).map Posting.positions →
        ((m.addPostingWeighted w.term x d w.positions w.weight).posting k d).map Posting.positions =
          ((n.addPostingWeighted w.term x 0 w.positions w.weight).posting k 0).map Posting.positions := by
    intro x w m n h
    rw [MemIndex.posting_addPostingWeighted, MemIndex.posting_addPostingWeighted]
    simp only [and_true]
    split_ifs with hk
    · unfold MemIndex.addOccurrences
      split_ifs with hpositions
      · exact h
      · cases hm : m.posting k d <;> cases hn : n.posting k 0 <;> simp_all
    · exact h
  have hfield : ∀ (field : AnalyzedField) (m n : MemIndex),
      (m.posting k d).map Posting.positions = (n.posting k 0).map Posting.positions →
        ((m.applyField d field).posting k d).map Posting.positions =
          ((n.applyField 0 field).posting k 0).map Posting.positions := by
    intro field m n h
    exact hfold (fun id m (w : AnalyzedTerm) => m.addPostingWeighted w.term field.xpath id w.positions w.weight)
      (hterm field.xpath) field.terms _ _ h
  refine hfold (fun id m (p : BoolPoint) => m.addBool id p) (fun _ _ _ h => h) t.boolPoints _ _ ?_
  refine hfold (fun id m (p : NumericPoint) => m.addNumber id p) (fun _ _ _ h => h) t.numericPoints _ _ ?_
  exact hfold (fun id m (field : AnalyzedField) => m.applyField id field) hfield t.fields _ _ rfl

theorem AnalyzedTarget.touches_of_hasLeaf {t : AnalyzedTarget} {x : XPathId} {key : LeafKey}
    (h : t.hasLeaf x key = true) : t.Touches x := by
  obtain ⟨v, hv⟩ := LeafKey.exists_of_foundIn h
  exact AnalyzedTarget.touches_of_posting (d := 0) (k := ⟨x, v⟩) fun hnone => hv (by rw [positions, hnone]; rfl)

structure IndexSnapshot.IsOf (s : IndexSnapshot) (docs : List AnalyzedDocument) : Prop where
  run : ∃ as : List IndexAction, as.flatMap IndexAction.documents = docs ∧
    (∀ d ok, .deleteDocument d ok ∉ as) ∧ ((start [] ∅).run as).Shows s
  separate : Separate (docs.flatMap AnalyzedDocument.targets)
  fits : ∀ t ∈ docs.flatMap AnalyzedDocument.targets, ∀ field ∈ t.2.fields, field.docLen ≠ u32Max

section Snapshot

variable {F : Type} {e : QueryExecutor F} {s : IndexSnapshot} {docs : List AnalyzedDocument}

theorem perm_fetchLeaf (hs : s.IsOf docs) (hplain : e.prepared = fun _ _ => none) (hlookup : e.index.lookup = s.lookup)
    {key : LeafKey} (hkey : key.Whole) (x : XPathId) :
    (e.fetchLeaf key x).ids.Perm
      (((docs.flatMap targets).filter fun t => t.2.hasLeaf x key).map Prod.fst) := by
  obtain ⟨as, rfl, hdel, hshows⟩ := hs.run
  have hlookups := fun v => lookup_shown hdel hs.separate hshows v x
  have hids : (e.fetchLeaf key x).ids.Nodup :=
    pairwise_map.mpr ((e.fetchLeaf key x).ascending.imp fun hlt => ne_of_lt hlt)
  -- under the id of a target the leaf is looked up as in the target
  have htarget : ∀ t ∈ targetsOf as, t.2.Touches x →
      (fun v => ((s.lookup v x).find t.1).map Posting.positions) = fun v => t.2.positions ⟨x, v⟩ :=
    fun t ht htouch => funext fun v => by
      rw [(hlookups v).1 t ht htouch, AnalyzedTarget.positions_posting]
  refine (perm_ext_iff_of_nodup hids ?_).mpr fun d => ?_
  · refine pairwise_map.mpr ((hs.separate.filter _).imp_of_mem fun {a b} ha hb hab hid => ?_)
    exact hab hid x (AnalyzedTarget.touches_of_hasLeaf (mem_filter.mp ha).2)
      (AnalyzedTarget.touches_of_hasLeaf (mem_filter.mp hb).2)
  · rw [QueryExecutor.mem_fetchLeaf hplain hkey, hlookup, mem_map]
    constructor
    · intro hfound
      have hex : ∃ t ∈ targetsOf as, t.1 = d ∧ t.2.Touches x := by
        by_contra hnone
        obtain ⟨v, hv⟩ := LeafKey.exists_of_foundIn hfound
        exact hv (by rw [(hlookups v).2 d fun t ht hid htouch => hnone ⟨t, ht, hid, htouch⟩]; rfl)
      obtain ⟨t, ht, rfl, htouch⟩ := hex
      rw [htarget t ht htouch] at hfound
      exact ⟨t, mem_filter.mpr ⟨ht, hfound⟩, rfl⟩
    · rintro ⟨t, ht, rfl⟩
      obtain ⟨ht, hleaf⟩ := mem_filter.mp ht
      rw [htarget t ht (AnalyzedTarget.touches_of_hasLeaf hleaf)]
      exact hleaf

theorem length_fetchLeaf (hs : s.IsOf docs) (hplain : e.prepared = fun _ _ => none)
    (hlookup : e.index.lookup = s.lookup) {key : LeafKey} (hkey : key.Whole) (x : XPathId) :
    (e.fetchLeaf key x).items.length =
      (docs.flatMap targets).countP fun t => t.2.hasLeaf x key := by
  have hlength := (perm_fetchLeaf hs hplain hlookup hkey x).length_eq
  rw [ids, length_map, length_map] at hlength
  rw [hlength, countP_eq_length_filter]

end Snapshot

/-! ### What preparing reports -/

mutual

def Query.whole : Query → Bool
  | .prefixed _ => false
  | .wildcard _ => false
  | .fuzzy _ _ _ => false
  | .wand parts => wholeEach parts
  | .or parts => wholeEach parts
  | .and parts => wholeEach parts
  | .synonym forms => wholeForms forms
  | _ => true

def wholeEach : List Query → Bool
  | [] => true
  | part :: parts => part.whole && wholeEach parts

def wholeForms : List (Query × ℕ) → Bool
  | [] => true
  | (form, _) :: forms => form.whole && wholeForms forms

end

/-- The report of the leaves that were read: the totals of their fields and their document
frequencies. -/
def CorpusStats.report (read : List (LeafKey × XPathId)) (totals : XPathId → FieldTotals)
    (docFreq : XPathId → LeafKey → ℕ) : CorpusStats where
  fields x := if x ∈ read.map Prod.snd then some (totals x) else none
  docFreqs x key := if (key, x) ∈ read then some (.of u64Max (docFreq x key)) else none
  fuzzy _ _ := none

namespace CorpusStats

open List

variable {read read' : List (LeafKey × XPathId)} {totals : XPathId → FieldTotals} {docFreq : XPathId → LeafKey → ℕ}

theorem report_congr (h : ∀ kx, kx ∈ read ↔ kx ∈ read') : report read totals docFreq = report read' totals docFreq := by
  refine CorpusStats.ext (funext fun x => ?_) (funext fun x => funext fun key => ?_) rfl
  · simp only [report, mem_map, h]
  · simp only [report, h]

theorem report_insert {x : XPathId} {key : LeafKey} :
    ((report read totals docFreq).insertField x (totals x)).insertDocFreq x key (docFreq x key) =
      report (read ++ [(key, x)]) totals docFreq := by
  refine CorpusStats.ext (funext fun x' => ?_) (funext fun x' => funext fun key' => ?_) rfl
  · simp only [insertDocFreq, insertField, report, map_append, mem_append, map_cons, map_nil,
      mem_singleton]
    by_cases hx : x' = x
    · simp only [hx, if_true, or_true]
    · simp only [hx, if_false, or_false]
  · simp only [insertDocFreq, insertField, report, mem_append, mem_singleton, Prod.mk.injEq]
    by_cases hx : x' = x ∧ key' = key
    · simp only [hx.1, hx.2, and_self, if_true, or_true]
    · have hkey : ¬(key' = key ∧ x' = x) := fun h => hx h.symm
      simp only [hx, hkey, if_false, or_false]

end CorpusStats

namespace QueryExecutor

open List Option CorpusStats

mutual

def leafKeys (ctx : FieldCtx) : Query → List (LeafKey × XPathId)
  | .wand parts => leafKeysOfEach ctx parts
  | .or parts => leafKeysOfEach ctx parts
  | .and parts => leafKeysOfEach ctx parts
  | .synonym forms => leafKeysOfForms ctx forms
  | .phrase terms => (terms.flatMap fun term => (leafKey (.term term.text) ctx).toList) ++
      (leafKey (.phrase terms) ctx).toList
  | query => (leafKey query ctx).toList

def leafKeysOfEach (ctx : FieldCtx) : List Query → List (LeafKey × XPathId)
  | [] => []
  | part :: parts => leafKeys ctx part ++ leafKeysOfEach ctx parts

def leafKeysOfForms (ctx : FieldCtx) : List (Query × ℕ) → List (LeafKey × XPathId)
  | [] => []
  | (form, _) :: forms => leafKeys ctx form ++ leafKeysOfForms ctx forms

end

def allLeafKeys (queries : List Query) (ctxs : List FieldCtx) : List (LeafKey × XPathId) :=
  queries.flatMap fun query => ctxs.flatMap fun ctx => leafKeys ctx query

mutual

theorem whole_leafKeys {ctx : FieldCtx} : ∀ {query : Query}, query.whole = true →
    ∀ kx ∈ leafKeys ctx query, kx.1.Whole
  | .wand _, h => whole_leafKeysOfEach h
  | .or _, h => whole_leafKeysOfEach h
  | .and _, h => whole_leafKeysOfEach h
  | .synonym _, h => whole_leafKeysOfForms h
  | .phrase terms, _ => by
    intro kx hkx
    rcases mem_append.mp hkx with hword | hphrase
    · obtain ⟨term, -, hterm⟩ := mem_flatMap.mp hword
      obtain rfl := mem_singleton.mp hterm
      trivial
    · obtain rfl := mem_singleton.mp hphrase
      trivial
  | .term _, _ => by
    intro kx hkx
    obtain rfl := mem_singleton.mp hkx
    trivial
  | .exactly _, _ => by
    intro kx hkx
    obtain rfl := mem_singleton.mp hkx
    trivial
  | .range _ _, _ => fun _ hkx => by cases hkx
  | .sameElement _, _ => fun _ hkx => by cases hkx
  | .bool _, _ => fun _ hkx => by cases hkx
  | .matchAll, _ => fun _ hkx => by cases hkx

theorem whole_leafKeysOfEach {ctx : FieldCtx} : ∀ {parts : List Query}, wholeEach parts = true →
    ∀ kx ∈ leafKeysOfEach ctx parts, kx.1.Whole
  | [], _ => fun _ hkx => by cases hkx
  | part :: parts, h => by
    intro kx hkx
    obtain ⟨hpart, hparts⟩ := Bool.and_eq_true_iff.mp h
    rcases mem_append.mp hkx with hkx | hkx
    · exact whole_leafKeys hpart kx hkx
    · exact whole_leafKeysOfEach hparts kx hkx

theorem whole_leafKeysOfForms {ctx : FieldCtx} : ∀ {forms : List (Query × ℕ)}, wholeForms forms = true →
    ∀ kx ∈ leafKeysOfForms ctx forms, kx.1.Whole
  | [], _ => fun _ hkx => by cases hkx
  | (form, _) :: forms, h => by
    intro kx hkx
    obtain ⟨hform, hforms⟩ := Bool.and_eq_true_iff.mp h
    rcases mem_append.mp hkx with hkx | hkx
    · exact whole_leafKeys hform kx hkx
    · exact whole_leafKeysOfForms hforms kx hkx

end

variable {F : Type} {e : QueryExecutor F} {own : LocalStats}

structure Reports (e : QueryExecutor F) (own : LocalStats) (read : List (LeafKey × XPathId)) (out : PreparedQuery) :
    Prop where
  stats : out.stats = .report read own.fieldTotals fun x key => (e.fetchLeaf key x).items.length
  lists : ∀ x key, (out.lists x key).isSome = true ↔ (key, x) ∈ read

theorem Reports.prepareLeaf {read : List (LeafKey × XPathId)} {out : PreparedQuery} (h : e.Reports own read out)
    (ctx : FieldCtx) (query : Query) : e.Reports own (read ++ (leafKey query ctx).toList) (e.prepareLeaf own ctx query out) := by
  constructor
  · rw [QueryExecutor.prepareLeaf]
    split
    case h_1 hkey =>
      rw [hkey, h.stats]
      simp
    case h_2 key x hkey =>
      rw [hkey]
      split_ifs with hread
      · -- a leaf that was read before changes no membership
        rw [h.stats]
        refine report_congr fun kx => ?_
        rw [toList_some, mem_append, mem_singleton]
        constructor
        · exact Or.inl
        · rintro (hkx | rfl)
          · exact hkx
          · exact (h.lists x key).mp hread
      · rw [PreparedQuery.insertLeaf, PreparedQuery.insertField, h.stats]
        exact report_insert
  · intro x key
    rw [lists_prepareLeaf, isSome_or, Bool.or_eq_true, h.lists, mem_append, mem_toList]
    split_ifs with hkey
    · simp [hkey]
    · simp [hkey]

theorem Reports.foldl {α : Type} {f : PreparedQuery → α → PreparedQuery} {keys : α → List (LeafKey × XPathId)}
    {l : List α} (hf : ∀ a ∈ l, ∀ read out, e.Reports own read out → e.Reports own (read ++ keys a) (f out a))
    {read : List (LeafKey × XPathId)} {out : PreparedQuery} (h : e.Reports own read out) :
    e.Reports own (read ++ l.flatMap keys) (l.foldl f out) := by
  induction l generalizing read out with
  | nil => simpa using h
  | cons a l ih =>
    have hstep := hf a mem_cons_self read out h
    rw [flatMap_cons, ← append_assoc]
    exact ih (fun a ha => hf a (mem_cons_of_mem _ ha)) hstep

mutual

theorem Reports.prepareLeaves (ctx : FieldCtx) : ∀ {query : Query}, query.whole = true →
    ∀ {read : List (LeafKey × XPathId)} {out : PreparedQuery}, e.Reports own read out →
      e.Reports own (read ++ leafKeys ctx query) (e.prepareLeaves own ctx query out)
  | .wand _, hwhole, _, _, h => Reports.prepareEach ctx hwhole h
  | .or _, hwhole, _, _, h => Reports.prepareEach ctx hwhole h
  | .and _, hwhole, _, _, h => Reports.prepareEach ctx hwhole h
  | .synonym _, hwhole, _, _, h => Reports.prepareForms ctx hwhole h
  | .phrase terms, _, read, out, h => by
    have hwords := h.foldl (l := terms) (f := fun out term => e.prepareLeaf own ctx (.term term.text) out)
      fun term _ _ _ h => h.prepareLeaf ctx (.term term.text)
    have hphrase := hwords.prepareLeaf ctx (.phrase terms)
    rw [append_assoc] at hphrase
    exact hphrase
  | .term v, _, _, _, h => h.prepareLeaf ctx (.term v)
  | .exactly v, _, _, _, h => h.prepareLeaf ctx (.exactly v)
  | .range lo hi, _, _, _, h => h.prepareLeaf ctx (.range lo hi)
  | .sameElement children, _, _, _, h => h.prepareLeaf ctx (.sameElement children)
  | .bool value, _, _, _, h => h.prepareLeaf ctx (.bool value)
  | .matchAll, _, _, _, h => h.prepareLeaf ctx .matchAll

theorem Reports.prepareEach (ctx : FieldCtx) : ∀ {parts : List Query}, wholeEach parts = true →
    ∀ {read : List (LeafKey × XPathId)} {out : PreparedQuery}, e.Reports own read out →
      e.Reports own (read ++ leafKeysOfEach ctx parts) (e.prepareEach own ctx parts out)
  | [], _, read, out, h => (append_nil read).symm ▸ h
  | part :: parts, hwhole, read, out, h => by
    obtain ⟨hpart, hparts⟩ := Bool.and_eq_true_iff.mp hwhole
    have hrest := Reports.prepareEach ctx hparts (Reports.prepareLeaves ctx hpart h)
    rw [append_assoc] at hrest
    exact hrest

theorem Reports.prepareForms (ctx : FieldCtx) : ∀ {forms : List (Query × ℕ)}, wholeForms forms = true →
    ∀ {read : List (LeafKey × XPathId)} {out : PreparedQuery}, e.Reports own read out →
      e.Reports own (read ++ leafKeysOfForms ctx forms) (e.prepareForms own ctx forms out)
  | [], _, read, out, h => (append_nil read).symm ▸ h
  | (form, _) :: forms, hwhole, read, out, h => by
    obtain ⟨hform, hforms⟩ := Bool.and_eq_true_iff.mp hwhole
    have hrest := Reports.prepareForms ctx hforms (Reports.prepareLeaves ctx hform h)
    rw [append_assoc] at hrest
    exact hrest

end

theorem stats_prepare {queries : List Query} (hwhole : ∀ query ∈ queries, query.whole = true) (ctxs : List FieldCtx) :
    (e.prepare own queries ctxs).stats = .report (allLeafKeys queries ctxs) own.fieldTotals
      fun x key => (e.fetchLeaf key x).items.length := by
  have hnone : e.Reports own [] .empty := ⟨rfl, fun x key => by simp [PreparedQuery.empty]⟩
  exact (hnone.foldl fun query hquery read out h =>
    h.foldl fun ctx _ read out h => h.prepareLeaves ctx (hwhole query hquery)).stats

theorem whole_allLeafKeys {queries : List Query} (hwhole : ∀ query ∈ queries, query.whole = true)
    {ctxs : List FieldCtx} : ∀ kx ∈ allLeafKeys queries ctxs, kx.1.Whole := by
  intro kx hkx
  obtain ⟨query, hquery, hkx⟩ := mem_flatMap.mp hkx
  obtain ⟨ctx, -, hkx⟩ := mem_flatMap.mp hkx
  exact whole_leafKeys (hwhole query hquery) kx hkx

end QueryExecutor

namespace CorpusStats

open List

variable {read : List (LeafKey × XPathId)}

theorem merge_report (totals totals' : XPathId → FieldTotals) (docFreq docFreq' : XPathId → LeafKey → ℕ) :
    (report read totals docFreq).merge (report read totals' docFreq') =
      report read (fun x => totals x + totals' x) fun x key => docFreq x key + docFreq' x key := by
  refine CorpusStats.ext (funext fun x => ?_) (funext fun x => funext fun key => ?_) rfl
  · simp only [merge, report]
    split_ifs
    · rfl
    · rfl
  · simp only [merge, report]
    split_ifs
    · exact congrArg some (Saturating.of_add _ _).symm
    · rfl

theorem mergeAll_report {α : Type} (totals : α → XPathId → FieldTotals) (docFreq : α → XPathId → LeafKey → ℕ)
    {l : List α} (hne : l ≠ []) : mergeAll (l.map fun a => report read (totals a) (docFreq a)) =
      report read (fun x => (l.map fun a => totals a x).sum) fun x key => (l.map fun a => docFreq a x key).sum := by
  induction l using reverseRecOn with
  | nil => exact absurd rfl hne
  | append_singleton l a ih =>
    rw [mergeAll, map_append, foldl_append, map_singleton, foldl_cons, foldl_nil]
    rcases eq_or_ne l [] with rfl | hl
    · refine CorpusStats.ext (funext fun x => ?_) (funext fun x => funext fun key => ?_) rfl
      · simp [merge, new, report]
      · simp [merge, new, report]
    · have hbefore := ih hl
      rw [mergeAll] at hbefore
      rw [hbefore, merge_report]
      simp only [map_append, map_singleton, sum_append, sum_singleton]

end CorpusStats

/-! ### Shards -/

/-- What is indexed of a document, whatever ids it and its rows got. -/
def AnalyzedDocument.contents (doc : AnalyzedDocument) : List AnalyzedTarget := doc.targets.map Prod.snd

def lengthsOf (x : XPathId) (targets : List AnalyzedTarget) : List ℕ := targets.filterMap fun t => t.length? x

theorem map_targetLengths (x : XPathId) (targets : List (DocId × AnalyzedTarget)) :
    (targetLengths x targets).map Prod.snd = lengthsOf x (targets.map Prod.snd) := by
  rw [targetLengths, lengthsOf, map_filterMap, filterMap_map]
  refine filterMap_congr fun t _ => ?_
  simp only [Option.map_map, Function.comp_apply]
  exact Option.map_id'

structure HeldShard where
  snapshot : IndexSnapshot
  documents : List AnalyzedDocument
  holds : snapshot.IsOf documents
  lookupPrefix : String → XPathId → PostingList
  lookupWildcard : String → XPathId → PostingList
  fuzzyExpansions : String → XPathId → FuzzyOptions → List FuzzyExpansion

namespace HeldShard

open List QueryExecutor CorpusStats World

def targets (i : HeldShard) : List AnalyzedTarget := i.documents.flatMap contents

/-- `field_totals`, and the words near a word. -/
def localStats (i : HeldShard) : LocalStats where
  fieldTotals x := ⟨.of u64Max (i.snapshot.docCount x), .of u64Max (i.snapshot.totalDocLen x)⟩
  fuzzyExpansions := i.fuzzyExpansions

def executor {F : Type} (i : HeldShard) (e : QueryExecutor F) : QueryExecutor F :=
  { e with
    index := i.snapshot.searchIndex i.lookupPrefix i.lookupWildcard
    prepared := fun _ _ => none }

def preparedStats {F : Type} (i : HeldShard) (e : QueryExecutor F) (queries : List Query) (ctxs : List FieldCtx) :
    CorpusStats :=
  ((i.executor e).prepare i.localStats queries ctxs).stats

def totalsOf (targets : List AnalyzedTarget) (x : XPathId) : FieldTotals :=
  ⟨.of u64Max (lengthsOf x targets).length, .of u64Max (lengthsOf x targets).sum⟩

theorem targets_eq (i : HeldShard) : (i.documents.flatMap AnalyzedDocument.targets).map Prod.snd = i.targets := by
  rw [map_flatMap]
  rfl

theorem fieldTotals_eq (i : HeldShard) : i.localStats.fieldTotals = totalsOf i.targets := by
  obtain ⟨as, hdocs, hdel, hshows⟩ := i.holds.run
  have hsep := i.holds.separate
  have hfits := i.holds.fits
  have htargets := i.targets_eq
  rw [← hdocs] at hsep hfits htargets
  funext x
  obtain ⟨hcount, htotal⟩ := stats_shown hdel hsep hfits hshows x
  have hlengths : (targetLengths x (targetsOf as)).map Prod.snd = lengthsOf x i.targets := by
    rw [map_targetLengths, targetsOf, htargets]
  refine FieldTotals.ext (congrArg (Saturating.of u64Max) ?_) (congrArg (Saturating.of u64Max) ?_)
  · rw [hcount, ← hlengths, length_map]
  · rw [htotal, hlengths]

theorem docFreq_eq {F : Type} (i : HeldShard) (e : QueryExecutor F) {key : LeafKey} (hkey : key.Whole) (x : XPathId) :
    ((i.executor e).fetchLeaf key x).items.length = i.targets.countP fun t => t.hasLeaf x key := by
  rw [length_fetchLeaf i.holds rfl rfl hkey x, ← i.targets_eq, countP_map]
  rfl

theorem preparedStats_eq {F : Type} (i : HeldShard) (e : QueryExecutor F) {queries : List Query}
    (hwhole : ∀ query ∈ queries, query.whole = true) (ctxs : List FieldCtx) :
    i.preparedStats e queries ctxs = .report (allLeafKeys queries ctxs) (totalsOf i.targets)
      fun x key => i.targets.countP fun t => t.hasLeaf x key := by
  rw [preparedStats, stats_prepare hwhole, i.fieldTotals_eq]
  refine CorpusStats.ext rfl (funext fun x => funext fun key => ?_) rfl
  simp only [report]
  split_ifs with hread
  · rw [i.docFreq_eq e (whole_allLeafKeys hwhole (key, x) hread)]
  · rfl

theorem sum_totalsOf (shards : List HeldShard) (x : XPathId) :
    (shards.map fun i => totalsOf i.targets x).sum = totalsOf (shards.flatMap targets) x := by
  induction shards with
  | nil => rfl
  | cons i shards ih =>
    rw [map_cons, sum_cons, ih, flatMap_cons]
    simp only [totalsOf, lengthsOf, filterMap_append, length_append, sum_append, Saturating.of_add]
    rfl

theorem sum_countP (shards : List HeldShard) (p : AnalyzedTarget → Bool) :
    (shards.map fun i => i.targets.countP p).sum = (shards.flatMap targets).countP p := by
  rw [countP_flatMap]
  rfl

theorem totalsOf_perm {l l' : List AnalyzedTarget} (h : l.Perm l') (x : XPathId) : totalsOf l x = totalsOf l' x := by
  have hlengths := h.filterMap fun t => t.length? x
  rw [totalsOf, totalsOf, lengthsOf, lengthsOf, hlengths.length_eq, hlengths.sum_eq]

theorem mergeAll_preparedStats {F : Type} (e : QueryExecutor F) {queries : List Query}
    (hwhole : ∀ query ∈ queries, query.whole = true) (ctxs : List FieldCtx) {shards : List HeldShard}
    (hne : shards ≠ []) {all : HeldShard} (hall : (shards.flatMap targets).Perm all.targets) :
    mergeAll (shards.map fun i => i.preparedStats e queries ctxs) = all.preparedStats e queries ctxs := by
  have hreports := fun i : HeldShard => i.preparedStats_eq e hwhole ctxs
  simp only [hreports]
  rw [mergeAll_report _ _ hne]
  congr 1
  · funext x
    rw [sum_totalsOf, totalsOf_perm hall]
  · funext x key
    rw [sum_countP, hall.countP_eq]

end HeldShard

/-- Merging is commutative and associative, and however documents are spread over shards, the
merged statistics are those of one index with all documents. -/
theorem stats_of_shards :
    (∀ a b : CorpusStats, a.merge b = b.merge a) ∧
    (∀ a b c : CorpusStats, (a.merge b).merge c = a.merge (b.merge c)) ∧
    ∀ {F : Type} (e : QueryExecutor F) (queries : List Query) (ctxs : List FieldCtx) (shards : List HeldShard)
      (all : HeldShard), (∀ query ∈ queries, query.whole = true) → shards ≠ [] →
      ((shards.flatMap HeldShard.documents).map contents).Perm
        (all.documents.map contents) →
      CorpusStats.mergeAll (shards.map fun i => i.preparedStats e queries ctxs) =
        all.preparedStats e queries ctxs := by
  refine ⟨CorpusStats.merge_comm, CorpusStats.merge_assoc, ?_⟩
  intro F e queries ctxs shards all hwhole hne hperm
  refine HeldShard.mergeAll_preparedStats e hwhole ctxs hne ?_
  have hflat := hperm.flatten
  rw [← flatMap_def, ← flatMap_def, flatMap_assoc] at hflat
  exact hflat

def HeldShard.words (ids : List DocId) (hids : ids.Nodup) : HeldShard where
  snapshot := ((start [] ∅).run [.mergeIntoMemtable (ids.map wordDocument)]).index.snapshot
  documents := ids.map wordDocument
  holds := by
    have htargets : (ids.map wordDocument).flatMap AnalyzedDocument.targets =
        ids.map fun id => (id, (wordDocument id).main) := by
      rw [flatMap_map, map_eq_flatMap]
      rfl
    refine ⟨⟨[.mergeIntoMemtable (ids.map wordDocument)], List.append_nil _, ?_, .inl rfl⟩, ?_, ?_⟩
    · intro d ok hmem
      cases List.mem_singleton.mp hmem
    · rw [htargets, Separate, pairwise_map]
      exact hids.imp fun hne hid => absurd hid hne
    · intro t ht field hfield
      rw [htargets] at ht
      obtain ⟨id, -, rfl⟩ := List.mem_map.mp ht
      obtain rfl := List.mem_singleton.mp hfield
      decide
  lookupPrefix _ _ := default
  lookupWildcard _ _ := default
  fuzzyExpansions _ _ _ := []

/-- Two shards with a document each, and one index with both. -/
theorem stats_of_pair :
    let queries := [Query.and [.term "word", .phrase [⟨"word", 0⟩, ⟨"word", 1⟩]]]
    CorpusStats.mergeAll ([HeldShard.words [1] (by decide), HeldShard.words [1] (by decide)].map fun i =>
        i.preparedStats (merged []) queries [⟨0, none, false⟩]) =
      (HeldShard.words [1, 2] (by decide)).preparedStats (merged []) queries [⟨0, none, false⟩] :=
  stats_of_shards.2.2 _ _ _ _ _ (by decide) (by simp) (Perm.refl _)
