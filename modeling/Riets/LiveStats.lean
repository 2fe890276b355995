/-
Statistics of the live documents.

A snapshot adds up what its parts report of a field and takes off what the
tombstones account for, which it finds by looking up the length of every
tombstoned id.
-/
import Riets.LengthPruning
import Riets.MatchAll

open List AnalyzedDocument World

section Hidden

variable {α : Type*} [DecidableEq α] {f : α → Option ℕ} {table : List (α × ℕ)}

theorem nodup_hidden (hkeys : (table.map Prod.fst).Nodup) (hidden : Finset α) :
    ((table.filter fun e => e.1 ∈ hidden).map Prod.fst).Nodup :=
  hkeys.sublist (filter_sublist.map Prod.fst)

variable (hf : ∀ a n, f a = some n ↔ (a, n) ∈ table) (hidden : Finset α)
include hf

theorem filter_isSome_eq :
    (hidden.filter fun a => (f a).isSome) = ((table.filter fun e => e.1 ∈ hidden).map Prod.fst).toFinset := by
  ext a
  rw [Finset.mem_filter, mem_toFinset, mem_map, Option.isSome_iff_exists]
  constructor
  · rintro ⟨ha, n, hn⟩
    exact ⟨(a, n), mem_filter.mpr ⟨(hf a n).mp hn, by simpa using ha⟩, rfl⟩
  · rintro ⟨⟨a', n⟩, he, rfl⟩
    obtain ⟨hmem, ha⟩ := mem_filter.mp he
    exact ⟨by simpa using ha, n, (hf a' n).mpr hmem⟩

variable (hkeys : (table.map Prod.fst).Nodup)
include hkeys

theorem length_filter_hidden :
    (hidden.filter fun a => (f a).isSome).card = (table.filter fun e => e.1 ∈ hidden).length := by
  rw [filter_isSome_eq hf, toFinset_card_of_nodup (nodup_hidden hkeys hidden), length_map]

theorem sum_filter_hidden :
    ∑ a ∈ hidden, (f a).getD 0 = ((table.filter fun e => e.1 ∈ hidden).map Prod.snd).sum := by
  have hsome : ∑ a ∈ hidden.filter (fun a => (f a).isSome), (f a).getD 0 = ∑ a ∈ hidden, (f a).getD 0 := by
    refine Finset.sum_filter_of_ne fun a _ hne => ?_
    cases hfa : f a with
    | none => rw [hfa] at hne; exact absurd rfl hne
    | some n => rfl
  rw [← hsome, filter_isSome_eq hf, sum_toFinset _ (nodup_hidden hkeys hidden), map_map]
  refine congrArg sum (map_congr_left fun e he => ?_)
  rw [Function.comp_apply, (hf e.1 e.2).mpr (mem_filter.mp he).1, Option.getD_some]

end Hidden

/-- Documents with ids of their own, which file field `x` under these ids and not under rows. -/
structure KeyedByDocument (x : XPathId) (docs : List AnalyzedDocument) : Prop where
  distinct : (docs.map docId).Nodup
  rowless : ∀ doc ∈ docs, ∀ row ∈ doc.arrayRows, row.target.length? x = none

namespace KeyedByDocument

open List

variable {x : XPathId} {docs docs' : List AnalyzedDocument}

theorem sublist (h : KeyedByDocument x docs) (hsub : docs'.Sublist docs) : KeyedByDocument x docs' :=
  ⟨h.distinct.sublist (hsub.map _), fun doc hdoc => h.rowless doc (hsub.subset hdoc)⟩

theorem main_of_length (h : KeyedByDocument x docs) {t : DocId × AnalyzedTarget}
    (ht : t ∈ docs.flatMap targets) (hlen : t.2.length? x ≠ none) :
    ∃ doc ∈ docs, t = (doc.docId, doc.main) := by
  obtain ⟨doc, hdoc, ht⟩ := mem_flatMap.mp ht
  rcases mem_cons.mp ht with rfl | ht
  · exact ⟨doc, hdoc, rfl⟩
  · obtain ⟨row, hrow, rfl⟩ := mem_map.mp ht
    exact absurd (h.rowless doc hdoc row hrow) hlen

theorem eq_of_docId (h : KeyedByDocument x docs) {doc doc' : AnalyzedDocument} (hdoc : doc ∈ docs)
    (hdoc' : doc' ∈ docs) (hid : doc.docId = doc'.docId) : doc = doc' :=
  inj_on_of_nodup_map h.distinct hdoc hdoc' hid

theorem separateAt (h : KeyedByDocument x docs) : SeparateAt x (docs.flatMap targets) := by
  have hrows : ∀ doc ∈ docs, ∀ t ∈ doc.targets, t = (doc.docId, doc.main) ∨ t.2.length? x = none := by
    intro doc hdoc t ht
    rcases mem_cons.mp ht with rfl | ht
    · exact .inl rfl
    · obtain ⟨row, hrow, rfl⟩ := mem_map.mp ht
      exact .inr (h.rowless doc hdoc row hrow)
  refine pairwise_flatMap.mpr ⟨fun doc hdoc => ?_, ?_⟩
  · -- all but the first target of a document are rows
    refine pairwise_cons.mpr ⟨fun t ht _ => ?_, ?_⟩
    · obtain ⟨row, hrow, rfl⟩ := mem_map.mp ht
      exact .inr (h.rowless doc hdoc row hrow)
    · refine pairwise_map.mpr (pairwise_of_forall_mem_list fun row hrow _ _ _ => ?_)
      exact .inl (h.rowless doc hdoc row hrow)
  · refine (pairwise_map.mp h.distinct).imp_of_mem fun {a b} ha hb hne t ht t' ht' hid => ?_
    rcases hrows a ha t ht with rfl | hnone
    · rcases hrows b hb t' ht' with rfl | hnone
      · exact absurd hid hne
      · exact .inr hnone
    · exact .inl hnone

end KeyedByDocument

/-! ### What a snapshot reports -/

namespace World

open List

variable {w : World} {docs : List AnalyzedDocument} {s : IndexSnapshot} {x : XPathId}

theorem Holding.ok {Ok : List AnalyzedDocument → Prop} (h : Holding Ok w docs) (hnil : Ok [])
    (hsub : ∀ docs docs' : List AnalyzedDocument, docs'.Sublist docs → Ok docs → Ok docs') : Ok docs := by
  induction h with
  | inMemory => exact hnil
  | created => exact hnil
  | step _ _ hok _ => exact hok
  | reopened _ _ _ _ _ hdocs _ ih => exact hsub _ _ hdocs ih

theorem tallied_added {a : IndexAction} (hsep : SeparateAt x (a.documents.flatMap targets))
    (h : ∀ r ∈ w.index.readers, r.Tallied x) : ∀ r ∈ IndexAction.added a ++ w.index.readers, r.Tallied x := by
  intro r hr
  rcases mem_append.mp hr with hr | hr
  · cases a with
    | mergeIntoMemtable docs =>
      obtain rfl := mem_singleton.mp hr
      exact (MemIndex.tallied_ofDocuments hsep).1
    | _ => cases hr
  · exact h r hr

theorem tallied_step (hinv : Inv w) (hfiled : Reader.Filed x w.index.readers docs) {a : IndexAction}
    (hsep : SeparateAt x ((docs ++ a.documents).flatMap targets))
    (h : ∀ r ∈ w.index.readers, r.Tallied x) : ∀ r ∈ (w.step a).index.readers, r.Tallied x := by
  obtain ⟨deleted, -, hregroup⟩ := step_makesIn hinv a
  refine Reader.tallied_regroup (hregroup.mono fun _ _ hmakes => hmakes.1) (filed_added hfiled a hsep).apart ?_
  rw [flatMap_append] at hsep
  exact tallied_added (pairwise_append.mp hsep).2.1 h

theorem Holding.tallied {Ok : List AnalyzedDocument → Prop}
    (hok : ∀ docs, Ok docs → SeparateAt x (docs.flatMap targets)) (h : Holding Ok w docs) :
    ∀ r ∈ w.index.readers, r.Tallied x := by
  have hempty : ∀ r ∈ [Reader.mem MemIndex.new], r.Tallied x := by
    intro r hr
    obtain rfl := mem_singleton.mp hr
    rfl
  induction h with
  | inMemory => exact hempty
  | created => exact hempty
  | step a hholding hsep ih => exact tallied_step hholding.inv (hholding.filed hok) (hok _ hsep) ih
  | reopened manifest deleted _ _ hsegs _ _ ih =>
    rw [readers_start]
    intro r hr
    rcases mem_cons.mp hr with rfl | hr
    · rfl
    · exact ih r (hsegs.subset hr)

theorem tallied_shown (hinv : Inv w) (hfiled : Reader.Filed x w.index.readers docs)
    (h : ∀ r ∈ w.index.readers, r.Tallied x) (hs : w.Shows s) : ∀ r ∈ s.readers, r.Tallied x := by
  rcases hs with rfl | ⟨busy, rfl⟩
  · exact h
  · have hdocs : docs ++ (IndexAction.publishSnapshot busy).documents = docs := append_nil docs
    have hstep := tallied_step hinv hfiled (a := .publishSnapshot busy) (hdocs.symm ▸ hfiled.separate) h
    intro r hr
    rcases mem_cons.mp hr with rfl | hr
    · rfl
    · exact hstep r (mem_cons_of_mem _ hr)

end World

namespace IndexSnapshot

open List Reader

variable {s : IndexSnapshot} {docs : List AnalyzedDocument} {d : DocId} {x : XPathId}

def measured (s : IndexSnapshot) (x : XPathId) (docs : List AnalyzedDocument) : List AnalyzedDocument :=
  docs.filter fun doc => ∃ r ∈ s.readers, r.docLen doc.docId x ≠ none

def lengthOf (x : XPathId) (doc : AnalyzedDocument) : ℕ := (doc.main.length? x).getD 0

def table (s : IndexSnapshot) (x : XPathId) (docs : List AnalyzedDocument) : List (DocId × ℕ) :=
  (s.measured x docs).map fun doc => (doc.docId, lengthOf x doc)

theorem searchedLen_eq_some (hapart : Apart x s.readers) {len : ℕ} :
    s.searchedLen d x = some len ↔ ∃ r ∈ s.readers, r.docLen d x = some len := by
  refine hapart.offers_iff (fun len hlen => ?_) ?_ len
  · rcases Option.or_eq_some_iff.mp hlen with hmem | ⟨-, hsegment⟩
    · exact ⟨_, mem_cons_self, hmem⟩
    · obtain ⟨r, hr, hlen⟩ := exists_of_findSome?_eq_some hsegment
      exact ⟨r, mem_cons_of_mem _ (mem_reverse.mp hr), hlen⟩
  · rw [searchedLen, ne_eq, Option.or_eq_none_iff, findSome?_eq_none_iff]
    simp only [mem_reverse, readers, mem_cons, exists_eq_or_imp, not_and_or, not_forall, ne_eq]
    exact or_congr_right (exists_congr fun r => by rw [exists_prop])

theorem nodup_table (s : IndexSnapshot) (hkeyed : KeyedByDocument x docs) : ((s.table x docs).map Prod.fst).Nodup := by
  rw [table, map_map]
  exact hkeyed.distinct.sublist (filter_sublist.map docId)

section Filed

variable (hkeyed : KeyedByDocument x docs) (hfiled : Filed x s.readers docs)
include hkeyed hfiled

theorem mem_table {len : ℕ} : (d, len) ∈ s.table x docs ↔ ∃ r ∈ s.readers, r.docLen d x = some len := by
  -- a length is given by a document's own target
  have howner : ∀ r ∈ s.readers, ∀ d len, r.docLen d x = some len →
      ∃ doc ∈ docs, doc.docId = d ∧ lengthOf x doc = len := by
    intro r hr d len hlen
    obtain ⟨t, ht, hkey, hlength⟩ := mem_targetLengths.mp (hfiled.given r hr d len hlen)
    obtain ⟨doc, hdoc, rfl⟩ := hkeyed.main_of_length ht (by simp [hlength])
    exact ⟨doc, hdoc, (Prod.mk.inj (toLex.injective hkey)).1.symm, by rw [lengthOf, hlength]; rfl⟩
  rw [table, mem_map]
  constructor
  · rintro ⟨doc, hdoc, heq⟩
    obtain ⟨rfl, rfl⟩ := Prod.mk.inj heq
    obtain ⟨hmem, hheld⟩ := mem_filter.mp hdoc
    obtain ⟨r, hr, hne⟩ := of_decide_eq_true hheld
    obtain ⟨len, hlen⟩ := Option.ne_none_iff_exists'.mp hne
    obtain ⟨doc', hdoc', hid, rfl⟩ := howner r hr doc.docId len hlen
    rw [hkeyed.eq_of_docId hmem hdoc' hid.symm]
    rw [← hid] at hlen
    exact ⟨r, hr, hlen⟩
  · rintro ⟨r, hr, hlen⟩
    obtain ⟨doc, hdoc, rfl, rfl⟩ := howner r hr d len hlen
    exact ⟨doc, mem_filter.mpr ⟨hdoc, by simpa using ⟨r, hr, by simp [hlen]⟩⟩, rfl⟩

theorem docLen_eq_some {len : ℕ} : s.docLen d x = some len ↔ (d, len) ∈ s.table x docs := by
  have hrow : ¬RowLength x docs d := by
    rintro ⟨doc, hdoc, row, hrow, -, hlen⟩
    exact hlen (hkeyed.rowless doc hdoc row hrow)
  rw [docLen_of_document hfiled hrow, searchedLen_eq_some hfiled.apart, mem_table hkeyed hfiled]

theorem perm_allLengths :
    (allLengths x s.readers).Perm ((s.table x docs).map fun e => (toLex (e.1, x), e.2)) := by
  have hinj : Function.Injective fun e : DocId × ℕ => ((toLex (e.1, x), e.2) : LengthKey × ℕ) := by
    intro a b hab
    obtain ⟨hkey, hlen⟩ := Prod.mk.inj hab
    exact Prod.ext (Prod.mk.inj (toLex.injective hkey)).1 hlen
  refine (perm_ext_iff_of_nodup hfiled.apart.nodup_lengths
    ((s.nodup_table hkeyed).of_map _ |>.map hinj)).mpr fun e => ?_
  rw [mem_lengths, mem_map]
  constructor
  · rintro ⟨d, hkey, hlen⟩
    exact ⟨(d, e.2), (mem_table hkeyed hfiled).mpr hlen, Prod.ext hkey.symm rfl⟩
  · rintro ⟨⟨d, len⟩, hmem, rfl⟩
    exact ⟨d, rfl, (mem_table hkeyed hfiled).mp hmem⟩

theorem reported (htallied : ∀ r ∈ s.readers, r.Tallied x) :
    (s.readers.map fun r => (r.stats x).docCount).sum = (s.table x docs).length ∧
      (s.readers.map fun r => (r.stats x).totalDocLen).sum = ((s.table x docs).map Prod.snd).sum := by
  obtain ⟨hcount, htotal⟩ := sum_stats htallied
  have hperm := perm_allLengths hkeyed hfiled
  refine ⟨hcount.trans ?_, htotal.trans ?_⟩
  · rw [hperm.length_eq, length_map]
  · rw [(hperm.map Prod.snd).sum_eq, map_map]
    rfl

end Filed

def liveDocuments (s : IndexSnapshot) (x : XPathId) (docs : List AnalyzedDocument) : List AnalyzedDocument :=
  (s.measured x docs).filter fun doc => doc.docId ∉ s.deleted

theorem table_split (s : IndexSnapshot) (x : XPathId) (docs : List AnalyzedDocument) :
    (s.table x docs).length =
        ((s.table x docs).filter fun e => e.1 ∈ s.deleted).length + (s.liveDocuments x docs).length ∧
      ((s.table x docs).map Prod.snd).sum = (((s.table x docs).filter fun e => e.1 ∈ s.deleted).map Prod.snd).sum +
        ((s.liveDocuments x docs).map (lengthOf x)).sum := by
  have hperm := filter_append_perm (fun e : DocId × ℕ => decide (e.1 ∈ s.deleted)) (s.table x docs)
  have hrest : ((s.table x docs).filter fun e => !decide (e.1 ∈ s.deleted)) =
      (s.liveDocuments x docs).map fun doc => (doc.docId, lengthOf x doc) := by
    rw [table, liveDocuments, filter_map]
    refine congrArg _ (filter_congr fun doc _ => ?_)
    simp
  rw [hrest] at hperm
  refine ⟨?_, ?_⟩
  · rw [← hperm.length_eq, length_append, length_map]
  · rw [← (hperm.map Prod.snd).sum_eq, map_append, sum_append, map_map]
    rfl

end IndexSnapshot

/-- Wherever an index with documents of different ids got, every snapshot of it, with whatever
tombstones, reports on a field without rows the number of its live documents with a length and the
sum of their lengths; what the tombstones take off is never more than there is. -/
theorem stats_live {x : XPathId} {w : World} {docs : List AnalyzedDocument} {s : IndexSnapshot}
    (h : Holding (KeyedByDocument x) w docs) (hs : w.Shows s) (deleted : DeleteSet) :
    let shown := { s with deleted := deleted }
    shown.docCount x = (shown.liveDocuments x docs).length ∧
      shown.totalDocLen x = ((shown.liveDocuments x docs).map (IndexSnapshot.lengthOf x)).sum ∧
      (deleted.filter fun d => (s.docLen d x).isSome).card ≤ (s.readers.map fun r => (r.stats x).docCount).sum ∧
      ∑ d ∈ deleted, (s.docLen d x).getD 0 ≤ (s.readers.map fun r => (r.stats x).totalDocLen).sum := by
  intro shown
  have hkeyed : KeyedByDocument x docs :=
    h.ok ⟨nodup_nil, fun _ hdoc => (not_mem_nil hdoc).elim⟩ fun _ _ hsub hok => hok.sublist hsub
  have hheld := h.filed (x := x) fun _ hok => hok.separateAt
  -- the parts are those of the snapshot that was shown
  have hfiled : Reader.Filed x s.readers docs := filed_shown h.inv hheld hs
  have htallied : ∀ r ∈ s.readers, r.Tallied x :=
    tallied_shown h.inv hheld (h.tallied fun _ hok => hok.separateAt) hs
  obtain ⟨hcount, htotal⟩ := IndexSnapshot.reported (s := shown) hkeyed hfiled htallied
  obtain ⟨hsplit, hsplit'⟩ := shown.table_split x docs
  have hkeys := shown.nodup_table hkeyed
  have hhidden := length_filter_hidden (fun _ _ => IndexSnapshot.docLen_eq_some (s := shown) hkeyed hfiled) deleted hkeys
  have hhidden' := sum_filter_hidden (fun _ _ => IndexSnapshot.docLen_eq_some (s := shown) hkeyed hfiled) deleted hkeys
  rw [← hcount, ← hhidden] at hsplit
  rw [← htotal, ← hhidden'] at hsplit'
  refine ⟨?_, ?_, ?_, ?_⟩
  · exact Nat.sub_eq_of_eq_add (hsplit.trans (Nat.add_comm _ _))
  · exact Nat.sub_eq_of_eq_add (hsplit'.trans (Nat.add_comm _ _))
  · exact (Nat.le_add_right _ _).trans hsplit.ge
  · exact (Nat.le_add_right _ _).trans hsplit'.ge

/-- Two documents and two tombstones, one of them under an id that was never indexed. -/
theorem stats_live_pair :
    let docs := [wordDocument 1, wordDocument 2]
    let s := (((start [] ∅).step (.mergeIntoMemtable docs)).index.publishSnapshot fun _ => false).2
    ({ s with deleted := {1, 7} } : IndexSnapshot).docCount 0 = 1 ∧
      ({ s with deleted := {1, 7} } : IndexSnapshot).totalDocLen 0 = 1 := by
  have hkeyed : KeyedByDocument 0 ([] ++ [wordDocument 1, wordDocument 2]) := by
    refine ⟨by decide, fun doc hdoc row hrow => ?_⟩
    rcases mem_pair.mp hdoc with rfl | rfl
    · cases hrow
    · cases hrow
  obtain ⟨hcount, htotal, -⟩ := stats_live (.step (.mergeIntoMemtable _) .created hkeyed)
    (.inr ⟨fun _ => false, rfl⟩) {1, 7}
  exact ⟨hcount.trans (by decide), htotal.trans (by decide)⟩
