/-
Matching all documents.

Match-all takes every id from the first to the last one the parts report and
leaves the tombstoned ones out.  It knows nothing of the ids between them, so
ids that were given to no document, ids of array rows and tombstones that were
dropped show up, and documents that no part reports an id for do not.
-/
import Riets.IdSpan
import Riets.NoLoss
import Riets.RankRetrieve
import Riets.Resurrection

open List

def StartsBy (range : Option (DocId × DocId)) (d : DocId) : Prop := ∃ lo hi, range = some (lo, hi) ∧ lo ≤ d

def EndsBy (range : Option (DocId × DocId)) (d : DocId) : Prop := ∃ lo hi, range = some (lo, hi) ∧ d ≤ hi

namespace IndexSnapshot

open QueryExecutor List

def cover (range : Option (DocId × DocId)) (r : Reader) : Option (DocId × DocId) :=
  match r.docIdRange with
  | some (lo, hi) =>
    some (match range with
      | none => (lo, hi)
      | some (first, last) => (min first lo, max last hi))
  | none => range

def docRange (s : IndexSnapshot) : Option (DocId × DocId) := s.segments.foldl cover s.mem.docIdRange

/-- What the executor asks a snapshot for; how prefixes and patterns are expanded is left open. -/
def searchIndex (s : IndexSnapshot) (lookupPrefix lookupWildcard : String → XPathId → PostingList) :
    SearchIndex where
  lookup := s.lookup
  lookupPrefix := lookupPrefix
  lookupWildcard := lookupWildcard
  numericRange := s.numericRange
  boolTrueIds := s.boolTrueIds
  boolFalseIds := s.boolFalseIds
  docRange := s.docRange
  isDeleted d := d ∈ s.deleted
  docOfRow := s.docOfRow

theorem cover_spec (range : Option (DocId × DocId)) (r : Reader) (d : DocId) :
    (StartsBy (cover range r) d ↔ StartsBy range d ∨ StartsBy r.docIdRange d) ∧
      (EndsBy (cover range r) d ↔ EndsBy range d ∨ EndsBy r.docIdRange d) := by
  unfold cover
  rcases r.docIdRange with _ | ⟨lo, hi⟩
  · simp [StartsBy, EndsBy]
  · rcases range with _ | ⟨first, last⟩
    · simp [StartsBy, EndsBy]
    · simp [StartsBy, EndsBy]

theorem mem_docRange {s : IndexSnapshot} {d : DocId} :
    d ∈ idsBetween s.docRange ↔
      (∃ r ∈ s.readers, StartsBy r.docIdRange d) ∧ ∃ r ∈ s.readers, EndsBy r.docIdRange d := by
  have hids : ∀ range : Option (DocId × DocId),
      d ∈ idsBetween range ↔ StartsBy range d ∧ EndsBy range d := by
    rintro (_ | ⟨lo, hi⟩)
    · simp [idsBetween, StartsBy]
    · simp [idsBetween, StartsBy, EndsBy]
  have hfold : ∀ (rs : List Reader) (range : Option (DocId × DocId)),
      (StartsBy (rs.foldl cover range) d ↔ StartsBy range d ∨ ∃ r ∈ rs, StartsBy r.docIdRange d) ∧
        (EndsBy (rs.foldl cover range) d ↔ EndsBy range d ∨ ∃ r ∈ rs, EndsBy r.docIdRange d) := by
    intro rs
    induction rs with
    | nil => simp
    | cons r rs ih =>
      intro range
      rw [foldl_cons, (ih _).1, (ih _).2, (cover_spec range r d).1, (cover_spec range r d).2]
      simp only [mem_cons, exists_eq_or_imp, or_assoc, and_self]
  rw [docRange, hids, (hfold _ _).1, (hfold _ _).2, readers]
  simp only [mem_cons, exists_eq_or_imp]
  rfl

end IndexSnapshot

/-- Match-all gives exactly the live documents, evaluated and ranked. -/
def QueryExecutor.YieldsAll {F : Type} [LinearOrder F] (e : QueryExecutor F) (live : Finset DocId) : Prop :=
  (∀ ctxs mode, ∃ ids, e.evaluate ctxs mode .matchAll = some (.docs ids) ∧ ∀ d, d ∈ ids ↔ d ∈ live) ∧
    ∀ ctxs mode k, live.card ≤ k → ∃ hits, e.rankRetrieve (some .matchAll) ctxs k none mode = some hits ∧
      (hits.map SearchHit.docId).Nodup ∧ ∀ d, d ∈ hits.map SearchHit.docId ↔ d ∈ live

theorem QueryExecutor.yieldsAll_of {F : Type} [LinearOrder F] (e : QueryExecutor F) {live : Finset DocId}
    (h : ∀ d, d ∈ live ↔ d ∈ idsBetween e.index.docRange ∧ e.index.isDeleted d = false) : e.YieldsAll live := by
  have hids : (idsBetween e.index.docRange).filter (fun id => !e.index.isDeleted id) = live := by
    ext d
    rw [Finset.mem_filter, h]
    simp
  refine ⟨fun ctxs mode => ⟨live, by rw [evaluate, hids], fun d => Iff.rfl⟩, fun ctxs mode k hk => ?_⟩
  by_cases hzero : k = 0 ∨ (none : Option (Finset DocId)) = some ∅ ∨ e.index.docRange = none
  · refine ⟨[], by rw [rankRetrieve, if_pos hzero], nodup_nil, fun d => ?_⟩
    have hnone : live = ∅ := by
      rcases hzero with rfl | hno | hrange
      · exact Finset.card_eq_zero.mp (Nat.le_zero.mp hk)
      · cases hno
      · rw [← hids, hrange]
        rfl
    simp [hnone]
  · obtain ⟨hits, hhits⟩ : ∃ hits, hits = live.ascending.map (SearchHit.ofDoc e.fl) := ⟨_, rfl⟩
    have hdocs : hits.map SearchHit.docId = live.ascending := by
      rw [hhits, map_map]
      exact map_id _
    have hnodup : (hits.map SearchHit.docId).Nodup := hdocs ▸ live.pairwise_ascending.imp ne_of_lt
    have hdistinct : DistinctDocs hits := pairwise_map.mp hnodup
    have hlen : hits.length ≤ k := by
      have hcard : (hits.map SearchHit.docId).toFinset = live := by
        ext d
        rw [mem_toFinset, hdocs, Finset.mem_ascending]
      rw [← length_map (f := SearchHit.docId), ← toFinset_card_of_nodup hnodup, hcard]
      exact hk
    refine ⟨TopK.best SearchHit.rank k hits, ?_, ?_, fun d => ?_⟩
    · rw [rankRetrieve, if_neg hzero]
      simp only [Option.getD_none, unranked, hids]
      rw [← hhits, topKFromHits_eq hdistinct]
    · rw [TopK.best, take_of_length_le ((Keyed.perm_sortBy hits).length_eq.trans_le hlen)]
      exact ((Keyed.perm_sortBy hits).map _).nodup_iff.mpr hnodup
    · rw [TopK.best, take_of_length_le ((Keyed.perm_sortBy hits).length_eq.trans_le hlen),
        ((Keyed.perm_sortBy hits).map SearchHit.docId).mem_iff, hdocs, Finset.mem_ascending]

/-! ### What keeps match-all exact -/

namespace World

open List IndexSnapshot LsmIndex Reader MemIndex Between AnalyzedDocument

/-- The range of some part is made of the id, or will be once the part is frozen. -/
def Spans (w : World) (id : DocId) : Prop := ∃ r ∈ w.index.readers, r.Held id

/-- The range of a table that is not in a segment yet is made of the id. -/
def TableSpans (w : World) (id : DocId) : Prop :=
  (Reader.mem w.index.mem).Held id ∨ (∃ g ∈ w.index.generations, (Reader.mem g).Held id) ∨
    ∃ p ∈ w.index.flushQueue.pending, ∃ g ∈ p.generations, (Reader.mem g).Held id

/-- Some part keeps the id in its range, whatever the part becomes. -/
def Anchored (w : World) (d : DocId) : Prop := ∃ r ∈ w.index.readers, r.Anchors d

structure Tight (w : World) (live : Finset DocId) : Prop where
  sound : ∀ r ∈ w.index.readers, r.Sound
  spanned : ∀ d, Between w.Spans d → d ∈ live ∨ d ∈ w.index.deleted
  /-- Every live document lies between live ones that no step takes out of the ranges. -/
  anchored : ∀ d ∈ live, Between (fun a => a ∈ live ∧ w.Anchored a) d
  kept : ∀ d ∈ live, w.Kept d

def liveAfter (live : Finset DocId) : IndexAction → Finset DocId
  | .mergeIntoMemtable docs => live ∪ (docs.map docId).toFinset
  | .deleteDocument d _ => live.erase d
  | _ => live

/-- New documents under ids no tombstone hides, without a gap between them and the ids that are
there, array rows included, each between documents with a term or a number. -/
structure OrderlyMerge (w : World) (live : Finset DocId) (docs : List AnalyzedDocument) : Prop where
  kept : ∀ doc ∈ docs, w.Kept doc.docId
  fits : ∀ doc ∈ docs, ∀ target ∈ doc.targets, ∀ field ∈ target.2.fields, field.docLen ≠ u32Max
  spanned : ∀ d, Between (fun id => w.Spans id ∨ (∃ doc ∈ docs, doc.docId = id) ∨ RangedIn docs id) d →
    d ∈ live ∨ d ∈ w.index.deleted ∨ ∃ doc ∈ docs, doc.docId = d
  anchored : ∀ doc ∈ docs, Between (fun a => (a ∈ live ∧ w.Anchored a) ∨
    ∃ doc' ∈ docs, doc'.docId = a ∧ doc'.main.Filed) doc.docId

/-- An action that leaves match-all exact: a merge without gaps, a delete after which every live
document still lies between documents with a term or a number, and no clearing of tombstones while a
table holds a tombstoned id or one lies between live documents. -/
def Orderly (w : World) (live : Finset DocId) (a : IndexAction) : Prop :=
  match a with
  | .mergeIntoMemtable docs => w.OrderlyMerge live docs
  | .deleteDocument d _ => ∀ d' ∈ live.erase d, Between (fun a => a ∈ live.erase d ∧ w.Anchored a) d'
  | a => Clears w a → ∀ d ∈ w.index.deleted, ¬w.TableSpans d ∧ ¬Between (· ∈ live) d

/-- The states an index reaches by orderly actions, with the documents that are live there: from a
new index, or from one that was opened on segments whose ranges are those of the live documents. -/
inductive Reached : World → Finset DocId → Prop
  | inMemory : Reached inMemory ∅
  | opened (manifest : List (ℕ × Segment)) (deleted : DeleteSet) (live : Finset DocId) :
      (manifest.map Prod.fst).Nodup → (start manifest deleted).Tight live →
        Reached (start manifest deleted) live
  | step {w : World} {live : Finset DocId} (a : IndexAction) :
      Reached w live → w.Orderly live a → Reached (w.step a) (liveAfter live a)

variable {w : World} {live : Finset DocId} {a : IndexAction} {d : DocId}

/-! ### One step -/

theorem spans_iff {id : DocId} :
    w.Spans id ↔ w.TableSpans id ∨ ∃ s ∈ w.index.querySegments, (seg s).Held id := by
  rw [Spans, exists_readers (P := fun r => r.Held id), TableSpans, or_assoc, or_assoc]

section Step

variable (hinv : Inv w) (hsound : ∀ r ∈ IndexAction.added a ++ w.index.readers, r.Sound)
include hinv hsound

theorem spans_step : (∀ r ∈ (w.step a).index.readers, r.Sound) ∧
    ∀ id, (w.step a).Spans id → ∃ r ∈ IndexAction.added a ++ w.index.readers, r.Held id := by
  obtain ⟨deleted, -, hregroup⟩ := step_makesIn hinv a
  have hall := hregroup.all_of_all (P := fun r => r.Sound ∧ ∀ id, r.Held id →
      ∃ r ∈ IndexAction.added a ++ w.index.readers, r.Held id) (fun r group hmakes hgroup => ?_)
    fun r hr => ⟨hsound r hr, fun id hid => ⟨r, hr, hid⟩⟩
  · refine ⟨fun r hr => (hall r hr).1, ?_⟩
    rintro id ⟨r, hr, hid⟩
    exact (hall r hr).2 id hid
  · have hgs : ∀ g ∈ group, g.Sound := fun g hg => (hgroup g hg).1
    refine ⟨hmakes.1.sound hgs, fun id hid => ?_⟩
    obtain ⟨-, g, hg, hid⟩ := hmakes.1.held hgs hid
    exact (hgroup g hg).2 id hid

theorem anchored_step (hkept : w.Kept d)
    (hanchors : ∃ r ∈ IndexAction.added a ++ w.index.readers, r.Anchors d) : (w.step a).Anchored d := by
  obtain ⟨deleted, hdeleted, hregroup⟩ := step_makesIn hinv a
  have hd : d ∉ deleted := by
    rcases hdeleted with rfl | ⟨job, hjob, -, rfl⟩
    · exact Finset.notMem_empty _
    · exact hkept.2 job (mem_append_right _ hjob)
  refine hregroup.exists_of_exists_of_all (P := fun r => r.Anchors d) (Q := Sound)
    (fun r group hmakes hgroup => hmakes.1.sound hgroup) (fun r group hmakes hgroup hex => ?_) hsound hanchors
  obtain ⟨g, hg, hanchors⟩ := hex
  exact hmakes.1.anchors hgroup hd hg hanchors

end Step

theorem spans_clears (hinv : Inv w) (hsound : ∀ r ∈ w.index.readers, r.Sound) (hc : Clears w a) {id : DocId}
    (h : (w.step a).Spans id) : w.TableSpans id ∨ id ∉ w.index.deleted := by
  obtain ⟨-, hmem, hgens, hqueue, deleted, opened, hknown, hquery, hopened⟩ := clears_spec hinv hc
  rw [spans_iff, TableSpans, hmem, hgens, hqueue, hquery] at h
  rcases h with h | ⟨s, hs, hheld⟩
  · exact .inl h
  · obtain rfl := mem_singleton.mp hs
    have hgroup : ∀ g ∈ opened.map seg, g.Sound := by
      intro g hg
      obtain ⟨s, hs, rfl⟩ := mem_map.mp hg
      exact hsound _ (mem_cons_of_mem _ (mem_append_right _ (mem_map_of_mem (hopened s hs))))
    exact .inr fun hd => ((Makes.compacted deleted opened).held hgroup hheld).1 (hknown hd)

namespace Tight

theorem quiet (h : w.Tight live) (hinv : Inv w) (hadded : IndexAction.added a = [])
    (hdel : ∀ d ok, a ≠ .deleteDocument d ok)
    (hclear : Clears w a → ∀ d ∈ w.index.deleted, ¬w.TableSpans d ∧ ¬Between (· ∈ live) d) :
    (w.step a).Tight live := by
  have hsound : ∀ r ∈ IndexAction.added a ++ w.index.readers, r.Sound := by
    rw [hadded]
    exact h.sound
  obtain ⟨hsound', hspans⟩ := spans_step hinv hsound
  have hspans' : ∀ id, (w.step a).Spans id → w.Spans id := by
    intro id hid
    obtain ⟨r, hr, hheld⟩ := hspans id hid
    rw [hadded] at hr
    exact ⟨r, hr, hheld⟩
  refine ⟨hsound', fun d hd => ?_, fun d hd => ?_, fun d hd => kept_step hinv (h.kept d hd) (hdel d)⟩
  · have hbefore := h.spanned d (hd.mono hspans')
    by_cases hc : Clears w a
    · -- what stays spanned is live, and so is what lies between
      have hlive : Between (· ∈ live) d := by
        refine hd.mono fun id hid => ?_
        rcases h.spanned id (of_self (hspans' id hid)) with hid' | hid'
        · exact hid'
        · rcases spans_clears hinv h.sound hc hid with htable | hnot
          · exact absurd htable (hclear hc id hid').1
          · exact absurd hid' hnot
      exact .inl (hbefore.resolve_right fun hdead => (hclear hc d hdead).2 hlive)
    · rw [step_deleted hinv hdel hc]
      exact hbefore
  · refine (h.anchored d hd).mono fun id hid => ⟨hid.1, ?_⟩
    obtain ⟨r, hr, hanchors⟩ := hid.2
    exact anchored_step hinv hsound (h.kept id hid.1) ⟨r, mem_append_right _ hr, hanchors⟩

theorem delete (h : w.Tight live) (hinv : Inv w) (appendOk : Bool)
    (ho : ∀ d' ∈ live.erase d, Between (fun a => a ∈ live.erase d ∧ w.Anchored a) d') :
    (w.step (.deleteDocument d appendOk)).Tight (live.erase d) where
  sound := h.sound
  spanned d' hd' := by
    change d' ∈ live.erase d ∨ d' ∈ insert d w.index.deleted
    by_cases heq : d' = d
    · exact .inr (heq ▸ Finset.mem_insert_self d' _)
    · rcases h.spanned d' hd' with hlive | hdead
      · exact .inl (Finset.mem_erase.mpr ⟨heq, hlive⟩)
      · exact .inr (Finset.mem_insert_of_mem hdead)
  anchored := ho
  kept d' hd' := by
    obtain ⟨hne, hlive⟩ := Finset.mem_erase.mp hd'
    exact kept_step hinv (h.kept d' hlive) fun ok heq => hne (IndexAction.deleteDocument.inj heq).1.symm

theorem merge (h : w.Tight live) (hinv : Inv w) {docs : List AnalyzedDocument}
    (ho : w.OrderlyMerge live docs) :
    (w.step (.mergeIntoMemtable docs)).Tight (live ∪ (docs.map docId).toFinset) := by
  have hmem : ∀ id, id ∈ live ∪ (docs.map docId).toFinset ↔
      id ∈ live ∨ ∃ doc ∈ docs, doc.docId = id := by simp
  have hsound : ∀ r ∈ IndexAction.added (.mergeIntoMemtable docs) ++ w.index.readers, r.Sound := by
    intro r hr
    rcases mem_append.mp hr with hr | hr
    · obtain rfl := mem_singleton.mp hr
      exact sound_ofDocuments ho.fits
    · exact h.sound r hr
  have hkept : ∀ id, (id ∈ live ∨ ∃ doc ∈ docs, doc.docId = id) → w.Kept id := by
    rintro id (hid | ⟨doc, hdoc, rfl⟩)
    · exact h.kept id hid
    · exact ho.kept doc hdoc
  obtain ⟨hsound', hspans⟩ := spans_step hinv hsound
  have hanchored : ∀ id, ((id ∈ live ∧ w.Anchored id) ∨ ∃ doc ∈ docs, doc.docId = id ∧ doc.main.Filed) →
      id ∈ live ∪ (docs.map docId).toFinset ∧ (w.step (.mergeIntoMemtable docs)).Anchored id := by
    intro id hid
    have hlive : id ∈ live ∨ ∃ doc ∈ docs, doc.docId = id :=
      hid.imp And.left fun ⟨doc, hdoc, heq, _⟩ => ⟨doc, hdoc, heq⟩
    refine ⟨(hmem id).mpr hlive, anchored_step hinv hsound (hkept id hlive) ?_⟩
    rcases hid with ⟨-, r, hr, hanchors⟩ | ⟨doc, hdoc, rfl, hfiled⟩
    · exact ⟨r, mem_append_right _ hr, hanchors⟩
    · refine ⟨_, mem_cons_self, ?_, (range_ofDocuments docs).2 doc hdoc⟩
      exact ((indexed_ofDocuments docs).files_iff doc.docId).mpr
        ⟨doc, hdoc, (doc.docId, doc.main), mem_cons_self, rfl, hfiled⟩
  refine ⟨hsound', fun d hd => ?_, fun d hd => ?_, fun d hd => ?_⟩
  · rw [hmem, show (w.step (.mergeIntoMemtable docs)).index.deleted = w.index.deleted from rfl]
    have hbefore := ho.spanned d (hd.mono fun id hid => ?_)
    · rcases hbefore with hlive | hdead | hnew
      · exact .inl (.inl hlive)
      · exact .inr hdead
      · exact .inl (.inr hnew)
    · obtain ⟨r, hr, hheld⟩ := hspans id hid
      rcases mem_append.mp hr with hr | hr
      · obtain rfl := mem_singleton.mp hr
        rcases hheld with hends | hranged
        · exact .inr (.inl ((range_ofDocuments docs).1 id hends))
        · exact .inr (.inr (((indexed_ofDocuments docs).ranged_iff id).mp hranged))
      · exact .inl ⟨r, hr, hheld⟩
  · rcases (hmem d).mp hd with hlive | ⟨doc, hdoc, rfl⟩
    · exact (h.anchored d hlive).mono fun id hid => hanchored id (.inl hid)
    · exact (ho.anchored doc hdoc).mono hanchored
  · exact kept_step hinv (hkept d ((hmem d).mp hd)) fun ok heq => by cases heq

theorem step (h : w.Tight live) (hinv : Inv w) (ho : w.Orderly live a) : (w.step a).Tight (liveAfter live a) := by
  cases a with
  | mergeIntoMemtable docs => exact h.merge hinv ho
  | deleteDocument d appendOk => exact h.delete hinv appendOk ho
  | _ => exact h.quiet hinv rfl (fun d ok heq => by cases heq) ho

theorem matchAll (h : w.Tight live) (d : DocId) :
    d ∈ live ↔ d ∈ QueryExecutor.idsBetween w.index.snapshot.docRange ∧ d ∉ w.index.deleted := by
  rw [mem_docRange]
  constructor
  · intro hd
    obtain ⟨⟨a, ⟨-, r, hr, -, lo, hi, hrange, hlo, -⟩, had⟩, b, ⟨-, r', hr', -, lo', hi', hrange', -, hhi⟩, hdb⟩ :=
      h.anchored d hd
    exact ⟨⟨⟨r, hr, lo, hi, hrange, hlo.trans had⟩, r', hr', lo', hi', hrange', hdb.trans hhi⟩, (h.kept d hd).1⟩
  · rintro ⟨⟨⟨r, hr, lo, hi, hrange, hlo⟩, r', hr', lo', hi', hrange', hhi⟩, hdead⟩
    refine (h.spanned d ?_).resolve_right hdead
    exact ⟨⟨lo, ⟨r, hr, held_of_range hrange |>.1⟩, hlo⟩, hi', ⟨r', hr', held_of_range hrange' |>.2⟩, hhi⟩

end Tight

theorem tight_empty (hreaders : w.index.readers = [.mem new]) : w.Tight ∅ where
  sound r hr := by
    rw [hreaders, mem_singleton] at hr
    exact hr ▸ Makes.new.sound (by simp)
  spanned d hd := by
    obtain ⟨⟨id, ⟨r, hr, hheld⟩, -⟩, -⟩ := hd
    rw [hreaders, mem_singleton] at hr
    obtain ⟨-, g, hg, -⟩ := Makes.new.held (by simp) (hr ▸ hheld)
    cases hg
  anchored d hd := absurd hd (Finset.notMem_empty d)
  kept d hd := absurd hd (Finset.notMem_empty d)

theorem Reached.tight (h : Reached w live) : Inv w ∧ w.Tight live := by
  induction h with
  | inMemory => exact ⟨Fresh.inMemory.inv, tight_empty rfl⟩
  | opened manifest deleted live hnodup htight => exact ⟨(Fresh.opened manifest deleted hnodup).inv, htight⟩
  | step a _ ho ih => exact ⟨inv_step ih.1 a, ih.2.step ih.1 ho⟩

theorem docRange_publishSnapshot (i : LsmIndex) (busy : ℕ → Bool) :
    (i.publishSnapshot busy).2.docRange = (i.sealMem busy).snapshot.docRange := by
  have hmem : (i.sealMem busy).mem.docIdRange = none := by
    rcases sealMem_cases (i := i) busy with ⟨-, hrange, h⟩ | ⟨-, h⟩
    · rw [h]
      exact hrange
    · rw [h]
      rfl
  rw [docRange, docRange]
  simp only [publishSnapshot, snapshot, buildSnapshot, hmem]
  rfl

/-- In every state that orderly actions reach, match-all gives exactly the live documents, over the
live index and over every snapshot that is published from it. -/
theorem matchAll_live (h : Reached w live) {F : Type} [LinearOrder F] (e : QueryExecutor F)
    (lookupPrefix lookupWildcard : String → XPathId → PostingList)
    (hindex : e.index = w.index.snapshot.searchIndex lookupPrefix lookupWildcard ∨
      ∃ busy, e.index = (w.index.publishSnapshot busy).2.searchIndex lookupPrefix lookupWildcard) :
    e.YieldsAll live := by
  obtain ⟨hinv, htight⟩ := h.tight
  rcases hindex with hindex | ⟨busy, hindex⟩
  · refine e.yieldsAll_of fun d => (htight.matchAll d).trans ?_
    rw [hindex, searchIndex]
    simp only [decide_eq_false_iff_not]
    exact Iff.rfl
  · -- publishing is a step of its own
    have hsealed : (w.step (.publishSnapshot busy)).Tight live :=
      htight.step hinv (a := .publishSnapshot busy) fun hc => by cases hc
    refine e.yieldsAll_of fun d => (hsealed.matchAll d).trans ?_
    rw [hindex, searchIndex, docRange_publishSnapshot]
    simp [step, publishSnapshot, buildSnapshot]

def wordDocument (id : DocId) : AnalyzedDocument := ⟨id, ⟨[⟨0, 1, [⟨"word", [0], 1⟩]⟩], [], []⟩, []⟩

def merged (docs : List AnalyzedDocument) : QueryExecutor ℕ :=
  .counting (((start [] ∅).step (.mergeIntoMemtable docs)).index.snapshot.searchIndex
    (fun _ _ => default) fun _ _ => default)

/-- Two documents one after the other. -/
theorem matchAll_live_pair : (merged [wordDocument 1, wordDocument 2]).YieldsAll {1, 2} := by
  have hstart : (start [] ∅).Tight ∅ := tight_empty rfl
  have horderly : (start [] ∅).OrderlyMerge ∅ [wordDocument 1, wordDocument 2] := by
    refine ⟨fun doc _ => ⟨Finset.notMem_empty _, fun job hjob => by cases hjob⟩, by decide,
      fun d hd => ?_, fun doc hdoc => ?_⟩
    · -- nothing but documents 1 and 2 is spanned
      have hids : Between (fun id => 1 ≤ id ∧ id ≤ 2) d := by
        refine hd.mono fun id hid => ?_
        rcases hid with hold | ⟨doc, hdoc, rfl⟩ | ⟨doc, hdoc, target, htarget, rfl, -⟩
        · rcases hstart.spanned id (of_self hold) with hid | hid <;> cases hid
        · rcases mem_pair.mp hdoc with rfl | rfl <;> decide
        · rcases mem_pair.mp hdoc with rfl | rfl <;>
            rw [mem_singleton.mp htarget] <;> decide
      obtain ⟨⟨a, ⟨ha, -⟩, had⟩, b, ⟨-, hb⟩, hdb⟩ := hids
      rcases Nat.lt_or_ge d 2 with hlt | hge
      · obtain rfl : d = 1 := Nat.le_antisymm (Nat.le_of_lt_succ hlt) (ha.trans had)
        exact .inr (.inr ⟨_, mem_cons_self, rfl⟩)
      · obtain rfl : d = 2 := Nat.le_antisymm (hdb.trans hb) hge
        exact .inr (.inr ⟨_, mem_cons_of_mem _ mem_cons_self, rfl⟩)
    · refine of_self (.inr ⟨doc, hdoc, rfl, .inl ?_⟩)
      rcases mem_pair.mp hdoc with rfl | rfl <;> exact ⟨_, mem_cons_self, _, mem_cons_self, by decide⟩
  have hreached : Reached ((start [] ∅).step (.mergeIntoMemtable [wordDocument 1, wordDocument 2])) {1, 2} :=
    .step _ (.opened [] ∅ ∅ nodup_nil hstart) horderly
  exact matchAll_live hreached _ _ _ (.inl rfl)

/-- Documents 1 and 3 are in the index, and no document 2 ever was. -/
theorem matchAll_gap : ¬(merged [wordDocument 1, wordDocument 3]).YieldsAll {1, 3} := by
  intro h
  obtain ⟨ids, hids, hall⟩ := h.1 [] .filter
  have hgap : (merged [wordDocument 1, wordDocument 3]).evaluate [] .filter .matchAll = some (.docs {1, 2, 3}) := by
    rfl
  rw [hgap] at hids
  obtain rfl := EvalOutcome.docs.inj (Option.some_inj.mp hids)
  exact absurd ((hall 2).mp (by decide)) (by decide)

end World
