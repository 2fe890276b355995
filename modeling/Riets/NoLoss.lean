/-
No document is lost on its way through tables and segments.

A document enters the active table once.  At every moment one part carries all
its postings and no other part has any.
-/
import Riets.LsmInvariant

open IndexAction

theorem joinAll_of_carriedOnce {f : Reader → Option Posting} {p : Option Posting}
    {l : List Reader} (h : CarriedOnce (fun r => f r = p) (fun r => f r = none) l) :
    PostingList.joinAll (l.map f) = p := by
  obtain ⟨a, rest, hperm, hfull, habsent⟩ := h
  have hnone : rest.filterMap f = [] := List.filterMap_eq_nil_iff.mpr habsent
  have hfilter : (l.filterMap f).Perm p.toList := by
    refine (hperm.filterMap f).trans ?_
    rw [List.filterMap_cons, hfull, hnone]
    cases p <;> exact List.Perm.refl _
  rw [PostingList.joinAll_map]
  cases p with
  | none => rw [List.perm_nil.mp hfilter]; rfl
  | some p => rw [List.perm_singleton.mp hfilter]; rfl

namespace World

open List MemIndex LsmIndex PostingList

/-- One part has the postings of the document under key `k`, the others none. -/
def Carried (doc : AnalyzedDocument) (k : TermKey) (readers : List Reader) : Prop :=
  CarriedOnce (fun r => r.posting k doc.docId = ownPosting doc k)
    (fun r => r.posting k doc.docId = none) readers

/-- Neither a tombstone nor a job under way removes `d`. -/
def Kept (w : World) (d : DocId) : Prop :=
  d ∉ w.index.deleted ∧ ∀ job ∈ w.jobs, d ∉ job.deleted

variable {w : World} {a : IndexAction} {d : DocId} {doc : AnalyzedDocument} {k : TermKey}

theorem jobs_step (w : World) (a : IndexAction) :
    ∀ job ∈ (w.step a).jobs, job ∈ w.jobs ∨ job.deleted = w.index.deleted := by
  intro job hjob
  cases a with
  | completeFlush seq writeOk appendOk =>
    simp only [step, completeFlush] at hjob
    split at hjob
    · exact .inl hjob
    · exact .inl hjob
  | planCompaction config quiet fileSize =>
    simp only [step, planCompaction, jobs] at hjob
    rcases planCompaction_cases (i := w.index) config quiet fileSize with
      hw | ⟨_, _, -, -, hw⟩
    · rw [hw] at hjob
      exact .inl (by simpa [jobs] using hjob)
    · rw [hw] at hjob
      simp only [Option.toList_some, mem_append, mem_singleton] at hjob
      rcases hjob with (hjob | rfl) | hjob
      · exact .inl (mem_append_left _ hjob)
      · exact .inr rfl
      · exact .inl (mem_append_right _ hjob)
  | runCompaction jobId ok =>
    simp only [step] at hjob
    rcases w.runCompaction_cases jobId ok with hw | hw | ⟨job', hjob', _, -, -, hw⟩
    · exact .inl (hw ▸ hjob)
    · rw [hw] at hjob
      exact .inl ((filter_sublist.append (Sublist.refl _)).subset hjob)
    · rw [hw] at hjob
      simp only [jobs, mem_append, mem_filter, mem_singleton] at hjob
      rcases hjob with hjob | hjob | rfl
      · exact .inl (mem_append_left _ hjob.1)
      · exact .inl (mem_append_right _ hjob)
      · exact .inl (mem_append_left _ hjob')
  | installCompaction jobId openOk manifestOk clearOk =>
    simp only [step] at hjob
    rcases w.installCompaction_cases jobId openOk manifestOk clearOk with
      hw | ⟨_, -, -, ⟨_, -, hw⟩ | ⟨_, _, _, -, -, -, -, -, hw⟩⟩
    · exact .inl (hw ▸ hjob)
    · rw [hw] at hjob
      exact .inl (((Sublist.refl _).append filter_sublist).subset hjob)
    · rw [hw] at hjob
      exact .inl (((Sublist.refl _).append filter_sublist).subset hjob)
  | _ => exact .inl hjob

theorem kept_step (h : Inv w) (hkept : w.Kept d) (hdel : ∀ ok, a ≠ .deleteDocument d ok) :
    (w.step a).Kept d := by
  refine ⟨?_, fun job hjob => ?_⟩
  · by_cases hc : Clears w a
    · rw [(clears_spec h hc).1]
      exact Finset.notMem_empty d
    · by_cases hother : ∃ d' ok, a = .deleteDocument d' ok
      · obtain ⟨d', ok, rfl⟩ := hother
        have hne : d ≠ d' := fun heq => hdel ok (heq ▸ rfl)
        exact fun hmem => hkept.1 (Finset.mem_of_mem_insert_of_ne hmem hne)
      · rw [step_deleted h (fun d' ok heq => hother ⟨d', ok, heq⟩) hc]
        exact hkept.1
  · rcases jobs_step w a job hjob with hold | heq
    · exact hkept.2 job hold
    · exact heq ▸ hkept.1

theorem carriedOnce_step (h : Inv w) (hkept : w.Kept d) {p : Option Posting}
    (hcarried : CarriedOnce (fun r => r.posting k d = p) (fun r => r.posting k d = none)
      (IndexAction.added a ++ w.index.readers)) :
    CarriedOnce (fun r => r.posting k d = p) (fun r => r.posting k d = none) (w.step a).index.readers := by
  obtain ⟨deleted, hdeleted, hregroup⟩ := step_regroup h a
  have hd : d ∉ deleted := by
    rcases hdeleted with rfl | ⟨job, hjob, -, rfl⟩
    · exact Finset.notMem_empty _
    · exact hkept.2 job (mem_append_right _ hjob)
  refine hregroup.unique (fun r group b rest hg hperm hfull habsent => ?_)
    (fun r group hg habsent => ?_) hcarried
  · rw [hg.posting, if_neg hd]
    exact joinAll_of_carriedOnce ⟨b, rest, hperm, hfull, habsent⟩
  · rw [hg.posting, if_neg hd]
    by_contra hne
    obtain ⟨o, ho, hone⟩ := joinAll_ne_none.mp hne
    obtain ⟨b, hb, rfl⟩ := mem_map.mp ho
    exact hone (habsent b hb)

theorem carried_step (h : Inv w) (hkept : w.Kept doc.docId)
    (hcarried : Carried doc k (IndexAction.added a ++ w.index.readers)) :
    Carried doc k (w.step a).index.readers :=
  carriedOnce_step h hkept hcarried

theorem absent_step (h : Inv w) (habsent : ∀ r ∈ IndexAction.added a ++ w.index.readers,
    r.posting k d = none) : ∀ r ∈ (w.step a).index.readers, r.posting k d = none := by
  obtain ⟨deleted, -, hregroup⟩ := step_regroup h a
  have hnone := hregroup.none_of_none (P := fun r => r.posting k d ≠ none)
    (fun r group hg hnone => ?_) fun r hr => not_not.mpr (habsent r hr)
  · exact fun r hr => not_not.mp (hnone r hr)
  · rw [hg.posting]
    split_ifs
    · exact not_not.mpr rfl
    · rw [joinAll_ne_none]
      rintro ⟨o, ho, hne⟩
      obtain ⟨b, hb, rfl⟩ := mem_map.mp ho
      exact hnone b hb hne

theorem posting_added (hids : a.documents.Pairwise fun x y => x.docId ≠ y.docId)
    (hkey : ∀ doc ∈ a.documents, ¬ doc.RowKeyed k.xpath) :
    ∀ r ∈ IndexAction.added a, r.posting k d
      = (a.documents.find? fun doc => doc.docId = d).bind fun doc => ownPosting doc k := by
  cases a with
  | mergeIntoMemtable docs =>
    intro r hr
    obtain rfl := mem_singleton.mp hr
    exact posting_foldl_addAnalyzedDocument hkey hids d
  | _ => simp [IndexAction.added]

theorem find_document {docs : List AnalyzedDocument} (hids : docs.Pairwise fun x y => x.docId ≠ y.docId)
    (hdoc : doc ∈ docs) : docs.find? (fun x => x.docId = doc.docId) = some doc := by
  induction docs with
  | nil => cases hdoc
  | cons x docs ih =>
    obtain ⟨hx, hrest⟩ := pairwise_cons.mp hids
    rcases mem_cons.mp hdoc with rfl | hdoc
    · simp
    · rw [find?_cons_of_neg (by simpa using hx doc hdoc)]
      exact ih hrest hdoc

section Run

variable {as : List IndexAction} (hw : Fresh w)
  (hids : (as.flatMap documents).Pairwise fun x y => x.docId ≠ y.docId)
  (hkey : ∀ x ∈ as.flatMap documents, ¬ x.RowKeyed k.xpath)
  (hnew : ∀ r ∈ w.index.readers, ∀ x, ¬ r.Holds x d) (hlive : d ∉ w.index.deleted)
  (hdel : ∀ ok, .deleteDocument d ok ∉ as)

include hw hlive hdel in
theorem kept_run : (w.run as).Kept d := by
  induction as using reverseRecOn with
  | nil =>
    refine ⟨hlive, fun job hjob => ?_⟩
    cases hw with
    | inMemory => cases hjob
    | opened manifest deleted hnodup => cases hjob
  | append_singleton as a ih =>
    rw [run_append]
    refine kept_step (inv_run hw.inv as) (ih fun ok hmem => hdel ok (by simp [hmem])) fun ok heq => ?_
    exact hdel ok (by simp [heq])

include hw hids hkey hnew in
theorem absent_run (hnone : ∀ x ∈ as.flatMap documents, x.docId ≠ d) :
    ∀ r ∈ (w.run as).index.readers, r.posting k d = none := by
  induction as using reverseRecOn with
  | nil =>
    intro r hr
    by_contra hne
    exact hnew r hr k.xpath (Reader.holds_iff.mpr (.inl ⟨k.term, hne⟩))
  | append_singleton as a ih =>
    simp only [flatMap_append, flatMap_singleton, mem_append, or_imp, forall_and] at hids hkey hnone
    obtain ⟨hids, hids', -⟩ := pairwise_append.mp hids
    rw [run_append]
    refine absent_step (inv_run hw.inv as) fun r hr => ?_
    rcases mem_append.mp hr with hr | hr
    · rw [posting_added hids' hkey.2 r hr, find?_eq_none.mpr]
      · rfl
      · exact fun x hx => by simpa using hnone.2 x hx
    · exact ih hids hkey.1 hnone.1 r hr

end Run

theorem carried_run {as : List IndexAction} (hw : Fresh w)
    (hids : (as.flatMap documents).Pairwise fun x y => x.docId ≠ y.docId)
    (hkey : ∀ x ∈ as.flatMap documents, ¬ x.RowKeyed k.xpath)
    (hnew : ∀ r ∈ w.index.readers, ∀ x, ¬ r.Holds x doc.docId) (hlive : doc.docId ∉ w.index.deleted)
    (hdel : ∀ ok, .deleteDocument doc.docId ok ∉ as)
    (hdoc : doc ∈ as.flatMap documents) : Carried doc k (w.run as).index.readers := by
  induction as using reverseRecOn with
  | nil => cases hdoc
  | append_singleton as a ih =>
    have hdel' : ∀ ok, .deleteDocument doc.docId ok ∉ as := fun ok hmem => hdel ok (by simp [hmem])
    have hkept : (w.run as).Kept doc.docId := kept_run hw hlive hdel'
    simp only [flatMap_append, flatMap_singleton, mem_append, or_imp, forall_and] at hids hkey hdoc
    obtain ⟨hids1, hids2, hdisj⟩ := pairwise_append.mp hids
    rw [run_append]
    refine carried_step (inv_run hw.inv as) hkept ?_
    rcases hdoc with hdoc | hdoc
    · -- the document was there before; the new table has nothing of it
      obtain ⟨r, rest, hperm, hfull, habsent⟩ := ih hids1 hkey.1 hdel' hdoc
      refine ⟨r, IndexAction.added a ++ rest, ?_, hfull, fun b hb => ?_⟩
      · exact (hperm.append_left _).trans perm_middle
      · rcases mem_append.mp hb with hb | hb
        · rw [posting_added hids2 hkey.2 b hb, find?_eq_none.mpr]
          · rfl
          · exact fun x hx => by simpa using (hdisj doc hdoc x hx).symm
        · exact habsent b hb
    · -- the new table is the only part that has it
      have habsent := absent_run hw hids1 hkey.1 hnew fun x hx => hdisj x hx doc hdoc
      cases a with
      | mergeIntoMemtable docs =>
        have hfull := posting_added (d := doc.docId) hids2 hkey.2 _ (mem_singleton_self _)
        rw [find_document hids2 hdoc] at hfull
        exact ⟨_, _, Perm.refl _, hfull, habsent⟩
      | _ => cases hdoc

theorem lookup_of_carried {i : LsmIndex} (hd : doc.docId ∉ i.deleted)
    (hcarried : Carried doc k i.readers) :
    (i.snapshot.lookup k.term k.xpath).find doc.docId = ownPosting doc k := by
  have hfind := i.snapshot.find_lookup k.term k.xpath doc.docId
  rw [if_neg (show doc.docId ∉ i.snapshot.deleted from hd)] at hfind
  exact hfind.trans (joinAll_of_carriedOnce hcarried)

theorem posting_mem_sealMem (i : LsmIndex) (busy : ℕ → Bool) (k : TermKey) (d : DocId) :
    (i.sealMem busy).mem.posting k d = none := by
  rcases sealMem_cases (i := i) busy with ⟨hterms, -, h⟩ | ⟨-, h⟩
  · rw [h, posting, SortedMap.get?, eq_nil_of_length_eq_zero hterms]
    rfl
  · rw [h]
    rfl

theorem lookup_publishSnapshot (i : LsmIndex) (busy : ℕ → Bool) (k : TermKey) (d : DocId) :
    ((i.publishSnapshot busy).2.lookup k.term k.xpath).find d
      = ((i.sealMem busy).snapshot.lookup k.term k.xpath).find d := by
  have hmem : (Reader.mem (i.sealMem busy).mem).posting k d = (Reader.mem new).posting k d :=
    posting_mem_sealMem i busy k d
  rw [IndexSnapshot.find_lookup, IndexSnapshot.find_lookup]
  simp only [IndexSnapshot.readers, LsmIndex.publishSnapshot, snapshot,
    buildSnapshot, map_cons, hmem]

/-- Every snapshot built after a document was added returns, under every key of a
field filed under document ids, the posting that indexing the document alone
gives, and both segment lists name the same segments. -/
theorem posting_kept (hw : Fresh w) (as : List IndexAction)
    (hids : (as.flatMap documents).Pairwise fun x y => x.docId ≠ y.docId)
    (hdoc : doc ∈ as.flatMap documents) (hdel : ∀ ok, .deleteDocument doc.docId ok ∉ as)
    (hnew : ∀ r ∈ w.index.readers, ∀ x, ¬ r.Holds x doc.docId) (hlive : doc.docId ∉ w.index.deleted)
    (hkey : ∀ x ∈ as.flatMap documents, ¬ x.RowKeyed k.xpath) :
    ((w.run as).index.snapshot.lookup k.term k.xpath).find doc.docId = ownPosting doc k ∧
      (∀ busy, (((w.run as).index.publishSnapshot busy).2.lookup k.term k.xpath).find doc.docId
        = ownPosting doc k) ∧
      (w.run as).index.segmentHandles.length = (w.run as).index.querySegments.length ∧
      (w.run as).index.segmentHandles.map (openHandle (w.run as).files)
        = (w.run as).index.querySegments.map some := by
  have hinv := inv_run hw.inv as
  have hkept : (w.run as).Kept doc.docId := kept_run hw hlive hdel
  have hcarried : Carried doc k (w.run as).index.readers :=
    carried_run hw hids hkey hnew hlive hdel hdoc
  refine ⟨?_, fun busy => ?_, by simpa using congrArg length hinv.files.sync, hinv.files.sync⟩
  · exact lookup_of_carried hkept.1 hcarried
  · rw [lookup_publishSnapshot]
    exact lookup_of_carried (by rw [sealMem_deleted]; exact hkept.1)
      (carried_step (a := .publishSnapshot busy) hinv hkept hcarried)

def failedFlush : List IndexAction :=
  [.mergeIntoMemtable [⟨1, ⟨[⟨0, 2, [⟨"word", [0, 1], 1⟩]⟩], [], []⟩, []⟩],
    .queueFlush (fun _ => false) true, .takeFlushJobs, .completeFlush 0 false true,
    .mergeIntoMemtable [⟨2, ⟨[⟨0, 1, [⟨"word", [0], 1⟩]⟩], [], []⟩, []⟩]]

theorem failedFlush_kept :
    (((start [] ∅).run failedFlush).index.snapshot.lookup "word" 0).find 1
      = some ⟨1, [0, 1], 1⟩ := by
  have hdoc : (⟨1, ⟨[⟨0, 2, [⟨"word", [0, 1], 1⟩]⟩], [], []⟩, []⟩ : AnalyzedDocument) ∈
      failedFlush.flatMap documents := by decide
  have hkept := posting_kept (k := ⟨0, "word"⟩) (Fresh.opened [] ∅ nodup_nil) failedFlush
    (by decide) hdoc (by simp [failedFlush])
    (fun r hr x => by
      obtain rfl : r = .mem new := mem_singleton.mp hr
      exact not_holds_new x 1)
    (Finset.notMem_empty 1)
    (by simp [failedFlush, documents, AnalyzedDocument.RowKeyed])
  exact hkept.1.trans (by decide)

end World
