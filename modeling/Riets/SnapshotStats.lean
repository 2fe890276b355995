/-
What a snapshot reports of its documents.

The statistics of a field are those of all parts, less the tombstoned documents.
In an index from which nothing was deleted they are the number and the sum of the
lengths its documents have in the field, and a word is looked up as each document
has it alone, however the documents are spread over the parts.
-/
import Riets.FieldLengths
import Riets.FlushProgress
import Riets.PatternSnapshot
import Mathlib.Algebra.BigOperators.Group.Finset.Basic

namespace IndexSnapshot

open Reader List

/-- The table in memory answers first, then the newest segment whose range has the id. -/
def docLen (s : IndexSnapshot) (d : DocId) (x : XPathId) : Option ℕ :=
  ((Reader.mem s.mem).docLen d x).or (s.segments.reverse.findSome? fun r =>
    match r.docIdRange with
    | some (lo, hi) => if d < lo ∨ hi < d then none else r.docLen d x
    | none => r.docLen d x)

/-- Deleted documents that still have a length are taken off. -/
def docCount (s : IndexSnapshot) (x : XPathId) : ℕ :=
  (s.readers.map fun r => (r.stats x).docCount).sum -
    (s.deleted.filter fun d => (s.docLen d x).isSome).card

/-- The lengths of the deleted documents are taken off. -/
def totalDocLen (s : IndexSnapshot) (x : XPathId) : ℕ :=
  (s.readers.map fun r => (r.stats x).totalDocLen).sum - ∑ d ∈ s.deleted, (s.docLen d x).getD 0

variable {s : IndexSnapshot} {x : XPathId}

theorem sum_stats {parts : List Reader} (h : ∀ r ∈ parts, r.Tallied x) :
    (parts.map fun r => (r.stats x).docCount).sum = (allLengths x parts).length ∧
      (parts.map fun r => (r.stats x).totalDocLen).sum = ((allLengths x parts).map Prod.snd).sum := by
  have hcount : ∀ r ∈ parts, (r.stats x).docCount = (lengthsAt r.lengths x).length :=
    fun r hr => congrArg FieldStats.docCount (h r hr)
  have htotal : ∀ r ∈ parts, (r.stats x).totalDocLen = ((lengthsAt r.lengths x).map Prod.snd).sum :=
    fun r hr => congrArg FieldStats.totalDocLen (h r hr)
  rw [map_congr_left hcount, map_congr_left htotal, allLengths, length_flatMap]
  refine ⟨rfl, ?_⟩
  rw [map_flatMap, flatMap_def, sum_flatten, map_map]
  rfl

theorem stats_of_counted (h : Counted x s.readers) (hlive : s.deleted = ∅) :
    s.docCount x = (allLengths x s.readers).length ∧
      s.totalDocLen x = ((allLengths x s.readers).map Prod.snd).sum := by
  rw [docCount, totalDocLen, hlive, Finset.filter_empty, Finset.card_empty, Finset.sum_empty]
  exact sum_stats h.tallied

end IndexSnapshot

/-! ### Postings of targets -/

def AnalyzedTarget.posting (t : AnalyzedTarget) (d : DocId) (k : TermKey) : Option Posting :=
  (MemIndex.new.applyTarget d t).posting k d

theorem AnalyzedTarget.touches_of_posting {t : AnalyzedTarget} {d : DocId} {k : TermKey}
    (h : t.posting d k ≠ none) : t.Touches k.xpath := by
  by_contra hnot
  exact h ((MemIndex.SameAt.applyTarget (.inr hnot) MemIndex.new).posting k.term)

namespace MemIndex

open List

variable {targets : List (DocId × AnalyzedTarget)} {k : TermKey} {d : DocId}

theorem sameAt_applyTargets {x : XPathId} (h : ∀ t ∈ targets, t.1 = d → ¬t.2.Touches x) (m : MemIndex) :
    SameAt x d m (m.applyTargets targets) := by
  refine SameAt.foldl (fun t ht m => SameAt.applyTarget ?_ m) m
  by_cases hd : d = t.1
  · exact .inr (h t ht hd.symm)
  · exact .inl hd

theorem posting_applyTargets (h : Separate targets) {t : DocId × AnalyzedTarget} (ht : t ∈ targets)
    (htouch : t.2.Touches k.xpath) : (new.applyTargets targets).posting k t.1 = t.2.posting t.1 k := by
  obtain ⟨before, after, rfl⟩ := append_of_mem ht
  obtain ⟨-, hafter, hbefore⟩ := pairwise_append.mp h
  obtain ⟨hafter, -⟩ := pairwise_cons.mp hafter
  have hpre : (new.applyTargets before).posting k t.1 = none :=
    (sameAt_applyTargets (fun t' ht' hid htouch' =>
      hbefore t' ht' t mem_cons_self hid k.xpath htouch' htouch) new).posting k.term
  have hpost := (sameAt_applyTargets (d := t.1) (x := k.xpath)
    (fun t' ht' hid htouch' => hafter t' ht' hid.symm k.xpath htouch htouch')
    ((new.applyTargets before).applyTarget t.1 t.2)).posting k.term
  rw [applyTargets, foldl_append, foldl_cons]
  exact hpost.trans (local_applyTarget t.1 t.2 k t.1 _ new hpre)

theorem posting_targets {docs : List AnalyzedDocument} (h : Separate (docs.flatMap AnalyzedDocument.targets))
    {t : DocId × AnalyzedTarget} (ht : t ∈ docs.flatMap AnalyzedDocument.targets)
    (htouch : t.2.Touches k.xpath) : (ofDocuments docs).posting k t.1 = t.2.posting t.1 k := by
  rw [posting, (sameText_ofDocuments docs).terms]
  exact posting_applyTargets h ht htouch

theorem posting_no_target {docs : List AnalyzedDocument}
    (h : ∀ t ∈ docs.flatMap AnalyzedDocument.targets, t.1 = d → ¬t.2.Touches k.xpath) :
    (ofDocuments docs).posting k d = none := by
  rw [posting, (sameText_ofDocuments docs).terms]
  exact (sameAt_applyTargets h new).posting k.term

end MemIndex

namespace World

open List MemIndex Reader IndexSnapshot PostingList

variable {as : List IndexAction} {k : TermKey} {d : DocId}

/-- All targets of the documents of a run. -/
def targetsOf (as : List IndexAction) : List (DocId × AnalyzedTarget) :=
  (as.flatMap IndexAction.documents).flatMap AnalyzedDocument.targets

theorem targetsOf_append (as : List IndexAction) (a : IndexAction) :
    targetsOf (as ++ [a]) = targetsOf as ++ a.documents.flatMap AnalyzedDocument.targets := by
  rw [targetsOf, flatMap_append, flatMap_singleton, flatMap_append]
  rfl

theorem kept_all (hdel : ∀ d ok, .deleteDocument d ok ∉ as) (d : DocId) : ((start [] ∅).run as).Kept d :=
  kept_run (Fresh.opened [] ∅ nodup_nil) (Finset.notMem_empty d) (hdel d)

theorem posting_added_none {a : IndexAction}
    (h : ∀ t ∈ a.documents.flatMap AnalyzedDocument.targets, t.1 = d → ¬t.2.Touches k.xpath) :
    ∀ r ∈ IndexAction.added a, r.posting k d = none := by
  cases a with
  | mergeIntoMemtable docs =>
    intro r hr
    obtain rfl := mem_singleton.mp hr
    exact posting_no_target h
  | _ => simp [IndexAction.added]

theorem posting_run_none (h : ∀ t ∈ targetsOf as, t.1 = d → ¬t.2.Touches k.xpath) :
    ∀ r ∈ ((start [] ∅).run as).index.readers, r.posting k d = none := by
  induction as using reverseRecOn with
  | nil =>
    intro r hr
    obtain rfl : r = .mem new := mem_singleton.mp hr
    rfl
  | append_singleton as a ih =>
    rw [targetsOf_append] at h
    rw [run_append]
    refine absent_step (inv_run (Fresh.opened [] ∅ nodup_nil).inv as) fun r hr => ?_
    rcases mem_append.mp hr with hr | hr
    · exact posting_added_none (fun t ht => h t (mem_append_right _ ht)) r hr
    · exact ih (fun t ht => h t (mem_append_left _ ht)) r hr

theorem posting_run (hdel : ∀ d ok, .deleteDocument d ok ∉ as) (hsep : Separate (targetsOf as))
    {t : DocId × AnalyzedTarget} (ht : t ∈ targetsOf as) (htouch : t.2.Touches k.xpath) :
    CarriedOnce (fun r => r.posting k t.1 = t.2.posting t.1 k) (fun r => r.posting k t.1 = none)
      ((start [] ∅).run as).index.readers := by
  induction as using reverseRecOn with
  | nil => cases ht
  | append_singleton as a ih =>
    have hdel' : ∀ d ok, .deleteDocument d ok ∉ as := fun d ok hmem => hdel d ok (mem_append_left _ hmem)
    rw [targetsOf_append] at hsep ht
    obtain ⟨hbefore, hadded, hcross⟩ := pairwise_append.mp hsep
    rw [run_append]
    refine carriedOnce_step (inv_run (Fresh.opened [] ∅ nodup_nil).inv as) (kept_all hdel' t.1) ?_
    rcases mem_append.mp ht with ht | ht
    · -- the target was there before; the new table has nothing under its id
      obtain ⟨r, rest, hperm, hfull, habsent⟩ := ih hdel' hbefore ht
      refine ⟨r, IndexAction.added a ++ rest, (hperm.append_left _).trans perm_middle, hfull, fun b hb => ?_⟩
      rcases mem_append.mp hb with hb | hb
      · refine posting_added_none (fun t' ht' hid htouch' => ?_) b hb
        exact hcross t ht t' ht' hid.symm k.xpath htouch htouch'
      · exact habsent b hb
    · -- the new table is the only part that has it
      have habsent := posting_run_none (k := k) (d := t.1) fun t' ht' hid htouch' =>
        hcross t' ht' t ht hid k.xpath htouch' htouch
      cases a with
      | mergeIntoMemtable docs =>
        exact ⟨_, _, Perm.refl _, posting_targets hadded ht htouch, habsent⟩
      | _ => cases ht

theorem mem_lengths_run (as : List IndexAction) :
    let index := ((start [] ∅).run as).index
    index.hasRoot = true ∧ (index.mem.docIdRange = none → ∀ key, index.mem.docLengths.get? key = none) := by
  induction as using reverseRecOn with
  | nil => exact ⟨rfl, fun _ _ => rfl⟩
  | append_singleton as a ih =>
    obtain ⟨hroot, hnone⟩ := ih
    rw [run_append]
    have hinv := inv_run (Fresh.opened [] ∅ nodup_nil).inv as
    obtain ⟨hroot', -, hsame | hnew | ⟨docs, rfl⟩⟩ := tables_step hinv hroot a
    all_goals refine ⟨hroot', ?_⟩
    · exact hsame ▸ hnone
    · intro _ key
      change (((start [] ∅).run as).step a).index.mem.docLengths.get? key = none
      rw [hnew]
      rfl
    · intro hrange key
      have hneither : ¬(((start [] ∅).run as).index.mem.Tracked ∨ (ofDocuments docs).Tracked) :=
        fun htracked => tracked_mergeFrom htracked hrange
      rw [not_or] at hneither
      have hdocs : docs = [] := by
        by_contra hne
        exact hneither.2 (tracked_ofDocuments hne)
      by_contra hne
      rcases docLengths_mergeFrom hne with hmem | htable
      · exact hmem (hnone (not_not.mp hneither.1) key)
      · rw [hdocs] at htable
        exact htable rfl

theorem mem_sealed (as : List IndexAction) (busy : ℕ → Bool) :
    (∀ k d, (((start [] ∅).run as).index.sealMem busy).mem.posting k d = none) ∧
      ∀ key, (((start [] ∅).run as).index.sealMem busy).mem.docLengths.get? key = none := by
  refine ⟨fun k d => posting_mem_sealMem _ busy k d, fun key => ?_⟩
  rcases LsmIndex.sealMem_cases (i := ((start [] ∅).run as).index) busy with ⟨-, hrange, h⟩ | ⟨-, h⟩
  · rw [h]
    exact (mem_lengths_run as).2 hrange key
  · rw [h]
    rfl

theorem readers_shown {s : IndexSnapshot} (hs : ((start [] ∅).run as).Shows s) :
    ∃ as' m, targetsOf as' = targetsOf as ∧ (∀ d ok, .deleteDocument d ok ∈ as' → .deleteDocument d ok ∈ as) ∧
      ((start [] ∅).run as').index.readers = .mem m :: s.segments ∧
      s.deleted = ((start [] ∅).run as').index.deleted ∧
      (s.mem = m ∨ s.mem = MemIndex.new ∧ (∀ k d, m.posting k d = none) ∧ ∀ key, m.docLengths.get? key = none) := by
  rcases hs with rfl | ⟨busy, rfl⟩
  · exact ⟨as, _, rfl, fun _ _ h => h, rfl, rfl, .inl rfl⟩
  · refine ⟨as ++ [.publishSnapshot busy], (((start [] ∅).run as).index.sealMem busy).mem, ?_, ?_, ?_, ?_, ?_⟩
    · rw [targetsOf_append]
      exact append_nil _
    · intro d ok hmem
      simpa using hmem
    · rw [run_append]
      rfl
    · rw [run_append]
      rfl
    · exact .inr ⟨rfl, mem_sealed as busy⟩

theorem counted_new {m : MemIndex} {parts : List Reader} {x : XPathId} (hm : ∀ key, m.docLengths.get? key = none)
    (h : Counted x (.mem m :: parts)) : Counted x (.mem new :: parts) ∧
      allLengths x (.mem new :: parts) = allLengths x (.mem m :: parts) := by
  have hempty : lengthsAt m.docLengths x = [] := by
    refine eq_nil_iff_forall_not_mem.mpr fun e he => ?_
    obtain ⟨d, -, hlen⟩ := mem_lengthsAt.mp he
    exact absurd ((hm (toLex (d, x))).symm.trans hlen) (by simp)
  refine ⟨⟨?_, fun r hr => ?_, fun r hr => ?_⟩, ?_⟩
  · exact pairwise_cons.mpr ⟨fun _ _ _ => .inl rfl, (pairwise_cons.mp h.apart).2⟩
  · rcases mem_cons.mp hr with rfl | hr
    · exact fun d x hlen => by cases hlen
    · exact h.fits r (mem_cons_of_mem _ hr)
  · rcases mem_cons.mp hr with rfl | hr
    · rfl
    · exact h.tallied r (mem_cons_of_mem _ hr)
  · rw [allLengths, allLengths, flatMap_cons, flatMap_cons, lengths, lengths, hempty]
    rfl

theorem stats_shown (hdel : ∀ d ok, .deleteDocument d ok ∉ as) (hsep : Separate (targetsOf as))
    (hfits : ∀ t ∈ targetsOf as, ∀ field ∈ t.2.fields, field.docLen ≠ u32Max) {s : IndexSnapshot}
    (hs : ((start [] ∅).run as).Shows s) (x : XPathId) :
    s.docCount x = (targetLengths x (targetsOf as)).length ∧
      s.totalDocLen x = ((targetLengths x (targetsOf as)).map Prod.snd).sum := by
  obtain ⟨as', m, htargets, hdel', hreaders, hdeleted, hmem⟩ := readers_shown hs
  have hdelete : ∀ d ok, .deleteDocument d ok ∉ as' := fun d ok h => hdel d ok (hdel' d ok h)
  rw [← htargets] at hsep hfits ⊢
  obtain ⟨hcounted, hperm⟩ := counted_run (x := x) (Fresh.opened [] ∅ nodup_nil) rfl rfl hdelete hsep
    fun doc hdoc target htarget => hfits target (mem_flatMap.mpr ⟨doc, hdoc, htarget⟩)
  have hlive : s.deleted = ∅ := by
    rw [hdeleted]
    exact Finset.eq_empty_of_forall_notMem fun d => (kept_all hdelete d).1
  rw [hreaders] at hcounted hperm
  have hshown : Counted x s.readers ∧ (allLengths x s.readers).Perm (targetLengths x (targetsOf as')) := by
    rcases hmem with rfl | ⟨hnew, -, hlengths⟩
    · exact ⟨hcounted, hperm⟩
    · obtain ⟨hcounted', heq⟩ := counted_new hlengths hcounted
      rw [readers, hnew, heq]
      exact ⟨hcounted', hperm⟩
  obtain ⟨hcount, htotal⟩ := stats_of_counted hshown.1 hlive
  exact ⟨hcount.trans hshown.2.length_eq, htotal.trans (hshown.2.map Prod.snd).sum_eq⟩

theorem lookup_shown (hdel : ∀ d ok, .deleteDocument d ok ∉ as) (hsep : Separate (targetsOf as))
    {s : IndexSnapshot} (hs : ((start [] ∅).run as).Shows s) (term : String) (x : XPathId) :
    (∀ t ∈ targetsOf as, t.2.Touches x → (s.lookup term x).find t.1 = t.2.posting t.1 ⟨x, term⟩) ∧
      ∀ d, (∀ t ∈ targetsOf as, t.1 = d → ¬t.2.Touches x) → (s.lookup term x).find d = none := by
  obtain ⟨as', m, htargets, hdel', hreaders, hdeleted, hmem⟩ := readers_shown hs
  have hdelete : ∀ d ok, .deleteDocument d ok ∉ as' := fun d ok h => hdel d ok (hdel' d ok h)
  rw [← htargets] at hsep ⊢
  have hfind : ∀ d, (s.lookup term x).find d = joinAll
      (((start [] ∅).run as').index.readers.map fun r => r.posting ⟨x, term⟩ d) := by
    intro d
    rw [s.find_lookup, if_neg (by rw [hdeleted]; exact (kept_all hdelete d).1), hreaders, readers]
    rcases hmem with rfl | ⟨hnew, hposting, -⟩
    · rfl
    · have hsame : (mem new).posting ⟨x, term⟩ d = (mem m).posting ⟨x, term⟩ d :=
        (hposting ⟨x, term⟩ d).symm
      rw [map_cons, map_cons, hnew, hsame]
  refine ⟨fun t ht htouch => ?_, fun d hnone => ?_⟩
  · rw [hfind]
    exact joinAll_of_carriedOnce (posting_run (k := ⟨x, term⟩) hdelete hsep ht htouch)
  · rw [hfind]
    by_contra hne
    obtain ⟨o, ho, hone⟩ := joinAll_ne_none.mp hne
    obtain ⟨r, hr, rfl⟩ := mem_map.mp ho
    exact hone (posting_run_none (k := ⟨x, term⟩) hnone r hr)

end World
