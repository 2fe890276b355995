/-
Deleted documents and the clearing of tombstones.

An install drops every tombstone when it merged all live segments and no delete
arrived since the job was planned.  The merge looked at segments only; the
active table, the generations and the pending flushes may still hold a deleted
document, and nothing hides it any more.
-/
import Riets.LsmInvariant

open IndexAction

namespace LsmIndex

open List IndexSnapshot

/-- A table that is not in a segment yet holds id `d` on field `x`. -/
def Unflushed (i : LsmIndex) (x : XPathId) (d : DocId) : Prop :=
  i.mem.Holds x d ∨ (∃ g ∈ i.generations, g.Holds x d) ∨
    ∃ p ∈ i.flushQueue.pending, ∃ g ∈ p.generations, g.Holds x d

/-- No snapshot of this state returns `d` from a lookup on field `x`. -/
def Hidden (i : LsmIndex) (x : XPathId) (d : DocId) : Prop :=
  ¬ i.snapshot.Returns x d ∧ ∀ busy, ¬ (i.publishSnapshot busy).2.Returns x d

theorem exists_readers {P : Reader → Prop} {i : LsmIndex} :
    (∃ r ∈ i.readers, P r) ↔ P (.mem i.mem) ∨ (∃ g ∈ i.generations, P (.mem g)) ∨
      (∃ p ∈ i.flushQueue.pending, ∃ g ∈ p.generations, P (.mem g)) ∨
        ∃ s ∈ i.querySegments, P (.seg s) := by
  simp only [readers, parts, mem_cons, mem_append, mem_map, mem_flatMap,
    exists_eq_left, or_and_right, exists_or, exists_exists_and_eq_and, or_assoc]
  refine or_congr_right (or_congr_right (or_congr_left ?_))
  constructor
  · rintro ⟨_, ⟨p, hp, g, hg, rfl⟩, h⟩
    exact ⟨p, hp, g, hg, h⟩
  · rintro ⟨p, hp, g, hg, h⟩
    exact ⟨_, ⟨p, hp, g, hg, rfl⟩, h⟩

theorem not_holds_of_gathers {deleted : DeleteSet} {x : XPathId} {d : DocId} (r : Reader)
    (group : List Reader) (h : Reader.Gathers deleted r group) (hg : ∀ g ∈ group, ¬ g.Holds x d) :
    ¬ r.Holds x d := by
  rw [h.holds]
  rintro ⟨-, g, hmem, hh⟩
  exact hg g hmem hh

theorem hidden_iff {i : LsmIndex} {x : XPathId} {d : DocId} :
    i.Hidden x d ↔ d ∈ i.deleted ∨ ∀ r ∈ i.readers, ¬ r.Holds x d := by
  have hsnap : ¬ i.snapshot.Returns x d ↔ d ∈ i.deleted ∨ ∀ r ∈ i.readers, ¬ r.Holds x d := by
    rw [returns_iff, snapshot_readers, not_and_or, not_not]
    simp only [not_exists, not_and]
    rfl
  refine ⟨fun h => hsnap.mp h.1, fun h => ⟨hsnap.mpr h, fun busy hret => ?_⟩⟩
  obtain ⟨hd, r, hr, hh⟩ := returns_iff.mp hret
  have hnone : ∀ r ∈ i.readers, ¬ r.Holds x d :=
    h.resolve_left fun hmem => hd (by simpa [publishSnapshot, buildSnapshot] using hmem)
  -- sealing gathers parts; the published snapshot reads an empty active table
  rcases mem_cons.mp hr with rfl | hr
  · exact MemIndex.not_holds_new x d hh
  · exact (sealMem_regroup busy).none_of_none not_holds_of_gathers hnone r
      (mem_cons_of_mem _ hr) hh

end LsmIndex

namespace World

open LsmIndex List MemIndex

variable {w : World} {x : XPathId} {d : DocId} {a : IndexAction}

theorem not_holds_added (hadd : ¬ a.Adds d) (hx : ¬ a.RowKeys x) :
    ∀ r ∈ IndexAction.added a, ¬ r.Holds x d := by
  cases a with
  | mergeIntoMemtable docs =>
    intro r hr
    obtain rfl := mem_singleton.mp hr
    have hsame := sameAt_foldl_addAnalyzedDocument (x := x) (d := d)
      (fun doc hdoc hrow => hx ⟨doc, hdoc, hrow⟩) (fun doc hdoc heq => hadd ⟨doc, hdoc, heq⟩)
      new
    exact fun h => not_holds_new x d (hsame.holds.mp h)
  | _ => simp [IndexAction.added]

theorem hidden_of_clears (h : Inv w) (hc : Clears w a) (hidden : w.index.Hidden x d) :
    (w.step a).index.Hidden x d ↔ ¬ w.index.Unflushed x d := by
  obtain ⟨hdeleted, hmem, hgens, hqueue, deleted, opened, hknown, hquery, -⟩ := clears_spec h hc
  -- the merged segment has no tombstoned id
  have hseg : (∃ s ∈ (w.step a).index.querySegments, (Reader.seg s).Holds x d) →
      w.index.Unflushed x d := by
    rw [hquery]
    rintro ⟨s, hs, hh⟩
    obtain rfl := mem_singleton.mp hs
    obtain ⟨hd, -⟩ := (Compaction.holds_compacted deleted opened).mp hh
    rcases hidden_iff.mp hidden with htomb | hnone
    · exact absurd (hknown htomb) hd
    · obtain ⟨D, -, hregroup⟩ := step_regroup h a
      have hadded : IndexAction.added a = [] := by
        cases a with
        | installCompaction => rfl
        | _ => cases hc
      rw [hadded] at hregroup
      refine absurd hh ?_
      refine hregroup.none_of_none not_holds_of_gathers hnone _ ?_
      simp [readers, parts, hquery]
  have hex : (∃ r ∈ (w.step a).index.readers, r.Holds x d) ↔ w.index.Unflushed x d := by
    rw [exists_readers, hmem, hgens, hqueue]
    constructor
    · rintro (h | h | h | h)
      · exact .inl h
      · exact .inr (.inl h)
      · exact .inr (.inr h)
      · exact hseg h
    · rintro (h | h | h)
      · exact .inl h
      · exact .inr (.inl h)
      · exact .inr (.inr (.inl h))
  rw [hidden_iff, hdeleted, ← hex]
  simp

theorem mem_deleted_step (h : Inv w) (hc : ¬ Clears w a) (htomb : d ∈ w.index.deleted) :
    d ∈ (w.step a).index.deleted := by
  by_cases hdel : ∃ d' ok, a = .deleteDocument d' ok
  · obtain ⟨d', ok, rfl⟩ := hdel
    exact Finset.mem_insert_of_mem htomb
  · rw [step_deleted h (fun d' ok heq => hdel ⟨d', ok, heq⟩) hc]
    exact htomb

theorem run_delete_snoc (w : World) (pre : List IndexAction) (d : DocId) (appendOk : Bool)
    (as : List IndexAction) (a : IndexAction) :
    w.run (pre ++ .deleteDocument d appendOk :: (as ++ [a]))
      = (w.run (pre ++ .deleteDocument d appendOk :: as)).step a := by
  rw [← cons_append, ← append_assoc, run_append]
  rfl

theorem hides_run_iff (Hides None Bad : World → Prop)
    (hiff : ∀ w, Hides w ↔ d ∈ w.index.deleted ∨ None w) (hw : Fresh w)
    (pre post : List IndexAction) (appendOk : Bool)
    (hstep : ∀ w, ∀ a ∈ post, Inv w → None w → None (w.step a))
    (hclears : ∀ w, ∀ a ∈ post, Inv w → Clears w a → Hides w → (Hides (w.step a) ↔ ¬ Bad w)) :
    (∀ as bs, post = as ++ bs → Hides (w.run (pre ++ .deleteDocument d appendOk :: as))) ↔
    ∀ as a bs, post = as ++ a :: bs → Clears (w.run (pre ++ .deleteDocument d appendOk :: as)) a →
      ¬ Bad (w.run (pre ++ .deleteDocument d appendOk :: as)) := by
  have hinv : ∀ as, Inv (w.run (pre ++ .deleteDocument d appendOk :: as)) :=
    fun as => inv_run hw.inv _
  constructor
  · intro h as a bs hpost hc
    have hnext := h (as ++ [a]) bs (by simp [hpost])
    rw [run_delete_snoc] at hnext
    exact (hclears _ a (by simp [hpost]) (hinv as) hc (h as (a :: bs) hpost)).mp hnext
  · intro h as
    -- induction from the end of the run: the last action keeps what held before it
    induction as using reverseRecOn with
    | nil =>
      intro bs _
      rw [run_append]
      exact (hiff _).mpr (.inl (Finset.mem_insert_self _ _))
    | append_singleton as a ih =>
      intro bs hpost
      have hpost' : post = as ++ a :: bs := by simp [hpost]
      have hmem : a ∈ post := by simp [hpost']
      have hidden := ih (a :: bs) hpost'
      rw [run_delete_snoc]
      by_cases hc : Clears (w.run (pre ++ .deleteDocument d appendOk :: as)) a
      · exact (hclears _ a hmem (hinv as) hc hidden).mpr (h as a bs hpost' hc)
      rcases (hiff _).mp hidden with htomb | hnone
      · exact (hiff _).mpr (.inl (mem_deleted_step (hinv as) hc htomb))
      · exact (hiff _).mpr (.inr (hstep _ a hmem (hinv as) hnone))

/-- Once `d` is deleted and unless it is added again, it stays hidden on a field
filed under document ids exactly when no install clears the tombstones while
the active table, a generation or a pending flush holds it. -/
theorem hidden_run_iff (hw : Fresh w) (pre post : List IndexAction) (d : DocId) (appendOk : Bool)
    (x : XPathId) (hadd : ∀ a ∈ post, ¬ a.Adds d) (hx : ∀ a ∈ post, ¬ a.RowKeys x) :
    (∀ as bs, post = as ++ bs →
      (w.run (pre ++ .deleteDocument d appendOk :: as)).index.Hidden x d) ↔
    ∀ as a bs, post = as ++ a :: bs →
      Clears (w.run (pre ++ .deleteDocument d appendOk :: as)) a →
        ¬ (w.run (pre ++ .deleteDocument d appendOk :: as)).index.Unflushed x d := by
  refine hides_run_iff (fun w => w.index.Hidden x d) (fun w => ∀ r ∈ w.index.readers, ¬ r.Holds x d)
    (fun w => w.index.Unflushed x d) (fun w => hidden_iff) hw pre post appendOk ?_ ?_
  · intro w a ha h hnone
    obtain ⟨D, -, hregroup⟩ := step_regroup h a
    refine hregroup.none_of_none not_holds_of_gathers fun r hr => ?_
    rcases mem_append.mp hr with hr | hr
    · exact not_holds_added (hadd a ha) (hx a ha) r hr
    · exact hnone r hr
  · exact fun w a _ h hc hidden => hidden_of_clears h hc hidden

def oneWord (docId : DocId) : AnalyzedDocument :=
  ⟨docId, ⟨[⟨0, 1, [⟨"word", [0], 1⟩]⟩], [], []⟩, []⟩

def flushed (docId : DocId) (seq : ℕ) : List IndexAction :=
  [.mergeIntoMemtable [oneWord docId], .queueFlush (fun _ => false) true, .takeFlushJobs,
    .completeFlush seq true true]

def compactAll : List IndexAction :=
  [.planCompaction CompactionConfig.default true fun _ => 1, .runCompaction 0 true,
    .installCompaction 0 true true true]

def thirdInTable : List IndexAction :=
  flushed 1 0 ++ flushed 2 1 ++ [.mergeIntoMemtable [oneWord 3]]

def thirdInSegment : List IndexAction := flushed 1 0 ++ flushed 2 1 ++ flushed 3 2

/-- The third document is deleted, all segments are merged, and a snapshot
returns the document. -/
theorem thirdInTable_returned :
    (((start [] ∅).run thirdInTable).index.deleteDocument 3 true).1 = .ok () ∧
      (∀ a ∈ compactAll, ¬ a.Adds 3 ∧ ¬ a.RowKeys 0) ∧
      ((start [] ∅).run (thirdInTable ++ .deleteDocument 3 true :: compactAll)).index.snapshot.Returns
        0 3 := by
  refine ⟨by decide, by simp [compactAll, IndexAction.Adds, RowKeys, documents], .inl ⟨"word", ?_⟩⟩
  decide

/-- With the third document in a segment, the same steps drop its tombstone and
it stays hidden. -/
theorem thirdInSegment_hidden :
    ((start [] ∅).run (thirdInSegment ++ .deleteDocument 3 true :: compactAll)).index.deleted = ∅ ∧
      ((start [] ∅).run (thirdInSegment ++ .deleteDocument 3 true :: compactAll)).index.Hidden
        0 3 := by
  have hempty : ∀ as ∈ compactAll.inits,
      ((start [] ∅).run (thirdInSegment ++ .deleteDocument 3 true :: as)).index.mem = MemIndex.new ∧
      ((start [] ∅).run (thirdInSegment ++ .deleteDocument 3 true :: as)).index.generations = [] ∧
      ((start [] ∅).run (thirdInSegment ++
        .deleteDocument 3 true :: as)).index.flushQueue.pending.length = 0 := by
    decide
  refine ⟨by decide, ?_⟩
  refine (hidden_run_iff (Fresh.opened [] ∅ nodup_nil) thirdInSegment compactAll 3 true 0
    (by simp [compactAll, IndexAction.Adds, documents])
    (by simp [compactAll, RowKeys, documents])).mpr ?_
    compactAll [] (by simp)
  intro as a bs hpost _ hunflushed
  obtain ⟨hmem, hgens, hpending⟩ := hempty as ((mem_inits _ _).mpr ⟨a :: bs, hpost.symm⟩)
  rw [Unflushed, hmem, hgens, eq_nil_of_length_eq_zero hpending] at hunflushed
  simp [not_holds_new] at hunflushed

end World
