/-
How far a document got on its way to disk.

A document that was merged into the active table is held by some part of the
index from then on, unless a compaction drops it as tombstoned.  A flush that
was queued moves everything held in memory into pending flushes with lower
numbers than the next one, and once those are done without a failure it is on
disk.
-/
import Riets.LsmInvariant

namespace MemIndex

open List SortedMap

/-- Whatever `m` holds, `m'` holds. -/
structure Covers (m m' : MemIndex) : Prop where
  posting : ∀ k d, m.posting k d ≠ none → m'.posting k d ≠ none
  numbers : ∀ x d, m.numbers x d ≠ [] → m'.numbers x d ≠ []
  trueIds : ∀ x, m.boolTrueIds x ⊆ m'.boolTrueIds x
  falseIds : ∀ x, m.boolFalseIds x ⊆ m'.boolFalseIds x

namespace Covers

variable {m m' m'' : MemIndex}

theorem refl (m : MemIndex) : Covers m m :=
  ⟨fun _ _ h => h, fun _ _ h => h, fun _ => Finset.Subset.refl _, fun _ => Finset.Subset.refl _⟩

theorem trans (h : Covers m m') (h' : Covers m' m'') : Covers m m'' :=
  ⟨fun k d hp => h'.posting k d (h.posting k d hp), fun x d hn => h'.numbers x d (h.numbers x d hn),
    fun x => (h.trueIds x).trans (h'.trueIds x), fun x => (h.falseIds x).trans (h'.falseIds x)⟩

theorem holds (h : Covers m m') {x : XPathId} {d : DocId} : m.Holds x d → m'.Holds x d := by
  rintro (⟨term, hp⟩ | hn | ht | hf)
  · exact .inl ⟨term, h.posting _ d hp⟩
  · exact .inr (.inl (h.numbers x d hn))
  · exact .inr (.inr (.inl (h.trueIds x ht)))
  · exact .inr (.inr (.inr (h.falseIds x hf)))

theorem new (m : MemIndex) : Covers new m :=
  ⟨fun _ _ h => absurd rfl h, fun _ _ h => absurd rfl h, fun _ => Finset.empty_subset _,
    fun _ => Finset.empty_subset _⟩

end Covers

/-- A way of adding to a table keeps what is there, and gives at least as much on
a table that holds more. -/
structure Adds (f : MemIndex → MemIndex) : Prop where
  keeps : ∀ m, Covers m (f m)
  mono : ∀ m m', Covers m m' → Covers (f m) (f m')

namespace Adds

theorem foldl {α : Type*} {f : MemIndex → α → MemIndex} (h : ∀ a, Adds fun m => f m a) (l : List α) :
    Adds fun m => l.foldl f m where
  keeps m := by
    induction l generalizing m with
    | nil => exact .refl m
    | cons a l ih => exact ((h a).keeps m).trans (ih (f m a))
  mono m m' hm := by
    induction l generalizing m m' with
    | nil => exact hm
    | cons a l ih => exact ih _ _ ((h a).mono m m' hm)

theorem comp {f g : MemIndex → MemIndex} (hf : Adds f) (hg : Adds g) : Adds fun m => g (f m) :=
  ⟨fun m => (hf.keeps m).trans (hg.keeps _), fun m m' hm => hg.mono _ _ (hf.mono m m' hm)⟩

theorem of_same {f : MemIndex → MemIndex} (hp : ∀ m k d, (f m).posting k d = m.posting k d)
    (hn : ∀ m x d, (f m).numbers x d = m.numbers x d) (hb : ∀ m, (f m).boolFields = m.boolFields) :
    Adds f := by
  have ht : ∀ m x, (f m).boolTrueIds x = m.boolTrueIds x := by
    intro m x
    rw [boolTrueIds, boolTrueIds, hb]
  have hf : ∀ m x, (f m).boolFalseIds x = m.boolFalseIds x := by
    intro m x
    rw [boolFalseIds, boolFalseIds, hb]
  have hsame : ∀ m, Covers m (f m) ∧ Covers (f m) m := by
    intro m
    refine ⟨⟨fun k d h => ?_, fun x d h => ?_, fun x => ?_, fun x => ?_⟩,
      ⟨fun k d h => ?_, fun x d h => ?_, fun x => ?_, fun x => ?_⟩⟩
    · rwa [hp]
    · rwa [hn]
    · rw [ht]
    · rw [hf]
    · rwa [hp] at h
    · rwa [hn] at h
    · rw [ht]
    · rw [hf]
  exact ⟨fun m => (hsame m).1, fun m m' hm => ((hsame m).2.trans hm).trans (hsame m').1⟩

theorem addPostingWeighted (term : String) (xpath : XPathId) (docId : DocId) (positions : List ℕ)
    (weight : ℕ) : Adds fun m => m.addPostingWeighted term xpath docId positions weight where
  keeps m := by
    refine ⟨fun k d h => ?_, fun _ _ h => h, fun _ => Finset.Subset.refl _,
      fun _ => Finset.Subset.refl _⟩
    rw [posting_addPostingWeighted]
    split_ifs
    · unfold addOccurrences
      split_ifs
      · exact h
      · cases hm : m.posting k d <;> simp
    · exact h
  mono m m' hm := by
    refine ⟨fun k d h => ?_, hm.numbers, hm.trueIds, hm.falseIds⟩
    rw [posting_addPostingWeighted] at h ⊢
    split_ifs at h ⊢
    · unfold addOccurrences at h ⊢
      split_ifs at h ⊢
      · exact hm.posting k d h
      · cases m'.posting k d <;> simp
    · exact hm.posting k d h

theorem applyField (docId : DocId) (field : AnalyzedField) :
    Adds fun m => m.applyField docId field := by
  have hterms : Adds fun m => field.terms.foldl
      (fun m t => m.addPostingWeighted t.term field.xpath docId t.positions t.weight) m :=
    foldl (fun t => addPostingWeighted t.term field.xpath docId t.positions t.weight) field.terms
  -- the length and the statistics come first
  refine comp ?_ hterms
  exact of_same (fun _ _ _ => rfl) (fun _ _ _ => rfl) fun _ => rfl

theorem addNumber (targetId : DocId) (point : NumericPoint) :
    Adds fun m => m.addNumber targetId point := by
  have hof : ∀ (m : MemIndex) x d, (m.addNumber targetId point).numbers x d = m.numbers x d ++
      if x = point.xpath ∧ targetId = d then [(targetId, point.value)] else [] :=
    fun m x d => NumericPoints.of_insert m.numericPoints point.xpath point.value targetId x d
  refine ⟨fun m => ⟨fun _ _ h => h, fun x d h => ?_, fun _ => Finset.Subset.refl _,
    fun _ => Finset.Subset.refl _⟩, fun m m' hm => ⟨hm.posting, fun x d h => ?_, hm.trueIds, hm.falseIds⟩⟩
  · rw [hof]
    exact fun hnil => h (append_eq_nil_iff.mp hnil).1
  · rw [hof] at h ⊢
    intro hnil
    obtain ⟨hm', hpoint⟩ := append_eq_nil_iff.mp hnil
    rw [hpoint, append_nil] at h
    exact hm.numbers x d h hm'

theorem addBool (targetId : DocId) (point : BoolPoint) : Adds fun m => m.addBool targetId point := by
  have htrue : ∀ (m : MemIndex) x d, d ∈ (m.addBool targetId point).boolTrueIds x ↔
      d ∈ m.boolTrueIds x ∨ (x = point.xpath ∧ d = targetId ∧ point.value = true) := by
    intro m x d
    rw [boolTrueIds, boolTrueIds, MemIndex.addBool, get?_upsert]
    by_cases hx : x = point.xpath
    · subst hx
      cases m.boolFields.get? point.xpath <;> cases point.value <;>
        simp [BoolField.insert, default, or_comm]
    · simp [hx]
  have hfalse : ∀ (m : MemIndex) x d, d ∈ (m.addBool targetId point).boolFalseIds x ↔
      d ∈ m.boolFalseIds x ∨ (x = point.xpath ∧ d = targetId ∧ point.value = false) := by
    intro m x d
    rw [boolFalseIds, boolFalseIds, MemIndex.addBool, get?_upsert]
    by_cases hx : x = point.xpath
    · subst hx
      cases m.boolFields.get? point.xpath <;> cases point.value <;>
        simp [BoolField.insert, default, or_comm]
    · simp [hx]
  refine ⟨fun m => ⟨fun _ _ h => h, fun _ _ h => h, fun x d hd => ?_, fun x d hd => ?_⟩,
    fun m m' hm => ⟨hm.posting, hm.numbers, fun x d hd => ?_, fun x d hd => ?_⟩⟩
  · exact (htrue m x d).mpr (.inl hd)
  · exact (hfalse m x d).mpr (.inl hd)
  · exact (htrue m' x d).mpr (((htrue m x d).mp hd).imp_left fun h => hm.trueIds x h)
  · exact (hfalse m' x d).mpr (((hfalse m x d).mp hd).imp_left fun h => hm.falseIds x h)

theorem applyTarget (targetId : DocId) (target : AnalyzedTarget) :
    Adds fun m => m.applyTarget targetId target :=
  ((foldl (applyField targetId) target.fields).comp
    (foldl (addNumber targetId) target.numericPoints)).comp (foldl (addBool targetId) target.boolPoints)

theorem addAnalyzedDocument (doc : AnalyzedDocument) : Adds fun m => m.addAnalyzedDocument doc := by
  have htrack : Adds fun m => m.trackDocId doc.docId :=
    of_same (fun _ _ _ => rfl) (fun _ _ _ => rfl) fun _ => rfl
  have hrow : ∀ row : AnalyzedArrayRow, Adds fun m => m.addArrayRow doc.docId row := fun row =>
    (of_same (f := fun m => { m with
      arrayRowIndex := m.arrayRowIndex.pushRow row.arrayRowId doc.docId row.parent })
      (fun _ _ _ => rfl) (fun _ _ _ => rfl) fun _ => rfl).comp
      (applyTarget row.arrayRowId row.target)
  exact (htrack.comp (applyTarget doc.docId doc.main)).comp (foldl hrow doc.arrayRows)

end Adds

theorem holds_ofDocuments {docs : List AnalyzedDocument} {doc : AnalyzedDocument} (hdoc : doc ∈ docs)
    {x : XPathId} {d : DocId} (h : (ofDocuments [doc]).Holds x d) :
    (ofDocuments docs).Holds x d := by
  obtain ⟨before, after, rfl⟩ := append_of_mem hdoc
  have hone := (Adds.addAnalyzedDocument doc).mono new (ofDocuments before) (.new _)
  have hrest := (Adds.foldl Adds.addAnalyzedDocument after).keeps
    ((ofDocuments before).addAnalyzedDocument doc)
  have hall : Covers (ofDocuments [doc]) (ofDocuments (before ++ doc :: after)) := by
    have heq : ofDocuments (before ++ doc :: after)
        = after.foldl addAnalyzedDocument
          ((ofDocuments before).addAnalyzedDocument doc) := by
      rw [ofDocuments, foldl_append]
      rfl
    rw [heq]
    exact hone.trans hrest
  exact hall.holds h

end MemIndex

namespace World

open List MemIndex SortedMap LsmIndex Option Compaction FlushQueue

variable {w : World} {x : XPathId} {d : DocId}

/-! ### The three stages -/

def Held (w : World) (x : XPathId) (d : DocId) : Prop := ∃ r ∈ w.index.readers, r.Holds x d

def OnDisk (w : World) (x : XPathId) (d : DocId) : Prop :=
  ∃ p s, .disk p ∈ w.index.segmentHandles ∧ w.files.get? p = some s ∧ s.Holds x d

/-- It is on disk, or in a pending flush with a number below `n`; after a failed
write nothing is promised. -/
def FlushedBelow (w : World) (n : ℕ) (x : XPathId) (d : DocId) : Prop :=
  w.index.flushQueue.failure ≠ none ∨ w.OnDisk x d ∨
    ∃ p ∈ w.index.flushQueue.pending, p.seq < n ∧ ∃ g ∈ p.generations, g.Holds x d

def Spares (w : World) (d : DocId) (a : IndexAction) : Prop :=
  ∀ job ∈ w.finished, IndexAction.Installs job a → d ∉ job.deleted

variable {a : IndexAction}

theorem held_step (h : Inv w) (hd : w.Spares d a) (hheld : w.Held x d) :
    (w.step a).Held x d := by
  obtain ⟨deleted, hdeleted, hregroup⟩ := step_regroup h a
  have hnot : d ∉ deleted := by
    rcases hdeleted with rfl | ⟨job, hjob, hinstalls, rfl⟩
    · exact Finset.notMem_empty d
    · exact hd job hjob hinstalls
  obtain ⟨r, hr, hholds⟩ := hheld
  refine hregroup.exists_of_exists (P := fun r => r.Holds x d) (fun r group hgather hgroup => ?_)
    ⟨r, mem_append_right _ hr, hholds⟩
  exact (hgather.holds x d).mpr ⟨hnot, hgroup⟩

theorem held_merge {docs : List AnalyzedDocument} (h : (ofDocuments docs).Holds x d) :
    (w.step (.mergeIntoMemtable docs)).Held x d :=
  ⟨_, mem_cons_self, holds_mergeFrom.mpr (.inr h)⟩

/-- Every segment file stays, or a file that holds at least as much takes its
place. -/
def KeepsDisk (d : DocId) (w w' : World) : Prop :=
  ∀ p s, .disk p ∈ w.index.segmentHandles → w.files.get? p = some s →
    ∃ q s', .disk q ∈ w'.index.segmentHandles ∧ w'.files.get? q = some s' ∧
      ∀ x, s.Holds x d → s'.Holds x d

theorem KeepsDisk.of_same {w' : World}
    (hhandles : ∀ p, .disk p ∈ w.index.segmentHandles → .disk p ∈ w'.index.segmentHandles)
    (hfiles : ∀ p, .disk p ∈ w.index.segmentHandles → w'.files.get? p = w.files.get? p) :
    KeepsDisk d w w' :=
  fun p s hp hs => ⟨p, s, hhandles p hp, (hfiles p hp).trans hs, fun _ h => h⟩

theorem keepsDisk_install (h : Inv w) {jobId : ℕ} {openOk manifestOk clearOk : Bool}
    (hd : w.Spares d (.installCompaction jobId openOk manifestOk clearOk)) :
    KeepsDisk d w (w.installCompaction jobId openOk manifestOk clearOk) := by
  rcases w.installCompaction_cases jobId openOk manifestOk clearOk with
    hw | ⟨job, hjob, hid, ⟨files, hfiles, hw⟩ | ⟨disk, deleted, files, -, hfresh, hget, -, hfiles, hw⟩⟩
  · rw [hw]
    exact .of_same (fun p hp => hp) fun p hp => rfl
  · have hmem : job ∈ w.jobs := mem_append_right _ hjob
    rw [hw]
    refine .of_same (fun p hp => hp) fun p hp => ?_
    rcases hfiles with rfl | rfl
    · rfl
    · have hne : p ≠ job.outputPath := fun heq =>
        h.files.not_live_of_reserved (FilesOk.outputPath_mem hmem) (heq ▸ mem_live.mpr hp)
      rw [get?_erase, if_neg hne]
  · have hmem : job ∈ w.jobs := mem_append_right _ hjob
    obtain ⟨stay, hperm, hins, hdisj⟩ := h.files.replaced hjob hfresh disk
    have hlive : ∀ a ∈ job.selected, a ∈ w.index.segmentHandles := mem_of_not_stale hfresh
    obtain ⟨opened, hopened, hout⟩ := h.files.outputs job hjob hlive
    obtain rfl : compacted job.deleted opened = disk :=
      some_inj.mp (hout.symm.trans hget)
    have hkeep : ∀ p, .disk p ∉ job.selected → files.get? p = w.files.get? p := by
      intro p hp
      rcases hfiles with rfl | rfl
      · rfl
      · rw [removeSelected, get?_filter]
        cases w.files.get? p <;> simp [Option.filter, hp]
    intro p s hp hs
    rw [hw]
    by_cases hsel : .disk p ∈ job.selected
    · -- the output holds what the input held
      refine ⟨job.outputPath, _, hins.mem_iff.mpr mem_cons_self,
        (hkeep _ fun hsel' => h.files.ne_outputPath hmem hmem hsel' rfl).trans hget, fun x hx => ?_⟩
      have hs' : s ∈ opened := by
        have hsome : some s ∈ opened.map some :=
          hopened ▸ mem_map.mpr ⟨.disk p, hsel, hs⟩
        obtain ⟨s', hs', heq⟩ := mem_map.mp hsome
        exact some_inj.mp heq ▸ hs'
      exact (holds_compacted job.deleted opened).mpr ⟨hd job hjob hid, s, hs', hx⟩
    · have hstay : SegmentHandle.disk p ∈ stay :=
        (mem_append.mp (hperm.mem_iff.mp hp)).resolve_left hsel
      exact ⟨p, s, hins.mem_iff.mpr (mem_cons_of_mem _ hstay), (hkeep p hsel).trans hs,
        fun _ h => h⟩

theorem keepsDisk_step (h : Inv w) (hroot : w.index.hasRoot = true) (hd : w.Spares d a) :
    KeepsDisk d w (w.step a) := by
  have hbuf := w.step_buffered (a := a)
  cases a with
  | mergeIntoMemtable docs => exact .of_same (fun p hp => hp) fun p hp => rfl
  | deleteDocument docId appendOk => exact .of_same (fun p hp => hp) fun p hp => rfl
  | completeFlush seq writeOk appendOk =>
    simp only [step]
    rcases completeFlush_cases h.queue seq writeOk appendOk with
      hw | ⟨job, hjob, -, files, hfiles, hw⟩
    · rw [hw]
      exact .of_same (fun p hp => hp) fun p hp => rfl
    · have hkeep : ∀ p, .disk p ∈ w.index.segmentHandles → files.get? p = w.files.get? p := by
        intro p hp
        rcases hfiles with rfl | rfl
        · rfl
        · obtain ⟨q, hq, -, hpath, -⟩ := h.queue.flushes job (mem_append_right _ hjob)
          have hres : job.path ∈ w.reserved :=
            mem_append_left _ (hpath ▸ mem_map_of_mem hq)
          have hne : p ≠ job.path := fun heq =>
            h.files.not_live_of_reserved hres (heq ▸ mem_live.mpr hp)
          rw [get?_insert, if_neg hne]
      rcases hw with ⟨_, hw⟩ | ⟨front, _, _, _, _, -, -, -, -, -, hw⟩
      · rw [hw]
        exact .of_same (fun p hp => hp) hkeep
      · rw [hw]
        refine .of_same (fun p hp => ?_) hkeep
        exact (mem_insertIdx (Nat.sub_le _ _)).mpr (.inr hp)
  | runCompaction jobId ok =>
    simp only [step]
    rcases w.runCompaction_cases jobId ok with hw | hw | ⟨job, hjob, _, -, -, hw⟩
    · rw [hw]
      exact .of_same (fun p hp => hp) fun p hp => rfl
    · rw [hw]
      exact .of_same (fun p hp => hp) fun p hp => rfl
    · rw [hw]
      refine .of_same (fun p hp => hp) fun p hp => ?_
      have hne : p ≠ job.outputPath := fun heq =>
        h.files.not_live_of_reserved (FilesOk.outputPath_mem (mem_append_left _ hjob))
          (heq ▸ mem_live.mpr hp)
      rw [get?_insert, if_neg hne]
  | installCompaction jobId openOk manifestOk clearOk =>
    exact keepsDisk_install h hd
  | _ =>
    have hb := hbuf trivial
    refine .of_same (fun p hp => ?_) fun p hp => ?_
    · rw [hb.handles hroot]
      exact hp
    · rw [hb.files]

theorem onDisk_step (h : Inv w) (hroot : w.index.hasRoot = true) (hd : w.Spares d a)
    (hdisk : w.OnDisk x d) : (w.step a).OnDisk x d := by
  obtain ⟨p, s, hp, hs, hholds⟩ := hdisk
  obtain ⟨q, s', hq, hs', hkeep⟩ := keepsDisk_step h hroot hd p s hp hs
  exact ⟨q, s', hq, hs', hkeep x hholds⟩

/-! ### The flush queue -/

/-- Pending flushes have consecutive numbers, segments in memory come from
failed writes, and a table without documents is empty. -/
structure FlushOk (w : World) : Prop where
  root : w.index.hasRoot = true
  seqs : w.index.flushQueue.pending.map PendingFlush.seq = range'
    (w.index.flushQueue.nextSeq - w.index.flushQueue.pending.length) w.index.flushQueue.pending.length
  length_le : w.index.flushQueue.pending.length ≤ w.index.flushQueue.nextSeq
  disk : w.index.flushQueue.failure = none → ∀ h ∈ w.index.segmentHandles, ∃ p, h = .disk p
  mem : ¬ w.index.mem.Tracked → ∀ x d, ¬ w.index.mem.Holds x d

/-- What a step can do to the flush queue: nothing, fail, take one more flush, or
let the oldest one go. -/
inductive QueueMove (w w' : World) : Prop
  | same : w'.index.flushQueue.pending = w.index.flushQueue.pending →
      w'.index.flushQueue.nextSeq = w.index.flushQueue.nextSeq →
      (w'.index.flushQueue.failure = w.index.flushQueue.failure ∨
        w'.index.flushQueue.failure ≠ none) → QueueMove w w'
  | queued (path : ℕ) (generations : List MemIndex) :
      w'.index.flushQueue = w.index.flushQueue.push path generations → QueueMove w w'
  | done (front : PendingFlush) (rest : List PendingFlush) :
      w.index.flushQueue.pending = front :: rest → w'.index.flushQueue.pending = rest →
      w'.index.flushQueue.nextSeq = w.index.flushQueue.nextSeq →
      (w'.index.flushQueue.failure ≠ none ∨
        (w'.index.flushQueue.failure = w.index.flushQueue.failure ∧
          ∀ x d, (∃ g ∈ front.generations, g.Holds x d) → w'.OnDisk x d)) → QueueMove w w'

theorem queueMove_step (h : Inv w) (a : IndexAction) : QueueMove w (w.step a) := by
  have hbuf := w.step_buffered (a := a)
  cases a with
  | mergeIntoMemtable docs => exact .same rfl rfl (.inl rfl)
  | deleteDocument docId appendOk => exact .same rfl rfl (.inl rfl)
  | completeFlush seq writeOk appendOk =>
    simp only [step]
    rcases completeFlush_cases h.queue seq writeOk appendOk with
      hw | ⟨job, hjob, -, files, -, ⟨e, hw⟩ | ⟨front, rest, handle, segment, failure, hpending, -,
        hopen, hpath, hmakes, hw⟩⟩
    · rw [hw]
      exact .same rfl rfl (.inl rfl)
    · rw [hw]
      exact .same rfl rfl (.inr (some_ne_none _))
    · rw [hw]
      refine .done front rest hpending rfl rfl ?_
      rcases hpath with ⟨-, hfailure⟩ | ⟨hpath, hfailure⟩
      · exact .inl hfailure
      · refine .inr ⟨hfailure, fun x d hg => ?_⟩
        cases handle with
        | memory _ => cases hpath
        | disk p =>
          refine ⟨p, segment, (mem_insertIdx (Nat.sub_le _ _)).mpr (.inl rfl), hopen, ?_⟩
          obtain ⟨g, hg, hholds⟩ := hg
          exact (hmakes.gathers.holds x d).mpr ⟨Finset.notMem_empty d, .mem g, mem_map_of_mem hg, hholds⟩
  | runCompaction jobId ok =>
    simp only [step]
    rcases w.runCompaction_cases jobId ok with hw | hw | ⟨_, -, _, -, -, hw⟩
    all_goals
      rw [hw]
      exact .same rfl rfl (.inl rfl)
  | installCompaction jobId openOk manifestOk clearOk =>
    simp only [step]
    rcases w.installCompaction_cases jobId openOk manifestOk clearOk with
      hw | ⟨_, -, -, ⟨_, -, hw⟩ | ⟨_, _, _, -, -, -, -, -, hw⟩⟩
    all_goals
      rw [hw]
      exact .same rfl rfl (.inl rfl)
  | _ =>
    rcases (hbuf trivial).queue with ⟨-, hq⟩ | ⟨-, path, generations, hq⟩ | ⟨-, hq⟩
    · exact .same (by rw [hq]) (by rw [hq]) (.inl (by rw [hq]))
    · exact .queued path generations hq
    · exact .same (by rw [hq]) (by rw [hq]) (.inl (by rw [hq]))

theorem failure_step (h : Inv w) (a : IndexAction) (hf : w.index.flushQueue.failure ≠ none) :
    (w.step a).index.flushQueue.failure ≠ none := by
  cases queueMove_step h a with
  | same _ _ hfail => exact hfail.elim (fun heq => heq ▸ hf) id
  | queued _ _ hq => rw [hq]; exact hf
  | done _ _ _ _ _ hfail => exact hfail.elim id fun hsame => hsame.1 ▸ hf

theorem flushedBelow_step (h : Inv w) (hroot : w.index.hasRoot = true) (hd : w.Spares d a)
    {n : ℕ} (hflushed : w.FlushedBelow n x d) : (w.step a).FlushedBelow n x d := by
  rcases hflushed with hf | hdisk | ⟨p, hp, hlt, hg⟩
  · exact .inl (failure_step h a hf)
  · exact .inr (.inl (onDisk_step h hroot hd hdisk))
  · cases queueMove_step h a with
    | same hpending _ _ => exact .inr (.inr ⟨p, hpending ▸ hp, hlt, hg⟩)
    | queued _ _ hq =>
      refine .inr (.inr ⟨p, ?_, hlt, hg⟩)
      rw [hq]
      exact mem_append_left _ hp
    | done front rest hpending hrest _ hfail =>
      rw [hpending] at hp
      rcases mem_cons.mp hp with rfl | hp
      · rcases hfail with hfail | ⟨-, hdisk⟩
        · exact .inl hfail
        · exact .inr (.inl (hdisk x d hg))
      · exact .inr (.inr ⟨p, hrest ▸ hp, hlt, hg⟩)

theorem tables_step (h : Inv w) (hroot : w.index.hasRoot = true) (a : IndexAction) :
    (w.step a).index.hasRoot = true ∧
      (∀ handle ∈ (w.step a).index.segmentHandles, handle ∈ w.index.segmentHandles ∨
        (∃ p, handle = .disk p) ∨ (w.step a).index.flushQueue.failure ≠ none) ∧
      ((w.step a).index.mem = w.index.mem ∨ (w.step a).index.mem = MemIndex.new ∨
        ∃ docs, a = .mergeIntoMemtable docs) := by
  have hbuf := w.step_buffered (a := a)
  cases a with
  | mergeIntoMemtable docs => exact ⟨hroot, fun _ hh => .inl hh, .inr (.inr ⟨docs, rfl⟩)⟩
  | deleteDocument docId appendOk => exact ⟨hroot, fun _ hh => .inl hh, .inl rfl⟩
  | completeFlush seq writeOk appendOk =>
    simp only [step]
    rcases completeFlush_cases h.queue seq writeOk appendOk with
      hw | ⟨_, -, -, _, -, ⟨_, hw⟩ | ⟨front, _, handle, _, _, -, -, -, hpath, -, hw⟩⟩
    · rw [hw]
      exact ⟨hroot, fun _ hh => .inl hh, .inl rfl⟩
    · rw [hw]
      exact ⟨hroot, fun _ hh => .inl hh, .inl rfl⟩
    · rw [hw]
      refine ⟨hroot, fun handle' hh => ?_, .inl rfl⟩
      rcases (mem_insertIdx (Nat.sub_le _ _)).mp hh with rfl | hh
      · rcases hpath with ⟨-, hfailure⟩ | ⟨hpath, -⟩
        · exact .inr (.inr hfailure)
        · cases handle' with
          | memory _ => cases hpath
          | disk p => exact .inr (.inl ⟨p, rfl⟩)
      · exact .inl hh
  | runCompaction jobId ok =>
    simp only [step]
    rcases w.runCompaction_cases jobId ok with hw | hw | ⟨_, -, _, -, -, hw⟩
    all_goals
      rw [hw]
      exact ⟨hroot, fun _ hh => .inl hh, .inl rfl⟩
  | installCompaction jobId openOk manifestOk clearOk =>
    simp only [step]
    rcases w.installCompaction_cases jobId openOk manifestOk clearOk with
      hw | ⟨job, hjob, -, ⟨_, -, hw⟩ | ⟨disk, _, _, -, hfresh, -, -, -, hw⟩⟩
    · rw [hw]
      exact ⟨hroot, fun _ hh => .inl hh, .inl rfl⟩
    · rw [hw]
      exact ⟨hroot, fun _ hh => .inl hh, .inl rfl⟩
    · obtain ⟨stay, hperm, hins, -⟩ := h.files.replaced hjob hfresh disk
      rw [hw]
      refine ⟨hroot, fun handle hh => ?_, .inl rfl⟩
      rcases mem_cons.mp (hins.mem_iff.mp hh) with rfl | hh
      · exact .inr (.inl ⟨_, rfl⟩)
      · exact .inl (hperm.mem_iff.mpr (mem_append_right _ hh))
  | _ =>
    have hb := hbuf trivial
    exact ⟨hb.root.trans hroot, fun handle hh => .inl (hb.handles hroot ▸ hh),
      hb.mem.imp_right .inl⟩

theorem flushOk_step (h : Inv w) (hok : FlushOk w) (a : IndexAction) : FlushOk (w.step a) := by
  obtain ⟨hroot, hhandles, hmem⟩ := tables_step h hok.root a
  refine ⟨hroot, ?_, ?_, fun hnone handle hh => ?_, ?_⟩
  · cases queueMove_step h a with
    | same hpending hnext _ =>
      rw [hpending, hnext]
      exact hok.seqs
    | queued path generations hq =>
      have hle := hok.length_le
      rw [hq]
      simp only [push, map_append, hok.seqs, length_append, length_cons,
        length_nil, map_cons, map_nil]
      rw [Nat.add_sub_add_right, range'_concat]
      simp only [Nat.one_mul]
      rw [Nat.sub_add_cancel hle]
    | done front rest hpending hrest hnext _ =>
      have hseqs := hok.seqs
      have hle := hok.length_le
      rw [hpending] at hseqs hle
      simp only [map_cons, length_cons, range'_succ, cons.injEq] at hseqs hle
      rw [hrest, hnext, hseqs.2]
      congr 1
      omega
  · have hle := hok.length_le
    cases queueMove_step h a with
    | same hpending hnext _ => rwa [hpending, hnext]
    | queued path generations hq =>
      rw [hq]
      simpa [push] using hle
    | done front rest hpending hrest hnext _ =>
      rw [hpending, length_cons] at hle
      rw [hrest, hnext]
      omega
  · rcases hhandles handle hh with hold | hdisk | hfail
    · refine hok.disk ?_ handle hold
      by_contra hf
      exact failure_step h a hf hnone
    · exact hdisk
    · exact absurd hnone hfail
  · rcases hmem with hsame | hnew | ⟨docs, rfl⟩
    · rw [hsame]
      exact hok.mem
    · rw [hnew]
      exact fun _ x d => not_holds_new x d
    · intro huntracked x d hholds
      have hneither : ¬ (w.index.mem.Tracked ∨ (ofDocuments docs).Tracked) :=
        fun htracked => huntracked (tracked_mergeFrom htracked)
      rw [not_or] at hneither
      rcases holds_mergeFrom.mp hholds with hold | hdocs
      · exact hok.mem hneither.1 x d hold
      · cases docs with
        | nil => exact not_holds_new x d hdocs
        | cons doc docs => exact hneither.2 (tracked_ofDocuments (cons_ne_nil _ _))

theorem flushOk_start (manifest : List (ℕ × Segment)) (deleted : DeleteSet) :
    FlushOk (start manifest deleted) where
  root := rfl
  seqs := rfl
  length_le := le_rfl
  disk _ handle hh := by
    obtain ⟨e, -, rfl⟩ := mem_map.mp hh
    exact ⟨e.1, rfl⟩
  mem _ x d := not_holds_new x d

theorem onDisk_of_querySegment (h : Inv w) (hok : FlushOk w)
    (hfail : w.index.flushQueue.failure = none) {s : Segment} (hs : s ∈ w.index.querySegments)
    (hholds : s.Holds x d) : w.OnDisk x d := by
  have hsome : some s ∈ w.index.segmentHandles.map (openHandle w.files) :=
    h.files.sync ▸ mem_map_of_mem hs
  obtain ⟨handle, hh, hopen⟩ := mem_map.mp hsome
  obtain ⟨p, rfl⟩ := hok.disk hfail handle hh
  exact ⟨p, s, hh, hopen, hholds⟩

theorem flushedBelow_queueFlush (h : Inv w) (hok : FlushOk w) {busy : ℕ → Bool} {syncOk : Bool}
    (hflush : (w.index.queueFlush busy syncOk).1 = .ok ()) (hheld : w.Held x d) :
    (w.step (.queueFlush busy syncOk)).FlushedBelow
      (w.step (.queueFlush busy syncOk)).index.flushQueue.nextSeq x d := by
  have hinv' := inv_step h (.queueFlush busy syncOk)
  have hok' := flushOk_step h hok (.queueFlush busy syncOk)
  have hregroup := queueFlush_regroup (i := w.index) syncOk
    (tablesOk_sealMem busy h.tables).generations
  -- nothing is left in the tables
  have hempty : (∀ x d, ¬ (w.index.queueFlush busy syncOk).2.mem.Holds x d) ∧
      (w.index.queueFlush busy syncOk).2.generations = [] := by
    have hmem : ∀ x d, ¬ (w.index.sealMem busy).mem.Holds x d := by
      rcases sealMem_cases (i := w.index) busy with ⟨-, hrange, hw⟩ | ⟨-, hw⟩
      · rw [hw]
        exact hok.mem fun htracked => htracked hrange
      · rw [hw]
        exact not_holds_new
    obtain ⟨hsealed, hgenerations⟩ := queueFlush_eq_ok hflush
    exact ⟨hsealed ▸ hmem, hgenerations⟩
  obtain ⟨r, hr, hholds⟩ := hheld
  obtain ⟨r', hr', hholds'⟩ := hregroup.exists_of_exists (P := fun r => r.Holds x d)
    (fun r group hgather hgroup => (hgather.holds x d).mpr ⟨Finset.notMem_empty d, hgroup⟩)
    ⟨r, hr, hholds⟩
  by_cases hfail : (w.step (.queueFlush busy syncOk)).index.flushQueue.failure = none
  · right
    rcases mem_cons.mp hr' with rfl | hr'
    · exact absurd hholds' (hempty.1 x d)
    rcases mem_append.mp hr' with hr' | hr'
    · rcases mem_append.mp hr' with hr' | hr'
      · rw [hempty.2] at hr'
        cases hr'
      · obtain ⟨p, hp, hg⟩ := mem_flatMap.mp hr'
        obtain ⟨g, hgen, rfl⟩ := mem_map.mp hg
        exact .inr ⟨p, hp, hinv'.queue.seqs_lt p hp, g, hgen, hholds'⟩
    · obtain ⟨s, hs, rfl⟩ := mem_map.mp hr'
      exact .inl (onDisk_of_querySegment hinv' hok' hfail hs hholds')
  · exact .inl hfail

theorem onDisk_of_flushedBelow (hok : FlushOk w) {n : ℕ} (hflushed : w.FlushedBelow n x d)
    (hfail : w.index.flushQueue.failure = none)
    (hn : n ≤ w.index.flushQueue.nextSeq - w.index.flushQueue.pending.length) : w.OnDisk x d := by
  rcases hflushed with hf | hdisk | ⟨p, hp, hlt, -⟩
  · exact absurd hfail hf
  · exact hdisk
  · have hmem : p.seq ∈ w.index.flushQueue.pending.map PendingFlush.seq := mem_map_of_mem hp
    rw [hok.seqs, mem_range'] at hmem
    obtain ⟨i, -, hi⟩ := hmem
    omega

end World
