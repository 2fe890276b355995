/-
Where the entries of an index come from.

A property of parts that gathering keeps (`Closed`) spreads over a whole run:
if every table that is added has it, so has every part of the index, every
segment file and every file a compaction still works on.  The instance used
later: every length is filed under the id of a document that was added or of
one of its array rows.
-/
import Riets.LsmInvariant

def Reader.Closed (P : Reader → Prop) : Prop :=
  ∀ deleted r group, Gathers deleted r group → (∀ g ∈ group, P g) → P r

namespace World

open List SortedMap Option Reader

variable {w : World} {P : Reader → Prop}

structure Everywhere (P : Reader → Prop) (w : World) : Prop where
  readers : ∀ r ∈ w.index.readers, P r
  files : ∀ n s, w.files.get? n = some s → P (.seg s)

theorem Everywhere.mono {Q : Reader → Prop} (h : Everywhere P w) (hPQ : ∀ r, P r → Q r) :
    Everywhere Q w :=
  ⟨fun r hr => hPQ r (h.readers r hr), fun n s hs => hPQ _ (h.files n s hs)⟩

theorem everywhere_write (hP : Closed P) (h : Everywhere P w) (hq : QueueOk w) {job : FlushJob}
    (hjob : job ∈ w.writing) : P (.seg job.write) := by
  obtain ⟨p, hp, -, -, hgen⟩ := hq.flushes job (mem_append_right _ hjob)
  refine hP _ _ _ (gathers_write job) fun g hg => h.readers g ?_
  have hmem : g ∈ w.index.flushQueue.pending.flatMap fun p => p.generations.map mem :=
    mem_flatMap.mpr ⟨p, hp, hgen ▸ hg⟩
  exact mem_cons_of_mem _ (mem_append_left _ (mem_append_right _ hmem))

theorem everywhere_compacted (hP : Closed P) (h : Everywhere P w) (hf : FilesOk w)
    {job : CompactionJob} (hjob : job ∈ w.planned) {opened : List Segment}
    (hopened : job.selected.map (openHandle w.files) = opened.map some) :
    P (.seg (Compaction.compacted job.deleted opened)) := by
  refine hP _ _ _ (gathers_compacted job.deleted opened) fun g hg => ?_
  obtain ⟨s, hs, rfl⟩ := mem_map.mp hg
  have hsome : some s ∈ job.selected.map (openHandle w.files) :=
    hopened ▸ mem_map_of_mem hs
  obtain ⟨handle, hhandle, hopen⟩ := mem_map.mp hsome
  obtain ⟨p, rfl, -, -⟩ := (hf.jobs_ok job (mem_append_left _ hjob)).old handle hhandle
  exact h.files p s hopen

theorem everywhere_step (hP : Closed P) (hinv : Inv w) {a : IndexAction}
    (hadd : ∀ r ∈ IndexAction.added a, P r) (h : Everywhere P w) : Everywhere P (w.step a) where
  readers := by
    obtain ⟨deleted, -, hregroup⟩ := step_regroup hinv a
    refine hregroup.all_of_all (fun r group => hP deleted r group) fun r hr => ?_
    rcases mem_append.mp hr with hr | hr
    · exact hadd r hr
    · exact h.readers r hr
  files := by
    have hinsert : ∀ n s, P (.seg s) → ∀ m t, (w.files.insert n s).get? m = some t → P (.seg t) := by
      intro n s hs m t ht
      rw [get?_insert] at ht
      split_ifs at ht
      · exact some_inj.mp ht ▸ hs
      · exact h.files m t ht
    cases a with
    | completeFlush seq writeOk appendOk =>
      simp only [step]
      rcases completeFlush_cases hinv.queue seq writeOk appendOk with
        hw | ⟨job, hjob, -, files, hfiles, hw⟩
      · rw [hw]
        exact h.files
      · have hall : ∀ n s, files.get? n = some s → P (.seg s) := by
          rcases hfiles with rfl | rfl
          · exact h.files
          · exact hinsert _ _ (everywhere_write hP h hinv.queue hjob)
        rcases hw with ⟨_, hw⟩ | ⟨_, _, _, _, _, -, -, -, -, -, hw⟩
        all_goals
          rw [hw]
          exact hall
    | runCompaction jobId ok =>
      simp only [step]
      rcases w.runCompaction_cases jobId ok with hw | hw | ⟨job, hjob, opened, -, hopened, hw⟩
      · rw [hw]
        exact h.files
      · rw [hw]
        exact h.files
      · rw [hw]
        exact hinsert _ _ (everywhere_compacted hP h hinv.files hjob hopened)
    | installCompaction jobId openOk manifestOk clearOk =>
      have hremoved : ∀ (p : ℕ × Segment → Bool) n s, (w.files.filter p).get? n = some s →
          P (.seg s) := by
        intro p n s hs
        rw [get?_filter] at hs
        exact h.files n s (filter_eq_some_iff.mp hs).1
      simp only [step]
      rcases w.installCompaction_cases jobId openOk manifestOk clearOk with
        hw | ⟨job, -, -, ⟨files, hfiles, hw⟩ | ⟨_, _, files, -, -, -, -, hfiles, hw⟩⟩
      · rw [hw]
        exact h.files
      all_goals
        rw [hw]
        rcases hfiles with rfl | rfl
        · exact h.files
        · exact hremoved _
    | _ => exact h.files

theorem everywhere_start (hnew : P (.mem MemIndex.new)) {manifest : List (ℕ × Segment)}
    {deleted : DeleteSet} (h : ∀ e ∈ manifest, P (.seg e.2)) : Everywhere P (start manifest deleted) where
  readers r hr := by
    have hcases : r = .mem MemIndex.new ∨ r ∈ (manifest.map Prod.snd).map seg := by
      simpa [start, LsmIndex.persistent, LsmIndex.readers, LsmIndex.parts, FlushQueue.empty] using hr
    rcases hcases with rfl | hr
    · exact hnew
    · obtain ⟨s, hs, rfl⟩ := mem_map.mp hr
      obtain ⟨e, he, rfl⟩ := mem_map.mp hs
      exact h e he
  files n s hs := by
    have hfold : ∀ (l : List (ℕ × Segment)) (o : Option Segment), (∀ e ∈ l, P (.seg e.2)) →
        (∀ s ∈ o, P (.seg s)) → ∀ s ∈ l.foldl (fun _ e => some e.2) o, P (.seg s) := by
      intro l
      induction l with
      | nil => exact fun o _ ho => ho
      | cons e l ih =>
        intro o hl _
        refine ih _ (fun e' he' => hl e' (mem_cons_of_mem _ he')) fun s hs => ?_
        exact mem_some_iff.mp hs ▸ hl e mem_cons_self
    rw [start, get?_extend] at hs
    exact hfold _ none (fun e he => h e (mem_of_mem_filter he)) (fun s hs => by cases hs) s hs

end World

/-- The ids a document's texts are filed under: its own, and those of its rows that have a text. -/
def AnalyzedDocument.textIds (doc : AnalyzedDocument) : List DocId :=
  doc.docId :: (doc.arrayRows.filter fun row => !row.target.fields.isEmpty).map AnalyzedArrayRow.arrayRowId

namespace MemIndex

theorem docLengths_applyTarget {target : AnalyzedTarget} (h : target.fields = []) (m : MemIndex) (id : DocId) :
    (m.applyTarget id target).docLengths = m.docLengths := by
  rw [applyTarget, h]
  have hnumbers := foldl_keeps (P := fun m' => m'.docLengths = m.docLengths) (f := fun m p => m.addNumber id p)
    (fun _ _ hm => hm) target.numericPoints rfl
  exact foldl_keeps (P := fun m' => m'.docLengths = m.docLengths) (f := fun m p => m.addBool id p)
    (fun _ _ hm => hm) target.boolPoints hnumbers

theorem docLen_addAnalyzedDocument {doc : AnalyzedDocument} {d : DocId} (h : d ∉ doc.textIds) (m : MemIndex)
    (x : XPathId) :
    (m.addAnalyzedDocument doc).docLengths.get? (toLex (d, x)) = m.docLengths.get? (toLex (d, x)) := by
  rw [AnalyzedDocument.textIds, List.mem_cons, not_or] at h
  have hmain := (@SameAt.applyTarget x d doc.docId doc.main (.inl h.1) (m.trackDocId doc.docId)).length
  have hrows : ∀ rows : List AnalyzedArrayRow, (∀ row ∈ rows, row ∈ doc.arrayRows) → ∀ m : MemIndex,
      (rows.foldl (fun m row => m.addArrayRow doc.docId row) m).docLengths.get? (toLex (d, x)) =
        m.docLengths.get? (toLex (d, x)) := by
    intro rows
    induction rows with
    | nil => exact fun _ _ => rfl
    | cons row rows ih =>
      intro hmem m
      rw [List.foldl_cons, ih (fun r hr => hmem r (List.mem_cons_of_mem _ hr)), addArrayRow]
      by_cases htext : row.target.fields = []
      · rw [docLengths_applyTarget htext]
      · refine (SameAt.applyTarget (.inl fun heq => h.2 (List.mem_map.mpr ⟨row, ?_, heq.symm⟩)) _).length
        exact List.mem_filter.mpr ⟨hmem row List.mem_cons_self, by simpa using htext⟩
  exact (hrows _ (fun _ hr => hr) _).trans hmain

theorem docLen_ofDocuments {docs : List AnalyzedDocument} {d : DocId} {x : XPathId}
    (h : (ofDocuments docs).docLengths.get? (toLex (d, x)) ≠ none) :
    ∃ doc ∈ docs, d ∈ doc.textIds := by
  by_contra hnone
  have hfold : ∀ (l : List AnalyzedDocument) (m : MemIndex), (∀ doc ∈ l, doc ∈ docs) →
      (l.foldl addAnalyzedDocument m).docLengths.get? (toLex (d, x)) = m.docLengths.get? (toLex (d, x)) := by
    intro l
    induction l with
    | nil => exact fun _ _ => rfl
    | cons doc l ih =>
      intro m hmem
      rw [List.foldl_cons, ih _ fun e he => hmem e (List.mem_cons_of_mem _ he)]
      exact docLen_addAnalyzedDocument (fun hd => hnone ⟨doc, hmem doc List.mem_cons_self, hd⟩) m x
  exact h ((hfold docs new fun _ hd => hd).trans rfl)

end MemIndex

/-- Every length is filed under an id of a text of `docs`. -/
def Reader.LengthsFrom (docs : List AnalyzedDocument) (r : Reader) : Prop :=
  ∀ d x, r.docLen d x ≠ none → ∃ doc ∈ docs, d ∈ doc.textIds

theorem Reader.closed_lengthsFrom (docs : List AnalyzedDocument) : Closed (LengthsFrom docs) := by
  intro deleted r group hgather hgroup d x hlen
  obtain ⟨g, hg, hlen⟩ := hgather.lengths d x hlen
  exact hgroup g hg d x hlen
