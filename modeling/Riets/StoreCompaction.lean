/-
A store compaction keeps every document.

Documents may be written and deleted until the install; the install redirects
the entries that still lie in the removed segments and no other.
-/
import Riets.StoreLoad

open BinaryDocumentStore

namespace StoreRun

open List StoreDir SortedMap

def fetched (s : BinaryDocumentStore) (x : String) : IoResult (Option StoredDocument) :=
  (s.get x).map Prod.fst

variable {r : StoreRun} {logs : Logs} {c : CompletedSegmentCompaction}

variable {s : BinaryDocumentStore}

theorem fetched_some (h : s.Ok logs) {x : String} {loc : DocLocation}
    {doc : StoredDocument} (hx : s.locations.get? x = some loc) (hat : At logs loc doc)
    (hdoc : doc.externalId = x) : fetched s x = .ok (some doc) := by
  obtain ⟨s', hget, -⟩ := h.get_some hx hat hdoc
  rw [fetched, hget]
  rfl

theorem fetched_none (h : s.Ok logs) {x : String}
    (hx : s.locations.get? x = none) : fetched s x = .ok none := by
  rw [fetched, h.get_none hx]
  rfl

theorem fetched_install {docs : List StoredDocument} (h : s.Ok logs)
    (hc : c.Ok s logs docs) (x : String) :
    fetched (s.installSegmentCompaction c).2 x = fetched s x := by
  obtain ⟨hnone, hsome⟩ := install_locations hc x
  have hok := h.install hc
  cases hx : s.locations.get? x with
  | none => rw [fetched_none h hx, fetched_none hok (hnone hx)]
  | some loc =>
    by_cases hseg : loc.segment ∈ c.oldSegmentIds
    · obtain ⟨loc', doc, hloc', -, -, hid, hat, hat'⟩ := (hsome loc hx).2 hseg
      rw [fetched_some h hx hat hid, fetched_some hok hloc' hat' hid]
    · obtain ⟨doc, hid, hat⟩ := h.located x loc hx
      rw [fetched_some h hx hat hid, fetched_some hok ((hsome loc hx).1 hseg)
        (hat.installed hc hseg) hid]

/-- **An install changes no document.**  In every state of every run in which a
finished compaction waits, after whatever was written, deleted or rotated since
its plan, the install leaves what the store gives for every external id, keeps
exactly the same ids in the maps, and every entry then is the place of a document
with its external and internal id. -/
theorem install_keeps_documents (steps : List StoreStep) (r : StoreRun)
    (hrun : StoreRun.new.run steps = .ok r) (c : CompletedSegmentCompaction)
    (hc : r.compacting = .completed c) :
    (∀ x, fetched (r.store.installSegmentCompaction c).2 x = fetched r.store x) ∧
    (∀ x, (r.store.installSegmentCompaction c).2.locations.get? x = none ↔
      r.store.locations.get? x = none) ∧
    ∀ x loc, (r.store.installSegmentCompaction c).2.locations.get? x = some loc →
      ∃ doc, (r.store.installSegmentCompaction c).2.dir.readDocumentAtPath loc.segment loc.offset =
          .ok doc ∧ doc.externalId = x ∧ doc.internalId = loc.internalId := by
  obtain ⟨r', logs, hrun', hvalid⟩ := ok_run steps
  rw [hrun] at hrun'
  cases hrun'
  obtain ⟨docs, hcok⟩ : ∃ docs, c.Ok r.store logs docs := by
    have := hvalid.compacting
    rwa [hc] at this
  have hok := hvalid.store.install hcok
  refine ⟨fetched_install hvalid.store hcok, fun x => ⟨fun hnone => ?_, fun hnone => ?_⟩,
    fun x loc hx => ?_⟩
  · cases hx : r.store.locations.get? x with
    | none => rfl
    | some loc =>
      obtain ⟨-, hsome⟩ := install_locations hcok x
      by_cases hseg : loc.segment ∈ c.oldSegmentIds
      · obtain ⟨loc', doc, hloc', -⟩ := (hsome loc hx).2 hseg
        rw [hnone] at hloc'
        cases hloc'
      · rw [(hsome loc hx).1 hseg] at hnone
        cases hnone
  · exact (install_locations hcok x).1 hnone
  · obtain ⟨doc, hid, hat⟩ := hok.located x loc hx
    exact ⟨doc, hat.read hok.fit hok.segments, hid, hat.internalId.symm⟩

/-! ### A compaction with a write before its install -/

section Full

variable {big : FittingDocument} (hbig : defaultSegmentSize ≤ big.1.source.length)

def fullStore (big : StoredDocument) : BinaryDocumentStore :=
  ((StoreRun.new.store.putOne big).raise big.internalId).rotated

include hbig in
theorem step_put_big : new.step (.put big) = .ok ⟨fullStore big.1, .idle⟩ := by
  have hget : new.store.dir.segments.get? new.store.currentSegment =
      some magic := rfl
  have hlen : ¬(magic ++ (StoreRecord.put big.1).encode).length < defaultSegmentSize := by
    rw [length_append, StoreRecord.encode, length_cons, length_writeDocument]
    omega
  rw [step, put_eq hget, if_neg hlen]
  rfl

theorem entries_fullStore (big : StoredDocument) : (fullStore big).dir.segments.entries =
    [(0, magic ++ (StoreRecord.put big).encode), (1, magic)] := rfl

theorem candidates_fullStore (big : StoredDocument) :
    ∃ live, (fullStore big).candidates (fun _ _ => true) = [(0, live)] := by
  have htotal : (magic ++ (StoreRecord.put big).encode).length - 8 ≠ 0 := by
    have := (StoreRecord.put big).one_le_length
    rw [length_append]
    show 8 + _ - 8 ≠ 0
    omega
  have hcurrent : (fullStore big).currentSegment = 1 := rfl
  refine ⟨min ((fullStore big).liveBytes 0)
    ((magic ++ (StoreRecord.put big).encode).length - 8), ?_⟩
  rw [candidates, entries_fullStore, filterMap_cons, filterMap_cons, filterMap_nil]
  simp only [hcurrent]
  rw [if_pos ⟨Nat.zero_lt_one, htotal, trivial⟩, if_neg fun h => lt_irrefl 1 h.1]

def plannedStore (big : StoredDocument) : BinaryDocumentStore :=
  { fullStore big with nextSegmentId := 3 }

theorem plan_fullStore (big : StoredDocument) :
    ∃ snapshot, (fullStore big).planCompaction (fun _ _ => true) id 0 =
      (some ⟨[0], 2, snapshot⟩, plannedStore big) := by
  obtain ⟨live, hlive⟩ := candidates_fullStore big
  have hpick : pick 0 0 true (Keyed.sortBy Prod.snd (Keyed.sortBy (fun c => id c.1) [(0, live)])) =
      [0] := by
    show pick 0 0 true [(0, live)] = [0]
    simp [pick]
  rw [planCompaction, hlive, if_neg (cons_ne_nil _ _), hpick]
  exact ⟨_, rfl⟩

def fullLogs (big : StoredDocument) : Logs :=
  (newLogs.push 0 ⟨false, []⟩ (.put big)).insert 1 ⟨false, []⟩

theorem valid_fullStore (big : FittingDocument) :
    Valid ⟨fullStore big.1, .idle⟩ (fullLogs big.1) := by
  have hl : newLogs.get? new.store.currentSegment = some ⟨false, []⟩ := rfl
  exact ((valid_new.putOne hl big.2).raise big.1.internalId).rotated

theorem compacted_fullStore (big : FittingDocument) :
    ∃ snapshot c docs,
      (fullStore big.1).planCompaction (fun _ _ => true) id 0 =
        (some ⟨[0], 2, snapshot⟩, plannedStore big.1) ∧
      runSegmentCompaction (plannedStore big.1).dir ⟨[0], 2, snapshot⟩ = .ok c ∧
      c.oldSegmentIds = [0] ∧ c.newSegmentId = 2 ∧
      c.Ok (plannedStore big.1) (fullLogs big.1) docs := by
  obtain ⟨snapshot, hplan⟩ := plan_fullStore big.1
  have hplanned := (valid_fullStore big).planned hplan
  obtain ⟨c, docs, hrun, hc⟩ := hplanned.store.runSegmentCompaction hplanned.compacting
  have hold : c.oldSegmentIds = [0] ∧ c.newSegmentId = 2 := by
    rw [runSegmentCompaction] at hrun
    cases hcopies : foldlM (copyRecord (plannedStore big.1).dir 2)
        (compactedMagic, []) snapshot with
    | error e =>
      simp only [hcopies] at hrun
      cases hrun
    | ok acc =>
      simp only [hcopies] at hrun
      cases hrun
      exact ⟨rfl, rfl⟩
  exact ⟨snapshot, c, docs, hplan, hrun, hold.1, hold.2, hc⟩

/-- A document fills a segment and is copied by a compaction, and is written again
before the install. -/
def rewriting (big new : FittingDocument) : List StoreStep :=
  [.put big, .planCompaction (fun _ _ => true) id 0, .runCompaction, .put new]

def writtenStore (big new : StoredDocument) : BinaryDocumentStore :=
  ((plannedStore big).putOne new).raise new.internalId

def writtenLogs (big new : StoredDocument) : Logs := (fullLogs big).push 1 ⟨false, []⟩ (.put new)

/-- The steps after the first put, and the run they make. -/
theorem rewriting_steps {new : FittingDocument} (hbig : defaultSegmentSize ≤ big.1.source.length)
    (hsmall : (magic ++ (StoreRecord.put new.1).encode).length < defaultSegmentSize) :
    ∃ snapshot c,
      step ⟨fullStore big.1, .idle⟩ (.planCompaction (fun _ _ => true) id 0) =
        .ok ⟨plannedStore big.1, .planned ⟨[0], 2, snapshot⟩⟩ ∧
      step ⟨plannedStore big.1, .planned ⟨[0], 2, snapshot⟩⟩ .runCompaction =
        .ok ⟨plannedStore big.1, .completed c⟩ ∧
      step ⟨plannedStore big.1, .completed c⟩ (.put new) =
        .ok ⟨writtenStore big.1 new.1, .completed c⟩ ∧
      StoreRun.new.run (rewriting big new) = .ok ⟨writtenStore big.1 new.1, .completed c⟩ ∧
      c.oldSegmentIds = [0] ∧ c.newSegmentId = 2 ∧ Valid ⟨plannedStore big.1, .completed c⟩ (fullLogs big.1) ∧
      Valid ⟨writtenStore big.1 new.1, .completed c⟩ (writtenLogs big.1 new.1) := by
  obtain ⟨snapshot, c, docs, hplan, hrun, hold, hnew, hc⟩ := compacted_fullStore big
  have hl : (fullLogs big.1).get? (plannedStore big.1).currentSegment = some ⟨false, []⟩ := rfl
  have hplanned := ((valid_fullStore big).planned hplan).completed hc
  have hstep₂ : step ⟨fullStore big.1, .idle⟩ (.planCompaction (fun _ _ => true) id 0) =
      .ok ⟨plannedStore big.1, .planned ⟨[0], 2, snapshot⟩⟩ := by
    rw [step, hplan]
  have hstep₃ : step ⟨plannedStore big.1, .planned ⟨[0], 2, snapshot⟩⟩ .runCompaction =
      .ok ⟨plannedStore big.1, .completed c⟩ := by
    show Except.bind (runSegmentCompaction (plannedStore big.1).dir ⟨[0], 2, snapshot⟩) _ = _
    rw [hrun]
    rfl
  have hstep₄ : step ⟨plannedStore big.1, .completed c⟩ (.put new) =
      .ok ⟨writtenStore big.1 new.1, .completed c⟩ := by
    have hget : (plannedStore big.1).dir.segments.get? (plannedStore big.1).currentSegment =
        some magic := rfl
    rw [step, put_eq hget, if_pos hsmall]
    rfl
  refine ⟨snapshot, c, hstep₂, hstep₃, hstep₄, ?_, hold, hnew, hplanned,
    (hplanned.putOne hl new.2).raise new.1.internalId⟩
  rw [run, rewriting, foldlM_cons, step_put_big hbig]
  show foldlM step ⟨fullStore big.1, .idle⟩ _ = _
  rw [foldlM_cons, hstep₂]
  show foldlM step ⟨plannedStore big.1, .planned ⟨[0], 2, snapshot⟩⟩ _ = _
  rw [foldlM_cons, hstep₃]
  show foldlM step ⟨plannedStore big.1, .completed c⟩ _ = _
  rw [foldlM_cons, hstep₄]
  rfl

theorem newAt_written (big new : StoredDocument) :
    (writtenStore big new).locations.get? new.externalId = some (locationAt 1 8 new) := by
  show (insert _ new.externalId _).get? _ = _
  rw [get?_insert, if_pos rfl]
  rfl

include hbig in
theorem rewriting_run {new : FittingDocument}
    (hsmall : (magic ++ (StoreRecord.put new.1).encode).length < defaultSegmentSize) :
    ∃ r c, StoreRun.new.run (rewriting big new) = .ok r ∧ r.compacting = .completed c ∧
      c.newSegmentId = 2 ∧ r.store.nextSegmentId = 3 ∧
      r.store.locations.get? new.1.externalId = some (locationAt 1 8 new.1) ∧
      ∃ e ∈ c.newLocations, e.1 = big.1.externalId ∧ e.2.internalId = big.1.internalId := by
  obtain ⟨snapshot, c, -, -, -, hrun, hold, hnew, hplanned, -⟩ := rewriting_steps hbig hsmall
  obtain ⟨docs, hc⟩ := hplanned.completed_ok rfl
  refine ⟨_, c, hrun, rfl, hnew, rfl, newAt_written _ _, ?_⟩
  -- the copy of the document in the output
  have hx : (plannedStore big.1).locations.get? big.1.externalId = some (locationAt 0 8 big.1) := by
    show (insert .empty big.1.externalId _).get? _ = _
    rw [get?_insert, if_pos rfl]
    rfl
  obtain ⟨doc, hdoc, hid, hat⟩ := hc.covers _ _ hx (by rw [hold]; exact mem_singleton.2 rfl)
  obtain ⟨pre, post, hsplit⟩ := append_of_mem hdoc
  refine ⟨(doc.externalId, locationAt c.newSegmentId (8 + (encodeAll (pre.map .put)).length) doc),
    ?_, hid, hat.internalId.symm⟩
  rw [hc.newLocations, Ok.mem_copies]
  exact ⟨pre, doc, post, hsplit, rfl⟩

end Full

def sample (id : DocId) (source : ByteSeq) : StoredDocument := ⟨"a", id, .json, source⟩

theorem sample_fits {id : DocId} {source : ByteSeq} (hid : id < 2 ^ 64)
    (hsource : source.length ≤ 2 ^ 27) : (sample id source).Fits := by
  have hname : (utf8 "a").length = 1 := by decide
  refine ⟨hid, ?_⟩
  rw [length_writeDocument]
  show 17 + (utf8 "a").length + source.length < 2 ^ 32
  rw [hname]
  omega

def bigSample : FittingDocument :=
  ⟨sample 1 (replicate (2 ^ 27) 0), sample_fits (by decide) (by rw [length_replicate])⟩

theorem defaultSegmentSize_le_bigSample : defaultSegmentSize ≤ bigSample.1.source.length := by
  show 128 * 1024 * 1024 ≤ (replicate (2 ^ 27) (0 : UInt8)).length
  rw [length_replicate]
  omega

def newSample : FittingDocument := ⟨sample 2 [0], sample_fits (by decide) (by decide)⟩

theorem rewriting_samples :
    ∃ r c, new.run (rewriting bigSample newSample) = .ok r ∧
      r.compacting = .completed c ∧ c.newSegmentId = 2 ∧ r.store.nextSegmentId = 3 ∧
      r.store.locations.get? "a" = some (locationAt 1 8 newSample.1) ∧
      ∃ e ∈ c.newLocations, e.1 = "a" ∧ e.2.internalId = 1 := by
  exact rewriting_run defaultSegmentSize_le_bigSample (by decide)

/-- The document written between the plan and the install stays. -/
theorem install_keeps_rewritten :
    ∃ steps r c, StoreRun.new.run steps = .ok r ∧ r.compacting = .completed c ∧
      fetched (r.store.installSegmentCompaction c).2 "a" = fetched r.store "a" := by
  obtain ⟨r, c, hrun, hc, -⟩ := rewriting_samples
  exact ⟨_, r, c, hrun, hc, (install_keeps_documents _ r hrun c hc).1 "a"⟩

end StoreRun
