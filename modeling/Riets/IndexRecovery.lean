/-
Crashes of an index on disk.

A crash leaves the directory as a prefix of the operations of a step made it.
Opened again, the index has the segments and the tombstones of before or of after
the step, unless the crash cut a write of the manifest short.
-/
import Riets.IndexCrash

open Text

namespace DirWorld

open List World LsmIndex IndexDir FileOp ManifestWorld SortedMap SegmentHandle

variable {k : DirWorld} {ids ids' : List DocId} {st : DirStep} {A M R : List FileOp} {x : XPathId}
  {d : DocId}

theorem isDeletes_of_isManifest {op : FileOp} (h : op.isManifest = true) : op.isDeletes = false := by
  cases op <;> first | rfl | cases h

theorem path?_of_isManifest {op : FileOp} (h : op.isManifest = true) : op.path? = none := by
  cases op <;> first | rfl | cases h

namespace Journal

theorem segments_applyAll (j : Journal k ids st ids' A M R) {B C : List FileOp} (hB : B ⊆ M) (hC : C ⊆ R)
    {p : ℕ} (hp : (k.step st).disk.world.Protected p) :
    (k.dir.applyAll (A ++ B ++ C)).segments.get? p =
      ((k.step st).disk.world.files.get? p).map some := by
  rw [append_assoc, applyAll_append, IndexDir.segments_applyAll, j.segments p hp]
  intro op hop
  rcases mem_append.mp hop with hop | hop
  · rw [path?_of_isManifest (j.middle op (hB hop))]
    exact (Option.some_ne_none p).symm
  · exact fun heq => (j.after op (hC hop)).2 p heq hp

theorem deletes_applyAll (h : DirOk k ids) (j : Journal k ids st ids' A M R) {B C : List FileOp}
    (hB : B ⊆ A) (hC : C ⊆ M) : (k.dir.applyAll (B ++ C)).deletes = deletesText ids := by
  rw [IndexDir.deletes_applyAll, h.deletes]
  intro op hop
  rcases mem_append.mp hop with hop | hop
  · exact (j.before op (hB hop)).2.1
  · exact isDeletes_of_isManifest (j.middle op (hC hop))

end Journal

theorem DirOk.inv_step (h : DirOk k ids) (st : DirStep) :
    (k.step st).disk.world.Inv ∧ (k.step st).disk.world.FlushOk := by
  cases st with
  | step st => exact ok_step h.inv h.flush st
  | partWritten path => exact ⟨h.inv, h.flush⟩

theorem DirOk.step (h : DirOk k ids) (j : Journal k ids st ids' A M R) : DirOk (k.step st) ids' := by
  obtain ⟨hinv, hflush⟩ := h.inv_step st
  have hdir : (k.step st).dir = k.dir.applyAll (A ++ M ++ R) := congrArg k.dir.applyAll j.ops
  refine ⟨hinv, hflush, j.listed, ?_, fun p hp => ?_, ?_, j.ids_lt, j.deleted⟩
  · rw [hdir, applyAll_append, manifest_applyAll fun op hop => (j.after op hop).1]
    exact j.manifest
  · rw [hdir]
    exact j.segments_applyAll (Subset.refl M) (Subset.refl R) hp
  · rw [hdir, applyAll_append]
    exact (j.deletes _ (j.deletes_applyAll h (Subset.refl A) (Subset.refl M))).1

/-- The crash after `n` operations does not cut a write of the manifest: it has not
begun, or it is complete up to the last newline. -/
def Uncut (k : DirWorld) (st : DirStep) (n : ℕ) : Prop :=
  ((k.disk.fileOps st).take n).countP isManifest = 0 ∨
    (k.disk.fileOps st).countP isManifest ≤
      ((k.disk.fileOps st).take n).countP isManifest + 1

theorem kept_step (h : DirOk k ids) (hkept : k.disk.world.Kept d) (hd : ¬ st.Deletes d) :
    (k.step st).disk.world.Kept d ∧
      (k.disk.world.OnDisk x d → (k.step st).disk.world.OnDisk x d) := by
  cases st with
  | partWritten path => exact ⟨hkept, id⟩
  | step st =>
    cases st with
    | act a left =>
      have hspares : k.disk.world.Spares d a :=
        fun job hjob _ => hkept.2 job (mem_append_right _ hjob)
      refine ⟨kept_step h.inv hkept fun ok heq => ?_, onDisk_step h.inv h.flush.root hspares⟩
      subst heq
      exact hd rfl
    | addSegment segment outcome left =>
      refine ⟨?_, onDisk_addSegment h.inv h.flush.root segment outcome⟩
      show (k.disk.world.addSegment segment outcome).Kept d
      rcases addSegment_cases h.flush.root segment outcome with ⟨-, _, -, hw⟩ | ⟨-, hw⟩
      · rw [hw]
        exact hkept
      · rw [hw]
        exact hkept

def DirStep.Brings (x : XPathId) (d : DocId) : DirStep → Prop
  | .step (.act a _) => ∃ r ∈ IndexAction.added a, r.Holds x d
  | .step (.addSegment segment _ _) => segment.Holds x d
  | .partWritten _ => False

theorem absent_step (h : DirOk k ids) (hbrings : ¬ DirStep.Brings x d st)
    (habsent : ∀ r ∈ k.disk.world.index.readers, ¬ r.Holds x d) :
    ∀ r ∈ (k.step st).disk.world.index.readers, ¬ r.Holds x d := by
  cases st with
  | partWritten path => exact habsent
  | step st =>
    cases st with
    | act a left =>
      obtain ⟨D, -, hregroup⟩ := step_regroup h.inv a
      refine hregroup.none_of_none not_holds_of_gathers fun r hr hholds => ?_
      rcases mem_append.mp hr with hr | hr
      · exact hbrings ⟨r, hr, hholds⟩
      · exact habsent r hr hholds
    | addSegment segment outcome left =>
      show ∀ r ∈ (k.disk.world.addSegment segment outcome).index.readers, ¬ r.Holds x d
      rcases addSegment_cases h.flush.root segment outcome with ⟨-, _, -, hw⟩ | ⟨-, hw⟩
      · rw [hw]
        exact habsent
      · -- the added segment is one more part
        have hnone : ¬ ∃ r ∈ k.disk.world.index.readers, r.Holds x d :=
          fun ⟨r, hr, hholds⟩ => habsent r hr hholds
        rw [exists_readers] at hnone
        rw [hw]
        intro r hr hholds
        rcases (exists_readers (P := fun r => r.Holds x d)).mp ⟨r, hr, hholds⟩ with
          hmem | hgen | ⟨p, hp, hg⟩ | ⟨s, hs, hsx⟩
        · exact hnone (.inl hmem)
        · exact hnone (.inr (.inl hgen))
        · obtain ⟨q, hq, rfl⟩ := mem_map.mp hp
          exact hnone (.inr (.inr (.inl ⟨q, hq, hg⟩)))
        · rcases mem_append.mp hs with hs | hs
          · exact hnone (.inr (.inr (.inr ⟨s, hs, hsx⟩)))
          · rw [mem_singleton.mp hs] at hsx
            exact hbrings (Segment.holds_openWritten.mp hsx)

/-- The tombstones are not cleared while a table holds a deleted id. -/
def ClearsSafely (k : DirWorld) : DirStep → Prop
  | .step (.act a _) => Clears k.disk.world a →
    ∀ x, ∀ d ∈ k.disk.world.index.deleted, ¬ k.disk.world.index.Unflushed x d
  | _ => True

theorem mem_deleted_step (h : DirOk k ids)
    (hc : ∀ a left, st = .step (.act a left) → ¬ Clears k.disk.world a)
    (hd : d ∈ k.disk.world.index.deleted) : d ∈ (k.step st).disk.world.index.deleted := by
  cases st with
  | partWritten path => exact hd
  | step st =>
    cases st with
    | act a left => exact mem_deleted_step h.inv (hc a left rfl) hd
    | addSegment segment outcome left =>
      show d ∈ (k.disk.world.addSegment segment outcome).index.deleted
      rcases addSegment_cases h.flush.root segment outcome with ⟨-, _, -, hw⟩ | ⟨-, hw⟩
      · rw [hw]
        exact hd
      · rw [hw]
        exact hd

theorem hidden_step (h : DirOk k ids) (hsafe : k.ClearsSafely st) (hbrings : ¬ DirStep.Brings x d st)
    (hidden : k.disk.world.index.Hidden x d) : (k.step st).disk.world.index.Hidden x d := by
  rcases hidden_iff.mp hidden with hd | habsent
  · by_cases hc : ∃ a left, st = .step (.act a left) ∧ Clears k.disk.world a
    · obtain ⟨a, left, rfl, hc⟩ := hc
      exact (hidden_of_clears h.inv hc hidden).mpr (hsafe hc x d hd)
    · exact hidden_iff.mpr
        (.inl (mem_deleted_step h (fun a left heq hclears => hc ⟨a, left, heq, hclears⟩) hd))
  · exact hidden_iff.mpr (.inr (absent_step h hbrings habsent))

/-- The step lists a new segment with the id: `complete_flush` returns without an
error, or a segment is added. -/
def Flushes (k : DirWorld) (x : XPathId) (d : DocId) : DirStep → Prop
  | .step (.act (.completeFlush seq writeOk appendOk) _) => writeOk = true ∧
    ∃ job ∈ k.disk.world.writing, job.seq = seq ∧ (∃ g ∈ job.generations, g.Holds x d) ∧
      (k.disk.world.index.completeFlush seq (.ok job.write) appendOk).1 = .ok ()
  | .step (.addSegment segment outcome _) => outcome = .added ∧ segment.Holds x d
  | _ => False

theorem onDisk_of_completeFlush {w : World} (h : w.Inv) (hroot : w.index.hasRoot = true) {job : FlushJob}
    {appendOk : Bool} (hjob : job ∈ w.writing) (hg : ∃ g ∈ job.generations, g.Holds x d)
    (hok : (w.index.completeFlush job.seq (.ok job.write) appendOk).1 = .ok ()) :
    (w.completeFlush job.seq true appendOk).OnDisk x d := by
  have hwrite : job.write.Holds x d := by
    obtain ⟨g, hg, hholds⟩ := hg
    exact ((Reader.gathers_write job).holds x d).mpr
      ⟨Finset.notMem_empty d, .mem g, mem_map_of_mem hg, hholds⟩
  have hfind : w.writing.find? (fun j => j.seq = job.seq) = some job := by
    have hnodup : (w.writing.map FlushJob.seq).Nodup := by
      have hjobs := h.queue.jobs_nodup
      rw [flushJobs, map_append] at hjobs
      exact (nodup_append.mp hjobs).2.1
    cases hf : w.writing.find? fun j => j.seq = job.seq with
    | none => exact absurd (find?_eq_none.mp hf job hjob) (by simp)
    | some j =>
      have hseq : j.seq = job.seq := by simpa using find?_some hf
      rw [inj_on_of_nodup_map hnodup (mem_of_find?_eq_some hf) hjob hseq]
  cases hcomplete : w.index.flushQueue.complete job.seq with
  | error e => simp [LsmIndex.completeFlush, hcomplete] at hok
  | ok done =>
    obtain ⟨front, queue⟩ := done
    have happend : appendOk = true := by
      cases appendOk with
      | true => rfl
      | false =>
        simp [LsmIndex.completeFlush, hcomplete, installFlushed, hroot, Except.bind] at hok
    subst happend
    have hpath := front_path h hjob hcomplete
    refine ⟨job.path, job.write, ?_, ?_, hwrite⟩
    · simp only [World.completeFlush, hfind, LsmIndex.completeFlush, hcomplete, if_true, Except.bind,
        installFlushed, hroot, not_true_eq_false, if_false]
      exact (mem_insertIdx (Nat.sub_le _ _)).mpr (.inl (hpath ▸ rfl))
    · simp only [World.completeFlush, hfind, if_true, get?_insert]

theorem onDisk_of_flushes (h : DirOk k ids) (hflush : k.Flushes x d st) :
    (k.step st).disk.world.OnDisk x d := by
  cases st with
  | partWritten path => exact absurd hflush id
  | step st =>
    cases st with
    | addSegment segment outcome left =>
      obtain ⟨rfl, hholds⟩ := hflush
      show (k.disk.world.addSegment segment .added).OnDisk x d
      rcases addSegment_cases h.flush.root segment .added with ⟨hne, -⟩ | ⟨-, hw⟩
      · exact absurd rfl hne
      · rw [hw]
        refine ⟨k.disk.world.index.nextSegmentId, segment.openWritten, ?_, ?_,
          Segment.holds_openWritten.mpr hholds⟩
        · exact mem_append_right _ mem_cons_self
        · simp only [get?_insert, if_true]
    | act a left =>
      cases a with
      | completeFlush seq writeOk appendOk =>
        obtain ⟨rfl, job, hjob, rfl, hg, hok⟩ := hflush
        exact onDisk_of_completeFlush h.inv h.flush.root hjob hg hok
      | _ => exact absurd hflush id

/-! ### Runs -/

@[simp] theorem run_nil (k : DirWorld) : k.run [] = k := rfl

theorem run_cons (k : DirWorld) (st : DirStep) (steps : List DirStep) :
    k.run (st :: steps) = (k.step st).run steps := rfl

theorem run_append (k : DirWorld) (steps steps' : List DirStep) :
    k.run (steps ++ steps') = (k.run steps).run steps' := foldl_append

/-- The segments and the deletes an index is opened from; a manifest lists no file
twice. -/
structure Listing where
  entries : List (ℕ × Segment)
  ids : List DocId
  nodup : (entries.map Prod.fst).Nodup
  ids_lt : ∀ d ∈ ids, d < 2 ^ 64

def Listing.opened (l : Listing) : DirWorld := start l.entries l.ids

theorem dirOk_opened (l : Listing) : DirOk l.opened l.ids where
  inv := (Fresh.opened l.entries l.ids.toFinset l.nodup).inv
  flush := flushOk_start l.entries l.ids.toFinset
  listed p := by
    rw [mem_live]
    show p ∈ l.entries.map Prod.fst ↔ SegmentHandle.disk p ∈ l.entries.map fun e => .disk e.1
    simp only [mem_map, disk.injEq]
  manifest := rfl
  segments p hp := by
    obtain ⟨e, he, rfl⟩ : ∃ e ∈ l.entries, e.1 = p := by
      rcases hp with hp | ⟨job, hjob, -⟩
      · obtain ⟨e, he, heq⟩ := mem_map.mp (mem_live.mp hp)
        exact ⟨e, he, disk.inj heq⟩
      · cases hjob
    have hsegment := get?_manifest l.nodup he
    have hnodup : ((l.entries.map fun e => (e.1, some e.2)).map Prod.fst).Nodup := by
      rw [map_map]
      exact l.nodup
    have hfile : (empty.extend (fun _ s => s) (l.entries.map fun e => (e.1, some e.2)) :
        SortedMap ℕ (Option Segment)).get? e.1 = some (some e.2) :=
      get?_extend_of_nodup hnodup (mem_map.mpr ⟨e, he, rfl⟩)
    exact hfile.trans (congrArg (Option.map some) hsegment).symm
  deletes := rfl
  ids_lt := l.ids_lt
  deleted d hd := mem_toFinset.mp hd

theorem DirOk.run (h : DirOk k ids) {steps : List DirStep} (hsteps : ∀ st ∈ steps, DirStep.Unfailing st) :
    ∃ ids', DirOk (k.run steps) ids' ∧ ∀ d ∈ ids', d ∈ ids ∨ ∃ st ∈ steps, st.Deletes d := by
  induction steps generalizing k ids with
  | nil => exact ⟨ids, h, fun _ hd => .inl hd⟩
  | cons st steps ih =>
    obtain ⟨ids₁, A, M, R, j⟩ := exists_journal h (hsteps st mem_cons_self)
    obtain ⟨ids₂, h₂, hgrows⟩ := ih (h.step j) fun s hs => hsteps s (mem_cons_of_mem st hs)
    refine ⟨ids₂, h₂, fun d hd => ?_⟩
    rcases hgrows d hd with hd | ⟨s, hs, hdel⟩
    · exact (j.grows d hd).imp_right fun hdel => ⟨st, mem_cons_self, hdel⟩
    · exact .inr ⟨s, mem_cons_of_mem st hs, hdel⟩

theorem kept_run (h : DirOk k ids) {steps : List DirStep} (hsteps : ∀ st ∈ steps, DirStep.Unfailing st)
    (hkept : k.disk.world.Kept d) (hd : ∀ st ∈ steps, ¬ st.Deletes d) :
    (k.run steps).disk.world.Kept d ∧
      (k.disk.world.OnDisk x d → (k.run steps).disk.world.OnDisk x d) := by
  induction steps generalizing k ids with
  | nil => exact ⟨hkept, id⟩
  | cons st steps ih =>
    obtain ⟨ids₁, A, M, R, j⟩ := exists_journal h (hsteps st mem_cons_self)
    obtain ⟨hkept₁, hdisk₁⟩ := kept_step (x := x) h hkept (hd st mem_cons_self)
    obtain ⟨hkept₂, hdisk₂⟩ := ih (h.step j) (fun s hs => hsteps s (mem_cons_of_mem st hs)) hkept₁
      fun s hs => hd s (mem_cons_of_mem st hs)
    exact ⟨hkept₂, fun hdisk => hdisk₂ (hdisk₁ hdisk)⟩

def RunClearsSafely (k : DirWorld) (steps : List DirStep) : Prop :=
  ∀ pre st post, steps = pre ++ st :: post → (k.run pre).ClearsSafely st

theorem hidden_run (h : DirOk k ids) {steps : List DirStep} (hsteps : ∀ st ∈ steps, DirStep.Unfailing st)
    (hsafe : k.RunClearsSafely steps) (hbrings : ∀ st ∈ steps, ¬ DirStep.Brings x d st)
    (hidden : k.disk.world.index.Hidden x d) : (k.run steps).disk.world.index.Hidden x d := by
  induction steps generalizing k ids with
  | nil => exact hidden
  | cons st steps ih =>
    obtain ⟨ids₁, A, M, R, j⟩ := exists_journal h (hsteps st mem_cons_self)
    refine ih (h.step j) (fun s hs => hsteps s (mem_cons_of_mem st hs)) (fun pre s post heq => ?_)
      (fun s hs => hbrings s (mem_cons_of_mem st hs))
      (hidden_step h (hsafe [] st steps rfl) (hbrings st mem_cons_self) hidden)
    exact hsafe (st :: pre) s post (congrArg (cons st) heq)

end DirWorld

/-- A run of an index on disk that ends with a crash after some operations of its
last step. -/
structure CrashRun where
  listing : DirWorld.Listing
  steps : List DirStep
  last : DirStep
  issued : ℕ

namespace CrashRun

open DirWorld List LsmIndex MemIndex

variable {r : CrashRun} {x : XPathId} {d : DocId}

def opened (r : CrashRun) : DirWorld := r.listing.opened

def ended (r : CrashRun) : DirWorld := r.opened.run r.steps

def left (r : CrashRun) : IndexDir := r.ended.crash r.last r.issued

/-- The document was in a segment of the directory at the start, or a flush of it
completed. -/
def Flushed (r : CrashRun) (x : XPathId) (d : DocId) : Prop :=
  r.opened.disk.world.OnDisk x d ∨
    ∃ pre st post, r.steps = pre ++ st :: post ∧ (r.opened.run pre).Flushes x d st

def NotDeleted (r : CrashRun) (d : DocId) : Prop :=
  d ∉ r.listing.ids ∧ ∀ st ∈ r.steps ++ [r.last], ¬ st.Deletes d

/-- A delete of the document returned and no step brought it in again. -/
def Deleted (r : CrashRun) (x : XPathId) (d : DocId) : Prop :=
  (d ∈ r.listing.ids ∧ ∀ st ∈ r.steps ++ [r.last], ¬ DirStep.Brings x d st) ∨
    ∃ pre left post, r.steps = pre ++ .step (.act (.deleteDocument d true) left) :: post ∧
      ∀ st ∈ post ++ [r.last], ¬ DirStep.Brings x d st

/-- The crash cuts no write of the manifest, no such write fails half way, and the
tombstones are not cleared while a table holds a deleted id. -/
structure Clean (r : CrashRun) : Prop where
  unfailing : ∀ st ∈ r.steps ++ [r.last], DirStep.Unfailing st
  clears : r.opened.RunClearsSafely r.steps
  uncut : Uncut r.ended r.last r.issued

theorem Clean.steps (h : r.Clean) : ∀ st ∈ r.steps, DirStep.Unfailing st :=
  fun st hst => h.unfailing st (mem_append_left _ hst)

theorem Flushed.onDisk (hr : r.Clean) (hflushed : r.Flushed x d) (hnot : r.NotDeleted d) :
    r.ended.disk.world.Kept d ∧ r.ended.disk.world.OnDisk x d := by
  have hstart : r.opened.disk.world.Kept d :=
    ⟨fun hd => hnot.1 (mem_toFinset.mp hd), fun job hjob => by cases hjob⟩
  have hsteps : ∀ st ∈ r.steps, ¬ st.Deletes d := fun st hst => hnot.2 st (mem_append_left _ hst)
  obtain ⟨hkept, hdisk⟩ := kept_run (x := x) (dirOk_opened r.listing) hr.steps hstart hsteps
  refine ⟨hkept, ?_⟩
  rcases hflushed with hflushed | ⟨pre, st, post, heq, hflushed⟩
  · exact hdisk hflushed
  · -- from the flush on the document stays on disk
    have hpre : ∀ s ∈ pre, s ∈ r.steps := fun s hs => heq ▸ mem_append_left _ hs
    have hst : st ∈ r.steps := heq ▸ mem_append_right _ mem_cons_self
    have hpost : ∀ s ∈ post, s ∈ r.steps :=
      fun s hs => heq ▸ mem_append_right _ (mem_cons_of_mem st hs)
    obtain ⟨ids₁, h₁, -⟩ := (dirOk_opened r.listing).run fun s hs => hr.steps s (hpre s hs)
    obtain ⟨hkept₁, -⟩ := kept_run (x := x) (dirOk_opened r.listing) (fun s hs => hr.steps s (hpre s hs))
      hstart fun s hs => hsteps s (hpre s hs)
    obtain ⟨ids₂, A, M, R, j⟩ := exists_journal h₁ (hr.steps st hst)
    obtain ⟨hkept₂, -⟩ := kept_step (x := x) h₁ hkept₁ (hsteps st hst)
    have hdone := (kept_run (x := x) (h₁.step j) (fun s hs => hr.steps s (hpost s hs)) hkept₂
      fun s hs => hsteps s (hpost s hs)).2 (onDisk_of_flushes h₁ hflushed)
    rw [← run_cons, ← run_append, ← heq] at hdone
    exact hdone

theorem Deleted.hidden (hr : r.Clean) (hdeleted : r.Deleted x d) :
    r.ended.disk.world.index.Hidden x d ∧ ¬ DirStep.Brings x d r.last := by
  rcases hdeleted with ⟨hd, hbrings⟩ | ⟨pre, left, post, heq, hbrings⟩
  · refine ⟨hidden_run (dirOk_opened r.listing) hr.steps hr.clears
      (fun st hst => hbrings st (mem_append_left _ hst)) ?_,
      hbrings r.last (mem_append_right _ mem_cons_self)⟩
    exact hidden_iff.mpr (.inl (mem_toFinset.mpr hd))
  · refine ⟨?_, hbrings r.last (mem_append_right _ mem_cons_self)⟩
    obtain ⟨del, hdel⟩ : ∃ del, del = DirStep.step (.act (.deleteDocument d true) left) := ⟨_, rfl⟩
    rw [← hdel] at heq
    have hsteps : r.steps = (pre ++ [del]) ++ post := by
      rw [heq, append_assoc, singleton_append]
    have hmem : ∀ s ∈ pre ++ [del], s ∈ r.steps := fun s hs => hsteps ▸ mem_append_left _ hs
    obtain ⟨ids₁, h₁, -⟩ := (dirOk_opened r.listing).run fun s hs => hr.steps s (hmem s hs)
    have hend : r.ended = (r.listing.opened.run (pre ++ [del])).run post := by
      rw [← run_append, ← hsteps]
      rfl
    rw [hend]
    refine hidden_run h₁ (fun s hs => hr.steps s (hsteps ▸ mem_append_right _ hs))
      (fun p s q hpq => ?_) (fun s hs => hbrings s (mem_append_left _ hs)) ?_
    · rw [← run_append]
      refine hr.clears _ s q ?_
      rw [hsteps, hpq, append_assoc (pre ++ [del])]
    · -- the delete itself
      rw [run_append, run_cons, run_nil, hdel]
      exact hidden_iff.mpr (.inl (Finset.mem_insert_self d _))

def written (docId : DocId) : List DirStep :=
  [.step (.act (.mergeIntoMemtable [World.oneWord docId]) []),
    .step (.act (.queueFlush (fun _ => false) true) []), .step (.act .takeFlushJobs [])]

end CrashRun
