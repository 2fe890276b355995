/-
The operations of the steps on the directory.

Every step first writes segment files nothing refers to, then the manifest, and
removes at last what nothing refers to any more.
-/
import Riets.IndexDirectory
import Riets.Resurrection
import Riets.WorkerLoop

open Text List Option

/-! ### Reading the text files -/

theorem segmentName_injective {n p : ℕ} (h : segmentName n = segmentName p) : n = p := by
  rw [segmentName, segmentName, append_left_inj, append_right_inj] at h
  have hparse := parseDecimal_decimal n
  rw [h, parseDecimal_decimal] at hparse
  exact (some_inj.mp hparse).symm

theorem trim_decimal (n : ℕ) : trim (decimal n) = decimal n := by
  have hspace : ∀ b : UInt8, 48 ≤ b.toNat → isSpace b = false := by
    intro b hb
    have h9 : ¬ b ≤ 13 := by
      rw [UInt8.le_iff_toNat_le]
      show ¬ b.toNat ≤ 13
      omega
    have h32 : b ≠ 32 := by
      rintro rfl
      exact absurd hb (by decide)
    simp [isSpace, h9, h32]
  have hkeep : ∀ text : ByteSeq, (∀ b ∈ text, isSpace b = false) → text.dropWhile isSpace = text := by
    intro text htext
    cases text with
    | nil => rfl
    | cons b text => rw [dropWhile_cons, if_neg (by rw [htext b mem_cons_self]; exact Bool.false_ne_true)]
  have hdigits : ∀ b ∈ decimal n, isSpace b = false :=
    fun b hb => hspace b (digit_of_mem_decimal hb).1
  rw [trim, hkeep _ hdigits, hkeep _ fun b hb => hdigits b (mem_reverse.mp hb), reverse_reverse]

theorem parseU64_decimal {n : ℕ} (hn : n < 2 ^ 64) : parseU64 (decimal n) = some n := by
  have hplus : (decimal n).head? ≠ some 43 := by
    intro hhead
    exact absurd (digit_of_mem_decimal (mem_of_head? hhead)) (by decide)
  rw [parseU64, if_neg hplus, parseDecimal_decimal, filter_some, if_pos (by simpa using hn)]

theorem readIds_decimal {ids : List DocId} (hids : ∀ d ∈ ids, d < 2 ^ 64) :
    readIds (ids.map decimal) = some ids.toFinset := by
  have hfold : ∀ (ids : List DocId) (deleted : DeleteSet), (∀ d ∈ ids, d < 2 ^ 64) →
      (ids.map decimal).foldlM (fun deleted id =>
        if trim id = [] then some deleted else (parseU64 (trim id)).map fun d => insert d deleted)
        deleted = some (deleted ∪ ids.toFinset) := by
    intro ids
    induction ids with
    | nil =>
      intro deleted _
      rw [toFinset_nil, Finset.union_empty]
      rfl
    | cons d ids ih =>
      intro deleted hids
      rw [map_cons, foldlM_cons, trim_decimal, if_neg (decimal_ne_nil d),
        parseU64_decimal (hids d mem_cons_self), map_some]
      show (ids.map decimal).foldlM _ (insert d deleted) = _
      rw [ih _ fun e he => hids e (mem_cons_of_mem d he), toFinset_cons,
        Finset.insert_union, Finset.union_insert]
  rw [readIds, hfold ids ∅ hids, Finset.empty_union]

theorem readDeletes_append {ids : List DocId} (hids : ∀ d ∈ ids, d < 2 ^ 64) {rest : ByteSeq}
    (hrest : newline ∉ rest) :
    readDeletes ((ids.flatMap fun d => line (decimal d)) ++ rest) = some ids.toFinset := by
  have htext : (ids.flatMap fun d => line (decimal d)) = (ids.map decimal).flatMap line := by
    rw [flatMap_map]
  have hlines : ∀ text ∈ ids.map decimal, IsLine text := by
    intro text ht
    obtain ⟨d, -, rfl⟩ := mem_map.mp ht
    exact isLine_decimal d
  rw [readDeletes, htext, completeLines_append hrest, lines_flatMap hlines, readIds_decimal hids]

/-! ### Operations on the directory -/

namespace IndexDir

open List SortedMap

variable {dir : IndexDir} {ops : List FileOp}

theorem applyAll_append (dir : IndexDir) (ops ops' : List FileOp) :
    dir.applyAll (ops ++ ops') = (dir.applyAll ops).applyAll ops' := foldl_append

theorem applyAll_cons (dir : IndexDir) (op : FileOp) (ops : List FileOp) :
    dir.applyAll (op :: ops) = (dir.apply op).applyAll ops := rfl

theorem applyAll_frame {α : Type} (part : IndexDir → α)
    (h : ∀ op ∈ ops, ∀ dir : IndexDir, part (dir.apply op) = part dir) : part (dir.applyAll ops) = part dir := by
  induction ops generalizing dir with
  | nil => rfl
  | cons op ops ih => exact (ih fun o ho => h o (mem_cons_of_mem op ho)).trans (h op mem_cons_self dir)

theorem manifest_applyAll (h : ∀ op ∈ ops, op.isManifest = false) :
    (dir.applyAll ops).manifest = dir.manifest := by
  refine applyAll_frame manifest fun op hmem dir => ?_
  have hop := h op hmem
  cases op <;> first | rfl | cases hop

theorem deletes_applyAll (h : ∀ op ∈ ops, op.isDeletes = false) :
    (dir.applyAll ops).deletes = dir.deletes := by
  refine applyAll_frame deletes fun op hmem dir => ?_
  have hop := h op hmem
  cases op <;> first | rfl | cases hop

theorem segments_applyAll {p : ℕ} (h : ∀ op ∈ ops, op.path? ≠ some p) :
    (dir.applyAll ops).segments.get? p = dir.segments.get? p := by
  refine applyAll_frame (fun dir => dir.segments.get? p) fun op hmem dir => ?_
  have hop := h op hmem
  cases op with
  | writeSegment path content =>
    have hne : p ≠ path := fun heq => hop (heq ▸ rfl)
    exact (get?_insert ..).trans (if_neg hne)
  | removeSegment path =>
    have hne : p ≠ path := fun heq => hop (heq ▸ rfl)
    exact (get?_erase ..).trans (if_neg hne)
  | _ => rfl

theorem applyAll_appendManifest (dir : IndexDir) (bytes : ByteSeq) :
    dir.applyAll (bytes.map .appendManifest) = { dir with manifest := dir.manifest ++ bytes } := by
  induction bytes generalizing dir with
  | nil =>
    rw [append_nil]
    rfl
  | cons b bytes ih =>
    rw [map_cons, applyAll_cons, ih]
    show ({ dir with manifest := dir.manifest ++ [b] ++ bytes } : IndexDir) = _
    rw [append_assoc]
    rfl

theorem applyAll_appendDeletes (dir : IndexDir) (bytes : ByteSeq) :
    dir.applyAll (bytes.map .appendDeletes) = { dir with deletes := dir.deletes ++ bytes } := by
  induction bytes generalizing dir with
  | nil =>
    rw [append_nil]
    rfl
  | cons b bytes ih =>
    rw [map_cons, applyAll_cons, ih]
    show ({ dir with deletes := dir.deletes ++ [b] ++ bytes } : IndexDir) = _
    rw [append_assoc]
    rfl

theorem openSegment_eq {p : ℕ} {s : Segment} (h : dir.segments.get? p = some (some s)) :
    dir.openSegment (segmentName p) = some (p, s) := by
  have hmem : (p, some s) ∈ dir.segments.entries := mem_entries.mpr h
  cases hfind : dir.segments.entries.find? fun e => segmentName e.1 = segmentName p with
  | none =>
    have hno := find?_eq_none.mp hfind _ hmem
    simp at hno
  | some e =>
    obtain rfl : e.1 = p := segmentName_injective (by simpa using find?_some hfind)
    have hget := mem_entries.mp (mem_of_find?_eq_some hfind)
    obtain ⟨q, content⟩ := e
    obtain rfl : content = some s := some_inj.mp (hget.symm.trans h)
    rw [openSegment, hfind]

end IndexDir

/-- The directory lists the live segments, has their files and these deletes. -/
structure Consistent (dir : IndexDir) (w : World) (ids : List DocId) : Prop where
  manifest : ∃ paths : List ℕ, readManifest dir.manifest = paths.map segmentName ∧ ∀ p, p ∈ paths ↔ p ∈ w.live
  segments : ∀ p ∈ w.live, dir.segments.get? p = (w.files.get? p).map some
  deletes : readDeletes dir.deletes = some ids.toFinset

theorem mapM_openSegment {dir : IndexDir} {w : World} (h : w.Inv) (paths : List ℕ)
    (hlive : ∀ p ∈ paths, p ∈ w.live)
    (hsegments : ∀ p ∈ w.live, dir.segments.get? p = (w.files.get? p).map some) :
    ∃ segments, (paths.map segmentName).mapM dir.openSegment = some segments ∧
      ∀ p s, (p, s) ∈ segments ↔ p ∈ paths ∧ w.files.get? p = some s := by
  induction paths with
  | nil => exact ⟨[], rfl, fun p s => by simp⟩
  | cons p paths ih =>
    obtain ⟨segments, hsome, hmem⟩ := ih fun q hq => hlive q (mem_cons_of_mem p hq)
    obtain ⟨s, hs⟩ := h.files.exists_file (hlive p mem_cons_self)
    have hopen : dir.openSegment (segmentName p) = some (p, s) := by
      refine IndexDir.openSegment_eq ?_
      rw [hsegments p (hlive p mem_cons_self), hs]
      rfl
    refine ⟨(p, s) :: segments, ?_, fun q t => ?_⟩
    · rw [map_cons, mapM_cons, hopen, hsome]
      rfl
    · rw [mem_cons, hmem, mem_cons, Prod.mk.injEq]
      constructor
      · rintro (⟨rfl, rfl⟩ | ⟨hq, ht⟩)
        · exact ⟨.inl rfl, hs⟩
        · exact ⟨.inr hq, ht⟩
      · rintro ⟨rfl | hq, ht⟩
        · exact .inl ⟨rfl, some_inj.mp (ht.symm.trans hs)⟩
        · exact .inr ⟨hq, ht⟩

theorem Consistent.reopen {dir : IndexDir} {w : World} {ids : List DocId} (h : Consistent dir w ids)
    (hinv : w.Inv) : ∃ i, dir.persistent = some i ∧
      ∀ x d, i.snapshot.Returns x d ↔ d ∉ ids ∧ w.OnDisk x d := by
  obtain ⟨paths, hread, hpaths⟩ := h.manifest
  obtain ⟨segments, hsome, hmem⟩ := mapM_openSegment hinv paths (fun p hp => (hpaths p).mp hp) h.segments
  refine ⟨LsmIndex.persistent segments ids.toFinset, ?_, fun x d => ?_⟩
  · rw [IndexDir.persistent, h.deletes, hread]
    simp only [bind_some, hsome, map_some]
  · rw [IndexSnapshot.returns_iff]
    have hdeleted : d ∉ (LsmIndex.persistent segments ids.toFinset).snapshot.deleted ↔ d ∉ ids := by
      show d ∉ ids.toFinset ↔ _
      rw [List.mem_toFinset]
    refine and_congr hdeleted ?_
    show (∃ r ∈ Reader.mem MemIndex.new :: ((segments.map Prod.snd).map Reader.seg), r.Holds x d) ↔ _
    constructor
    · rintro ⟨r, hr, hholds⟩
      rcases mem_cons.mp hr with rfl | hr
      · exact absurd hholds (MemIndex.not_holds_new x d)
      · obtain ⟨s, hs, rfl⟩ := mem_map.mp hr
        obtain ⟨⟨p, s'⟩, hin, rfl⟩ := mem_map.mp hs
        obtain ⟨hp, hget⟩ := (hmem p s').mp hin
        exact ⟨p, s', World.mem_live.mp ((hpaths p).mp hp), hget, hholds⟩
    · rintro ⟨p, s, hp, hs, hholds⟩
      refine ⟨.seg s, mem_cons_of_mem _ (mem_map_of_mem ?_), hholds⟩
      exact mem_map.mpr ⟨(p, s), (hmem p s).mpr ⟨(hpaths p).mpr (World.mem_live.mpr hp), hs⟩, rfl⟩

/-! ### The operations of a step -/

namespace World

open List

variable {w : World}

/-- The file is live, or the output of a job that waits to be installed. -/
def Protected (w : World) (p : ℕ) : Prop :=
  p ∈ w.live ∨ ∃ job ∈ w.finished, job.outputPath = p

theorem not_protected_pending (h : Inv w) {p : PendingFlush} (hp : p ∈ w.index.flushQueue.pending) :
    ¬ w.Protected p.path := by
  have hpath : p.path ∈ w.index.flushQueue.pending.map PendingFlush.path := mem_map_of_mem hp
  rintro (hlive | ⟨job, hjob, heq⟩)
  · exact h.files.not_live_of_reserved (mem_append_left _ hpath) hlive
  · have hreserved : w.reserved.Nodup := (nodup_append.mp h.files.paths_nodup).2.1
    exact (nodup_append.mp hreserved).2.2 _ hpath _
      (mem_map_of_mem (mem_append_right _ hjob)) heq.symm

theorem not_protected_writing (h : Inv w) {job : FlushJob} (hjob : job ∈ w.writing) :
    ¬ w.Protected job.path := by
  obtain ⟨p, hp, -, hpath, -⟩ := h.queue.flushes job (mem_append_right _ hjob)
  exact hpath ▸ not_protected_pending h hp

theorem not_protected_planned (h : Inv w) {job : CompactionJob} (hjob : job ∈ w.planned) :
    ¬ w.Protected job.outputPath := by
  have hmem : job ∈ w.jobs := mem_append_left _ hjob
  rintro (hlive | ⟨job', hjob', heq⟩)
  · exact h.files.not_live_of_reserved (FilesOk.outputPath_mem hmem) hlive
  · have hreserved : w.reserved.Nodup := (nodup_append.mp h.files.paths_nodup).2.1
    have houtputs : (w.jobs.map CompactionJob.outputPath).Nodup := (nodup_append.mp hreserved).2.1
    rw [jobs, map_append] at houtputs
    exact (nodup_append.mp houtputs).2.2 _ (mem_map_of_mem hjob) _
      (mem_map_of_mem hjob') heq.symm

theorem not_protected_next (h : Inv w) : ¬ w.Protected w.index.nextSegmentId := by
  rintro (hlive | ⟨job, hjob, heq⟩)
  · exact h.files.next_fresh (mem_append_left _ hlive)
  · exact h.files.next_fresh (mem_append_right _
      (heq ▸ FilesOk.outputPath_mem (mem_append_right _ hjob)))

end World

def DirStep.Deletes (d : DocId) : DirStep → Prop
  | .step (.act (.deleteDocument docId _) _) => docId = d
  | _ => False

namespace DirWorld

open List ManifestWorld World IndexDir SortedMap LsmIndex FileOp Option

variable {k : DirWorld} {ids ids' : List DocId} {st : DirStep} {A M R : List FileOp}

def deletesText (ids : List DocId) : ByteSeq := ids.flatMap fun d => line (decimal d)

structure DirOk (k : DirWorld) (ids : List DocId) : Prop where
  inv : k.disk.world.Inv
  flush : k.disk.world.FlushOk
  listed : ∀ p, p ∈ k.disk.manifest ↔ p ∈ k.disk.world.live
  manifest : k.dir.manifest = manifestText k.disk.manifest
  segments : ∀ p, k.disk.world.Protected p → k.dir.segments.get? p = (k.disk.world.files.get? p).map some
  deletes : k.dir.deletes = deletesText ids
  ids_lt : ∀ d ∈ ids, d < 2 ^ 64
  deleted : ∀ d ∈ k.disk.world.index.deleted, d ∈ ids

/-- The operations of a step in three parts: segment files nothing refers to yet, the
manifest, and what nothing refers to any more with the deletes. -/
structure Journal (k : DirWorld) (ids : List DocId) (st : DirStep) (ids' : List DocId)
    (A M R : List FileOp) : Prop where
  ops : k.disk.fileOps st = A ++ M ++ R
  before : ∀ op ∈ A, op.isManifest = false ∧ op.isDeletes = false ∧
    ∀ p, op.path? = some p → ¬ k.disk.world.Protected p
  middle : ∀ op ∈ M, op.isManifest = true
  after : ∀ op ∈ R, op.isManifest = false ∧
    ∀ p, op.path? = some p → ¬ (k.step st).disk.world.Protected p
  segments : ∀ p, (k.step st).disk.world.Protected p →
    (k.dir.applyAll A).segments.get? p = ((k.step st).disk.world.files.get? p).map some
  manifest : (k.dir.applyAll (A ++ M)).manifest = manifestText (k.step st).disk.manifest
  torn : M = [] ∨ (k.dir.applyAll (A ++ M.dropLast)).manifest =
    (manifestText (k.step st).disk.manifest).dropLast
  deletes : ∀ (dir : IndexDir), dir.deletes = deletesText ids →
    (dir.applyAll R).deletes = deletesText ids' ∧
      ∀ n, readDeletes (dir.applyAll (R.take n)).deletes = some ids.toFinset ∨
        readDeletes (dir.applyAll (R.take n)).deletes = some ids'.toFinset
  ids_lt : ∀ d ∈ ids', d < 2 ^ 64
  deleted : ∀ d ∈ (k.step st).disk.world.index.deleted, d ∈ ids'
  grows : ∀ d ∈ ids', d ∈ ids ∨ st.Deletes d
  listed : ∀ p, p ∈ (k.step st).disk.manifest ↔ p ∈ (k.step st).disk.world.live

theorem readDeletes_deletesText (hids : ∀ d ∈ ids, d < 2 ^ 64) :
    readDeletes (deletesText ids) = some ids.toFinset := by
  have hread := readDeletes_append hids (not_mem_nil (a := newline))
  rwa [append_nil] at hread

theorem deletes_same (hids : ∀ d ∈ ids, d < 2 ^ 64) (hR : ∀ op ∈ R, op.isDeletes = false)
    (dir : IndexDir) (hdir : dir.deletes = deletesText ids) :
    (dir.applyAll R).deletes = deletesText ids ∧
      ∀ n, readDeletes (dir.applyAll (R.take n)).deletes = some ids.toFinset ∨
        readDeletes (dir.applyAll (R.take n)).deletes = some ids.toFinset := by
  refine ⟨(deletes_applyAll hR).trans hdir, fun n => .inl ?_⟩
  rw [deletes_applyAll fun op hop => hR op (mem_of_mem_take hop), hdir]
  exact readDeletes_deletesText hids

theorem journal_aside (h : DirOk k ids) (hops : k.disk.fileOps st = A)
    (hA : ∀ op ∈ A, op.isManifest = false ∧ op.isDeletes = false ∧
      ∀ p, op.path? = some p → ¬ k.disk.world.Protected p)
    (hsegments : ∀ p, (k.step st).disk.world.Protected p →
      (k.dir.applyAll A).segments.get? p = ((k.step st).disk.world.files.get? p).map some)
    (hmanifest : (k.step st).disk.manifest = k.disk.manifest)
    (hlive : (k.step st).disk.world.live = k.disk.world.live)
    (hdeleted : (k.step st).disk.world.index.deleted ⊆ k.disk.world.index.deleted) :
    Journal k ids st ids A [] [] where
  ops := by rw [hops, append_nil, append_nil]
  before := hA
  middle _ hop := by cases hop
  after _ hop := by cases hop
  segments := hsegments
  manifest := by
    rw [append_nil, manifest_applyAll fun op hop => (hA op hop).1, h.manifest, hmanifest]
  torn := .inl rfl
  deletes := deletes_same h.ids_lt fun _ hop => by cases hop
  ids_lt := h.ids_lt
  deleted d hd := h.deleted d (hdeleted hd)
  grows _ hd := .inl hd
  listed p := by
    rw [hmanifest, hlive]
    exact h.listed p

theorem journal_silent (h : DirOk k ids) (hops : k.disk.fileOps st = [])
    (hmanifest : (k.step st).disk.manifest = k.disk.manifest)
    (hlive : (k.step st).disk.world.live = k.disk.world.live)
    (hfiles : (k.step st).disk.world.files = k.disk.world.files)
    (hfinished : (k.step st).disk.world.finished ⊆ k.disk.world.finished)
    (hdeleted : (k.step st).disk.world.index.deleted ⊆ k.disk.world.index.deleted) :
    Journal k ids st ids [] [] [] := by
  refine journal_aside h hops (fun _ hop => by cases hop) (fun p hp => ?_) hmanifest hlive hdeleted
  rw [hfiles]
  refine h.segments p (hp.imp (fun hp => hlive ▸ hp) fun ⟨job, hjob, heq⟩ => ⟨job, hfinished hjob, heq⟩)

theorem aside_writes {path : ℕ} (hpath : ¬ k.disk.world.Protected path) (contents : List (Option Segment)) :
    ∀ op ∈ contents.map (writeSegment path), op.isManifest = false ∧ op.isDeletes = false ∧
      ∀ p, op.path? = some p → ¬ k.disk.world.Protected p := by
  intro op hop
  obtain ⟨content, -, rfl⟩ := mem_map.mp hop
  refine ⟨rfl, rfl, fun p hp => ?_⟩
  obtain rfl := some_inj.mp hp
  exact hpath

theorem segments_writes (h : DirOk k ids) (path : ℕ) (segment : Segment) {p : ℕ}
    (hp : p ≠ path → k.disk.world.Protected p) :
    ((k.dir.segments.insert path none).insert path (some segment)).get? p =
      ((k.disk.world.files.insert path segment).get? p).map some := by
  rw [get?_insert, get?_insert, get?_insert]
  by_cases heq : p = path
  · rw [if_pos heq, if_pos heq]
    rfl
  · rw [if_neg heq, if_neg heq, if_neg heq]
    exact h.segments p (hp heq)

theorem journal_torn (h : DirOk k ids) (path : ℕ) (hops : k.disk.fileOps st = [.writeSegment path none])
    (hpath : ¬ k.disk.world.Protected path)
    (hprotected : ∀ p, (k.step st).disk.world.Protected p → k.disk.world.Protected p)
    (hmanifest : (k.step st).disk.manifest = k.disk.manifest)
    (hlive : (k.step st).disk.world.live = k.disk.world.live)
    (hfiles : (k.step st).disk.world.files = k.disk.world.files)
    (hdeleted : (k.step st).disk.world.index.deleted = k.disk.world.index.deleted) :
    Journal k ids st ids [.writeSegment path none] [] [] := by
  refine journal_aside h hops (aside_writes hpath [none]) (fun p hp => ?_) hmanifest hlive hdeleted.subset
  have hne : p ≠ path := fun heq => hpath (heq ▸ hprotected p hp)
  show (k.dir.segments.insert path none).get? p = _
  rw [get?_insert, if_neg hne, hfiles]
  exact h.segments p (hprotected p hp)

theorem journal_written (h : DirOk k ids) (path : ℕ) (segment : Segment)
    (hops : k.disk.fileOps st = [.writeSegment path none, .writeSegment path (some segment)])
    (hpath : ¬ k.disk.world.Protected path)
    (hprotected : ∀ p, (k.step st).disk.world.Protected p → p = path ∨ k.disk.world.Protected p)
    (hmanifest : (k.step st).disk.manifest = k.disk.manifest)
    (hlive : (k.step st).disk.world.live = k.disk.world.live)
    (hfiles : (k.step st).disk.world.files = k.disk.world.files.insert path segment)
    (hdeleted : (k.step st).disk.world.index.deleted = k.disk.world.index.deleted) :
    Journal k ids st ids [.writeSegment path none, .writeSegment path (some segment)] [] [] := by
  refine journal_aside h hops (aside_writes hpath [none, some segment]) (fun p hp => ?_) hmanifest hlive
    hdeleted.subset
  rw [hfiles]
  exact segments_writes h path segment (hprotected p hp).resolve_left

theorem journal_listed (h : DirOk k ids) (path : ℕ) (segment : Segment)
    (hops : k.disk.fileOps st = [.writeSegment path none, .writeSegment path (some segment)] ++
      appendOps path)
    (hpath : ¬ k.disk.world.Protected path)
    (hmanifest : (k.step st).disk.manifest = k.disk.manifest ++ [path])
    (hlive : ∀ p, p ∈ (k.step st).disk.world.live ↔ p = path ∨ p ∈ k.disk.world.live)
    (hfiles : (k.step st).disk.world.files = k.disk.world.files.insert path segment)
    (hfinished : (k.step st).disk.world.finished = k.disk.world.finished)
    (hdeleted : (k.step st).disk.world.index.deleted = k.disk.world.index.deleted) :
    Journal k ids st ids [.writeSegment path none, .writeSegment path (some segment)]
      (appendOps path) [] where
  ops := by rw [hops, append_nil]
  before := aside_writes hpath [none, some segment]
  middle op hop := by
    obtain ⟨b, -, rfl⟩ := mem_map.mp hop
    rfl
  after _ hop := by cases hop
  segments p hp := by
    rw [hfiles]
    refine segments_writes h path segment fun hne => ?_
    exact hp.imp (fun hp => ((hlive p).mp hp).resolve_left hne) fun hp => hfinished ▸ hp
  manifest := by
    rw [applyAll_append, appendOps, applyAll_appendManifest, hmanifest]
    show k.dir.manifest ++ line (segmentName path) = _
    rw [h.manifest, manifestText, manifestText, flatMap_append, flatMap_singleton]
  torn := by
    right
    have hne : line (segmentName path) ≠ [] :=
      append_ne_nil_of_right_ne_nil _ (cons_ne_nil _ _)
    rw [applyAll_append, appendOps, ← map_dropLast, applyAll_appendManifest, hmanifest]
    show k.dir.manifest ++ (line (segmentName path)).dropLast = _
    rw [h.manifest, manifestText, manifestText, flatMap_append, flatMap_singleton,
      dropLast_append_of_ne_nil hne]
  deletes := deletes_same h.ids_lt fun _ hop => by cases hop
  ids_lt := h.ids_lt
  deleted d hd := h.deleted d (hdeleted ▸ hd)
  grows _ hd := .inl hd
  listed p := by
    rw [hmanifest, mem_append, mem_singleton, hlive, h.listed]
    exact or_comm

theorem completeFlush_failed {w : World} {seq : ℕ} (appendOk : Bool) {job : FlushJob}
    (hfind : w.writing.find? (fun job => job.seq = seq) = some job) :
    ∃ i, i.segmentHandles.filterMap SegmentHandle.path? = w.live ∧ i.deleted = w.index.deleted ∧
      w.completeFlush seq false appendOk =
        { w with index := i, writing := w.writing.filter fun job => job.seq ≠ seq } := by
  refine ⟨(w.index.completeFlush seq (.error "write segment") appendOk).2, ?_, ?_, ?_⟩
  · rw [LsmIndex.completeFlush]
    cases w.index.flushQueue.complete seq with
    | error e => rfl
    | ok done => exact live_memory _ _
  · rw [LsmIndex.completeFlush]
    cases w.index.flushQueue.complete seq with
    | error e => rfl
    | ok done => rfl
  · simp only [World.completeFlush, hfind]
    rfl

theorem front_path {w : World} (h : w.Inv) {job : FlushJob} (hjob : job ∈ w.writing)
    {front : PendingFlush} {queue : FlushQueue}
    (hcomplete : w.index.flushQueue.complete job.seq = .ok (front, queue)) : front.path = job.path := by
  obtain ⟨rest, hpending, hfront, -⟩ := ManifestWorld.complete_eq_ok hcomplete
  obtain ⟨p, hp, hpseq, hppath, -⟩ := h.queue.flushes job (mem_append_right _ hjob)
  have hnodup := h.queue.seqs_nodup
  rw [hpending] at hp hnodup
  rcases mem_cons.mp hp with rfl | hp
  · exact hppath
  · have hin : p.seq ∈ rest.map PendingFlush.seq := mem_map_of_mem hp
    rw [hpseq, ← hfront] at hin
    exact absurd hin (nodup_cons.mp hnodup).1

theorem journal_completeFlush (h : DirOk k ids) (seq : ℕ) (left : List ℕ) {writeOk appendOk : Bool}
    (hflags : writeOk = true → appendOk = true) :
    ∃ A M, Journal k ids (.step (.act (.completeFlush seq writeOk appendOk) left)) ids A M [] := by
  cases hfind : k.disk.world.writing.find? fun job => job.seq = seq with
  | none =>
    have hworld : k.disk.world.completeFlush seq writeOk appendOk = k.disk.world := by
      rw [World.completeFlush, hfind]
    refine ⟨[], [], journal_silent h ?_ ?_ ?_ ?_ ?_ ?_⟩
    · simp only [fileOps, flushOps, hfind]
    · simp only [step, ManifestWorld.step, manifestAfter, hfind]
    all_goals simp only [step, ManifestWorld.step, World.step, hworld]
    · exact fun _ hj => hj
    · exact fun _ hd => hd
  | some job =>
    have hjob : job ∈ k.disk.world.writing := mem_of_find?_eq_some hfind
    have hseq : job.seq = seq := by simpa using find?_some hfind
    have hpath := not_protected_writing h.inv hjob
    cases writeOk with
    | false =>
      -- the file stays as it is, and the tables stay in memory
      obtain ⟨i, hlive, hdeleted, hw⟩ := completeFlush_failed appendOk hfind
      refine ⟨_, _, journal_torn h job.path ?_ hpath (fun p hp => ?_) ?_ ?_ ?_ ?_⟩
      · simp only [fileOps, flushOps, hfind]
        rfl
      · simp only [step, ManifestWorld.step, World.step, hw] at hp
        exact hp.imp_left fun hp => hlive ▸ hp
      · simp only [step, ManifestWorld.step, manifestAfter, hfind]
        split
        · rfl
        · rfl
      · simp only [step, ManifestWorld.step, World.step, hw]
        exact hlive
      · simp only [step, ManifestWorld.step, World.step, hw]
      · simp only [step, ManifestWorld.step, World.step, hw, hdeleted]
    | true =>
      obtain rfl := hflags rfl
      cases hcomplete : k.disk.world.index.flushQueue.complete seq with
      | error e =>
        refine ⟨_, _, journal_written h job.path job.write ?_ hpath (fun p hp => .inr ?_) ?_ ?_ ?_ ?_⟩
        · simp only [fileOps, flushOps, hfind, hcomplete]
          rfl
        · simp only [step, ManifestWorld.step, World.step, World.completeFlush, hfind,
            LsmIndex.completeFlush, hcomplete] at hp
          exact hp
        · simp only [step, ManifestWorld.step, manifestAfter, hfind, hcomplete]
        · simp only [step, ManifestWorld.step, World.step, World.completeFlush, hfind,
            LsmIndex.completeFlush, hcomplete]
          rfl
        · simp only [step, ManifestWorld.step, World.step, World.completeFlush, hfind, if_true]
        · simp only [step, ManifestWorld.step, World.step, World.completeFlush, hfind,
            LsmIndex.completeFlush, hcomplete]
      | ok done =>
        obtain ⟨front, queue⟩ := done
        have hsame : front.path = job.path := front_path h.inv hjob (hseq ▸ hcomplete)
        refine ⟨_, _, journal_listed h job.path job.write ?_ hpath ?_ (fun p => ?_) ?_ ?_ ?_⟩
        · simp only [fileOps, flushOps, hfind, hcomplete, h.flush.root, hsame]
          rfl
        · simp only [step, ManifestWorld.step, manifestAfter, hfind, hcomplete, h.flush.root, hsame]
          rfl
        · simp only [step, ManifestWorld.step, World.step, World.completeFlush, hfind,
            LsmIndex.completeFlush, hcomplete, installFlushed, h.flush.root]
          rw [mem_live, mem_live]
          refine (mem_insertIdx (Nat.sub_le _ _)).trans (or_congr_left ?_)
          rw [SegmentHandle.disk.injEq, hsame]
        · simp only [step, ManifestWorld.step, World.step, World.completeFlush, hfind, if_true]
        · simp only [step, ManifestWorld.step, World.step, World.completeFlush, hfind]
        · simp only [step, ManifestWorld.step, World.step, World.completeFlush, hfind,
            LsmIndex.completeFlush, hcomplete, installFlushed, h.flush.root]
          rfl

variable {left : List ℕ}

theorem journal_deleteDocument (h : DirOk k ids) {docId : DocId} (hid : docId < 2 ^ 64) :
    Journal k ids (.step (.act (.deleteDocument docId true) left)) (ids ++ [docId]) [] []
      ((line (decimal docId)).map .appendDeletes) where
  ops := rfl
  before _ hop := by cases hop
  middle _ hop := by cases hop
  after op hop := by
    obtain ⟨b, -, rfl⟩ := mem_map.mp hop
    exact ⟨rfl, fun p hp => by cases hp⟩
  segments := h.segments
  manifest := h.manifest
  torn := .inl rfl
  deletes dir hdir := by
    have hall : ∀ d ∈ ids ++ [docId], d < 2 ^ 64 := by
      intro d hd
      rcases mem_append.mp hd with hd | hd
      · exact h.ids_lt d hd
      · exact mem_singleton.mp hd ▸ hid
    have htext : deletesText ids ++ line (decimal docId) = deletesText (ids ++ [docId]) := by
      rw [deletesText, deletesText, flatMap_append, flatMap_singleton]
    refine ⟨?_, fun n => ?_⟩
    · rw [applyAll_appendDeletes]
      show dir.deletes ++ _ = _
      rw [hdir, htext]
    · rw [← map_take, applyAll_appendDeletes]
      show readDeletes (dir.deletes ++ _) = _ ∨ readDeletes (dir.deletes ++ _) = _
      rw [hdir]
      rcases Nat.lt_or_ge n (line (decimal docId)).length with hn | hn
      · -- the newline is not there yet
        left
        have htake : (line (decimal docId)).take n = (decimal docId).take n := by
          rw [line, length_append, length_singleton] at hn
          rw [line, take_append_of_le_length (by omega)]
        rw [htake]
        refine readDeletes_append h.ids_lt fun hin => ?_
        exact (isLine_decimal docId).newline (mem_of_mem_take hin)
      · right
        rw [take_of_length_le hn, htext]
        exact readDeletes_deletesText hall
  ids_lt d hd := by
    rcases mem_append.mp hd with hd | hd
    · exact h.ids_lt d hd
    · exact mem_singleton.mp hd ▸ hid
  deleted d hd := by
    rcases Finset.mem_insert.mp hd with rfl | hd
    · exact mem_append_right _ (mem_singleton.mpr rfl)
    · exact mem_append_left _ (h.deleted d hd)
  grows d hd := by
    rcases mem_append.mp hd with hd | hd
    · exact .inl hd
    · exact .inr (mem_singleton.mp hd).symm
  listed := h.listed

theorem journal_runCompaction (h : DirOk k ids) (jobId : ℕ) (ok : Bool) (left : List ℕ) :
    ∃ A, Journal k ids (.step (.act (.runCompaction jobId ok) left)) ids A [] [] := by
  cases hfind : k.disk.world.planned.find? fun job => job.jobId = jobId with
  | none =>
    have hw : k.disk.world.runCompaction jobId ok = k.disk.world := by
      rw [runCompaction, hfind]
    refine ⟨[], journal_silent h ?_ rfl ?_ ?_ ?_ ?_⟩
    · simp only [fileOps, compactionOps, hfind]
    all_goals simp only [step, ManifestWorld.step, World.step, hw]
    · exact fun _ hj => hj
    · exact fun _ hd => hd
  | some job =>
    have hpath := not_protected_planned h.inv (find_job hfind).1
    cases hopened : (if ok then job.selected.mapM (openHandle k.disk.world.files) else none) with
    | none =>
      refine ⟨[], journal_silent h ?_ rfl ?_ ?_ ?_ ?_⟩
      · simp only [fileOps, compactionOps, hfind, hopened]
      all_goals simp only [step, ManifestWorld.step, World.step, runCompaction, hfind, hopened]
      · rfl
      · exact fun _ hj => hj
      · exact fun _ hd => hd
    | some opened =>
      cases hfile : Compaction.compactSegments opened job.deleted with
      | none =>
        refine ⟨[], journal_silent h ?_ rfl ?_ ?_ ?_ ?_⟩
        · simp only [fileOps, compactionOps, hfind, hopened, hfile]
        all_goals
          simp only [step, ManifestWorld.step, World.step, runCompaction, hfind, hopened, hfile]
        · rfl
        · exact fun _ hj => hj
        · exact fun _ hd => hd
      | some file =>
        refine ⟨_, journal_written h job.outputPath file.open ?_ hpath (fun p hp => ?_) rfl ?_ ?_ ?_⟩
        · simp only [fileOps, compactionOps, hfind, hopened, hfile]
        · simp only [step, ManifestWorld.step, World.step, runCompaction, hfind, hopened,
            hfile] at hp
          rcases hp with hp | ⟨job', hjob', heq⟩
          · exact .inr (.inl hp)
          · rcases mem_append.mp hjob' with hjob' | hjob'
            · exact .inr (.inr ⟨job', hjob', heq⟩)
            · exact .inl (heq ▸ mem_singleton.mp hjob' ▸ rfl)
        all_goals
          simp only [step, ManifestWorld.step, World.step, runCompaction, hfind, hopened, hfile]
        · rfl

theorem journal_addSegment (h : DirOk k ids) (segment : Segment) (left : List ℕ) {outcome : AddOutcome}
    (hflags : outcome ≠ .appendFailed) :
    ∃ A M, Journal k ids (.step (.addSegment segment outcome left)) ids A M [] := by
  have hpath := not_protected_next h.inv
  have hroot := h.flush.root
  cases outcome with
  | appendFailed => exact absurd rfl hflags
  | writeFailed =>
    refine ⟨_, _, journal_torn h k.disk.world.index.nextSegmentId rfl hpath (fun p hp => ?_) ?_ ?_ ?_ ?_⟩
    · simp only [step, ManifestWorld.step, addSegment, addImmutableSegment, hroot] at hp
      exact hp
    all_goals
      simp only [step, ManifestWorld.step, addSegment, addImmutableSegment, hroot]
      rfl
  | openFailed =>
    refine ⟨_, _, journal_written h k.disk.world.index.nextSegmentId segment.openWritten rfl hpath
      (fun p hp => .inr ?_) ?_ ?_ ?_ ?_⟩
    · simp only [step, ManifestWorld.step, addSegment, addImmutableSegment, hroot] at hp
      exact hp
    all_goals
      simp only [step, ManifestWorld.step, addSegment, addImmutableSegment, hroot]
      rfl
  | added =>
    refine ⟨_, _, journal_listed h k.disk.world.index.nextSegmentId segment.openWritten rfl hpath ?_
      (fun p => ?_) ?_ ?_ ?_⟩
    · simp only [step, ManifestWorld.step, hroot]
      rfl
    · simp only [step, ManifestWorld.step, addSegment, addImmutableSegment, hroot]
      rw [mem_live, mem_live]
      refine mem_append.trans (or_comm.trans (or_congr_left ?_))
      rw [mem_singleton, SegmentHandle.disk.injEq]
    · simp only [step, ManifestWorld.step, addSegment, hroot]
      rfl
    · rfl
    · simp only [step, ManifestWorld.step, addSegment, addImmutableSegment, hroot]
      rfl

theorem journal_partWritten (h : DirOk k ids) (path : ℕ) :
    ∃ A, Journal k ids (.partWritten path) ids A [] [] := by
  by_cases hin : path ∈ k.disk.world.writing.map FlushJob.path ++
      k.disk.world.planned.map CompactionJob.outputPath
  · have hpath : ¬ k.disk.world.Protected path := by
      rcases mem_append.mp hin with hin | hin
      · obtain ⟨job, hjob, rfl⟩ := mem_map.mp hin
        exact not_protected_writing h.inv hjob
      · obtain ⟨job, hjob, rfl⟩ := mem_map.mp hin
        exact not_protected_planned h.inv hjob
    exact ⟨_, journal_torn h path (if_pos hin) hpath (fun _ hp => hp) rfl rfl rfl rfl⟩
  · exact ⟨_, journal_silent h (if_neg hin) rfl rfl rfl (fun _ hj => hj) fun _ hd => hd⟩

variable {jobId : ℕ} {openOk clearOk : Bool} {job : CompactionJob}

theorem journal_stale (h : DirOk k ids) {manifestOk : Bool}
    (hfind : k.disk.world.finished.find? (fun job => job.jobId = jobId) = some job)
    (hstale : k.disk.world.index.isStale job.completed = true) :
    Journal k ids (.step (.act (.installCompaction jobId openOk manifestOk clearOk) left)) ids [] []
      [.removeSegment job.outputPath] := by
  obtain ⟨hjob, rfl⟩ := find_job hfind
  have hmem : job ∈ k.disk.world.jobs := mem_append_right _ hjob
  have hw : k.disk.world.installCompaction job.jobId openOk manifestOk clearOk =
      { k.disk.world with
        files := k.disk.world.files.erase job.outputPath
        finished := k.disk.world.finished.filter fun j => j.jobId ≠ job.jobId } := by
    simp only [World.installCompaction, hfind, LsmIndex.installCompaction, h.flush.root, hstale]
    rfl
  have hgone : ∀ p, (k.disk.world.step
      (.installCompaction job.jobId openOk manifestOk clearOk)).Protected p →
        p ≠ job.outputPath ∧ k.disk.world.Protected p := by
    intro p hp
    simp only [World.step, hw] at hp
    rcases hp with hp | ⟨job', hjob', rfl⟩
    · refine ⟨?_, .inl hp⟩
      rintro rfl
      exact h.inv.files.not_live_of_reserved (FilesOk.outputPath_mem hmem) hp
    · obtain ⟨hjob', hne⟩ := mem_filter.mp hjob'
      refine ⟨fun heq => ?_, .inr ⟨job', hjob', rfl⟩⟩
      obtain rfl := h.inv.files.outputPath_inj (mem_append_right _ hjob') hmem heq
      simp at hne
  have hmanifest : (k.step (.step (.act
      (.installCompaction job.jobId openOk manifestOk clearOk) left))).disk.manifest =
        k.disk.manifest := by
    simp [step, ManifestWorld.step, manifestAfter, hfind, hstale]
  refine ⟨?_, (fun _ hop => by cases hop), (fun _ hop => by cases hop), fun op hop => ?_, fun p hp => ?_,
    ?_, .inl rfl, deletes_same h.ids_lt fun op hop => ?_, h.ids_lt, ?_, fun _ hd => .inl hd, ?_⟩
  · simp only [fileOps, installOps, hfind, hstale]
    rfl
  · obtain rfl := mem_singleton.mp hop
    refine ⟨rfl, fun p hp hprotected => ?_⟩
    obtain rfl := some_inj.mp hp
    exact (hgone _ hprotected).1 rfl
  · obtain ⟨hne, hp'⟩ := hgone p hp
    show k.dir.segments.get? p = ((k.disk.world.installCompaction _ _ _ _).files.get? p).map some
    rw [hw]
    show _ = ((k.disk.world.files.erase job.outputPath).get? p).map some
    rw [get?_erase, if_neg hne]
    exact h.segments p hp'
  · rw [hmanifest]
    exact h.manifest
  · obtain rfl := mem_singleton.mp hop
    rfl
  · simp only [step, ManifestWorld.step, World.step, hw]
    exact h.deleted
  · intro p
    rw [hmanifest]
    simp only [step, ManifestWorld.step, World.step, hw]
    exact h.listed p

theorem installCompaction_installed {w : World} (hroot : w.index.hasRoot = true)
    {c : Bool} {disk : Segment}
    (hfind : w.finished.find? (fun job => job.jobId = jobId) = some job)
    (hfresh : w.index.isStale job.completed = false) (hout : w.output job openOk = .ok disk) :
    w.installCompaction jobId openOk true c =
      { w with
        index := { w.index.replaceSelected job.completed disk with
          deleted := if w.index.mergedAll job.completed ∧
              job.deleteGeneration = w.index.deleteGeneration then ∅
            else w.index.deleted }
        files := removeSelected w.files job.selected
        finished := w.finished.filter fun j => j.jobId ≠ jobId } := by
  simp only [World.installCompaction, hfind, LsmIndex.installCompaction, hroot, hfresh, hout]
  by_cases hclears : w.index.mergedAll job.completed = true ∧
      job.deleteGeneration = w.index.deleteGeneration
  · rw [if_pos hclears]
    have hclears' : w.index.mergedAll job.completed = true ∧
        job.completed.deleteGeneration = w.index.deleteGeneration := hclears
    simp [hclears', Except.isOk, Except.toBool]
  · rw [if_neg hclears]
    have hclears' : ¬ (w.index.mergedAll job.completed = true ∧
        job.completed.deleteGeneration = w.index.deleteGeneration) := hclears
    simp [hclears', Except.isOk, Except.toBool]
    rfl

theorem protected_installed (h : DirOk k ids)
    {disk : Segment}
    (hfind : k.disk.world.finished.find? (fun job => job.jobId = jobId) = some job)
    (hfresh : k.disk.world.index.isStale job.completed = false)
    (hout : k.disk.world.output job openOk = .ok disk) {p : ℕ}
    (hp : (k.disk.world.installCompaction jobId openOk true clearOk).Protected p) :
    k.disk.world.Protected p ∧ .disk p ∉ job.selected := by
  obtain ⟨hjob, rfl⟩ := find_job hfind
  have hmem : job ∈ k.disk.world.jobs := mem_append_right _ hjob
  obtain ⟨stay, hperm, hins, hdisj⟩ := h.inv.files.replaced hjob hfresh disk
  rw [installCompaction_installed h.flush.root hfind hfresh hout] at hp
  rcases hp with hp | ⟨job', hjob', rfl⟩
  · rcases mem_cons.mp (hins.mem_iff.mp (mem_live.mp hp)) with heq | hstay
    · obtain rfl := SegmentHandle.disk.inj heq
      exact ⟨.inr ⟨job, hjob, rfl⟩, fun hsel => h.inv.files.ne_outputPath hmem hmem hsel rfl⟩
    · refine ⟨.inl (mem_live.mpr ?_), fun hsel => hdisj _ hsel hstay⟩
      exact hperm.mem_iff.mpr (mem_append_right _ hstay)
  · obtain ⟨hjob', -⟩ := mem_filter.mp hjob'
    refine ⟨.inr ⟨job', hjob', rfl⟩, fun hsel => ?_⟩
    exact h.inv.files.ne_outputPath hmem (mem_append_right _ hjob') hsel rfl

theorem deletes_cleared (hids : ∀ d ∈ ids, d < 2 ^ 64) (hR : ∀ op ∈ R, op.isDeletes = false)
    (dir : IndexDir) (hdir : dir.deletes = deletesText ids) :
    (dir.applyAll (R ++ [.removeDeletes])).deletes = deletesText [] ∧
      ∀ n, readDeletes (dir.applyAll ((R ++ [removeDeletes]).take n)).deletes =
          some ids.toFinset ∨
        readDeletes (dir.applyAll ((R ++ [removeDeletes]).take n)).deletes =
          some ([] : List DocId).toFinset := by
  have hall : (dir.applyAll (R ++ [.removeDeletes])).deletes = [] := by
    rw [applyAll_append]
    rfl
  refine ⟨hall, fun n => ?_⟩
  rcases Nat.lt_or_ge R.length n with hn | hn
  · right
    rw [take_of_length_le (by rw [length_append]; exact hn), hall]
    rfl
  · left
    rw [take_append_of_le_length hn,
      deletes_applyAll fun op hop => hR op (mem_of_mem_take hop), hdir]
    exact readDeletes_deletesText hids

theorem journal_installed (h : DirOk k ids)
    {disk : Segment}
    (hfind : k.disk.world.finished.find? (fun job => job.jobId = jobId) = some job)
    (hfresh : k.disk.world.index.isStale job.completed = false)
    (hout : k.disk.world.output job openOk = .ok disk) :
    ∃ ids' M R, Journal k ids (.step (.act (.installCompaction jobId openOk true clearOk) left)) ids'
      [] M R := by
  obtain ⟨hjob, hid⟩ := find_job hfind
  obtain ⟨stay, -, hins, -⟩ := h.inv.files.replaced hjob hfresh disk
  have hw := installCompaction_installed (c := clearOk) h.flush.root hfind hfresh hout
  set w := k.disk.world.installCompaction jobId openOk true clearOk with hwdef
  have hmanifest : (k.step (.step (.act
      (.installCompaction jobId openOk true clearOk) left))).disk.manifest = w.live := by
    simp [step, ManifestWorld.step, manifestAfter, hfind, hfresh, hout, h.flush.root,
      Except.isOk, Except.toBool, World.step, ← hwdef]
  have htext : manifestText w.live ≠ [] := by
    have hlive : job.outputPath ∈ w.live := by
      rw [mem_live, hw]
      exact hins.mem_iff.mpr mem_cons_self
    obtain ⟨front, back, hsplit⟩ := append_of_mem hlive
    rw [hsplit, manifestText, flatMap_append, flatMap_cons]
    exact append_ne_nil_of_right_ne_nil _ (append_ne_nil_of_left_ne_nil
      (append_ne_nil_of_right_ne_nil _ (cons_ne_nil _ _)) _)
  have hprotected : ∀ p, w.Protected p → k.disk.world.Protected p ∧ .disk p ∉ job.selected :=
    fun p hp => protected_installed h hfind hfresh hout hp
  obtain ⟨removals, hdef⟩ : ∃ removals, removals =
      (job.selected.filterMap SegmentHandle.path?).map removeSegment := ⟨_, rfl⟩
  have hremovals : ∀ op ∈ removals, op.isManifest = false ∧ op.isDeletes = false ∧ ∀ p, op.path? = some p → ¬ w.Protected p := by
    intro op hop
    rw [hdef] at hop
    obtain ⟨p, hp, rfl⟩ := mem_map.mp hop
    obtain ⟨handle, hh, hpath⟩ := mem_filterMap.mp hp
    refine ⟨rfl, rfl, fun q hq hprot => (hprotected q hprot).2 ?_⟩
    obtain rfl := some_inj.mp hq
    cases handle with
    | memory _ => cases hpath
    | disk q =>
      obtain rfl := some_inj.mp hpath
      exact hh
  -- what does not depend on whether the deletes are removed
  have hjournal : ∀ (ids' : List DocId) (clear : List FileOp),
      k.disk.fileOps (.step (.act (.installCompaction jobId openOk true clearOk) left)) =
        [] ++ (.truncateManifest :: (manifestText w.live).map .appendManifest) ++ (removals ++ clear) →
      (∀ op ∈ clear, op.isManifest = false ∧ op.path? = none) →
      (∀ (dir : IndexDir), dir.deletes = deletesText ids →
        (dir.applyAll (removals ++ clear)).deletes = deletesText ids' ∧
          ∀ n, readDeletes (dir.applyAll ((removals ++ clear).take n)).deletes = some ids.toFinset ∨
            readDeletes (dir.applyAll ((removals ++ clear).take n)).deletes = some ids'.toFinset) →
      (∀ d ∈ ids', d ∈ ids) → (∀ d ∈ w.index.deleted, d ∈ ids') →
      Journal k ids (.step (.act (.installCompaction jobId openOk true clearOk) left)) ids' []
        (.truncateManifest :: (manifestText w.live).map .appendManifest) (removals ++ clear) := by
    intro ids' clear hops hclear hdeletes hsub hdeleted
    refine ⟨hops, (fun _ hop => by cases hop), fun op hop => ?_, fun op hop => ?_, fun p hp => ?_, ?_, ?_,
      hdeletes, fun d hd => h.ids_lt d (hsub d hd), hdeleted, fun d hd => .inl (hsub d hd), fun p => ?_⟩
    · rcases mem_cons.mp hop with rfl | hop
      · rfl
      · obtain ⟨b, -, rfl⟩ := mem_map.mp hop
        rfl
    · rcases mem_append.mp hop with hop | hop
      · exact ⟨(hremovals op hop).1, (hremovals op hop).2.2⟩
      · refine ⟨(hclear op hop).1, fun p hp => ?_⟩
        rw [(hclear op hop).2] at hp
        cases hp
    · obtain ⟨hbefore, hnot⟩ := hprotected p hp
      show k.dir.segments.get? p = (w.files.get? p).map some
      have hfile : w.files.get? p = k.disk.world.files.get? p := by
        rw [hw]
        show (removeSelected k.disk.world.files job.selected).get? p = _
        rw [removeSelected, get?_filter]
        cases k.disk.world.files.get? p <;> simp [Option.filter, hnot]
      rw [hfile]
      exact h.segments p hbefore
    · rw [hmanifest, nil_append, applyAll_cons, applyAll_appendManifest]
      rfl
    · right
      have hne : (manifestText w.live).map appendManifest ≠ [] := by
        rwa [ne_eq, map_eq_nil_iff]
      rw [hmanifest, nil_append, dropLast_cons_of_ne_nil hne, ← map_dropLast,
        applyAll_cons, applyAll_appendManifest]
      rfl
    · rw [hmanifest]
      rfl
  have hops : k.disk.fileOps (.step (.act (.installCompaction jobId openOk true clearOk) left)) =
      .truncateManifest :: (manifestText w.live).map .appendManifest ++ removals ++
        if k.disk.world.index.mergedAll job.completed ∧
            job.deleteGeneration = k.disk.world.index.deleteGeneration ∧ clearOk then [.removeDeletes]
        else [] := by
    simp only [fileOps, installOps, hfind, hfresh, hout, hdef]
    rfl
  by_cases hclear : k.disk.world.index.mergedAll job.completed = true ∧
      job.deleteGeneration = k.disk.world.index.deleteGeneration ∧ clearOk = true
  · refine ⟨[], _, _, hjournal [] [.removeDeletes] ?_ ?_ ?_ ?_ ?_⟩
    · rw [hops, if_pos hclear, nil_append, append_assoc]
    · intro op hop
      obtain rfl := mem_singleton.mp hop
      exact ⟨rfl, rfl⟩
    · exact deletes_cleared h.ids_lt fun op hop => (hremovals op hop).2.1
    · intro d hd
      cases hd
    · intro d hd
      rw [hw] at hd
      rw [if_pos ⟨hclear.1, hclear.2.1⟩] at hd
      exact absurd hd (Finset.notMem_empty d)
  · refine ⟨ids, _, _, hjournal ids [] ?_ ?_ ?_ ?_ ?_⟩
    · rw [hops, if_neg hclear, nil_append, append_nil, append_nil]
    · intro op hop
      cases hop
    · rw [append_nil]
      exact deletes_same h.ids_lt fun op hop => (hremovals op hop).2.1
    · exact fun _ hd => hd
    · intro d hd
      rw [hw] at hd
      refine h.deleted d ?_
      simp only at hd
      split_ifs at hd
      · exact absurd hd (Finset.notMem_empty d)
      · exact hd

def DirStep.Unfailing : DirStep → Prop
  | .step (.act (.completeFlush _ writeOk appendOk) _) => writeOk = true → appendOk = true
  | .step (.act (.deleteDocument docId appendOk) _) => appendOk = true ∧ docId < 2 ^ 64
  | .step (.act (.installCompaction _ _ manifestOk _) _) => manifestOk = true
  | .step (.addSegment _ outcome _) => outcome ≠ .appendFailed
  | _ => True

theorem journal_installCompaction (h : DirOk k ids) (jobId : ℕ) (openOk clearOk : Bool) (left : List ℕ) :
    ∃ ids' M R, Journal k ids (.step (.act (.installCompaction jobId openOk true clearOk) left)) ids'
      [] M R := by
  cases hfind : k.disk.world.finished.find? fun job => job.jobId = jobId with
  | none =>
    have hw : k.disk.world.installCompaction jobId openOk true clearOk = k.disk.world := by
      rw [World.installCompaction, hfind]
    refine ⟨ids, [], [], journal_silent h ?_ ?_ ?_ ?_ ?_ ?_⟩
    · simp only [fileOps, installOps, hfind]
    · simp only [step, ManifestWorld.step, manifestAfter, hfind]
    all_goals simp only [step, ManifestWorld.step, World.step, hw]
    · exact fun _ hj => hj
    · exact fun _ hd => hd
  | some job =>
    cases hstale : k.disk.world.index.isStale job.completed with
    | true => exact ⟨ids, _, _, journal_stale h hfind hstale⟩
    | false =>
      cases hout : k.disk.world.output job openOk with
      | ok disk => exact journal_installed h hfind hstale hout
      | error e =>
        -- the output cannot be opened: only the job is gone
        have hw : k.disk.world.installCompaction jobId openOk true clearOk =
            { k.disk.world with
              finished := k.disk.world.finished.filter fun j => j.jobId ≠ jobId } := by
          simp only [World.installCompaction, hfind, LsmIndex.installCompaction, h.flush.root, hstale,
            hout]
          rfl
        refine ⟨ids, [], [], journal_silent h ?_ ?_ ?_ ?_ ?_ ?_⟩
        · simp only [fileOps, installOps, hfind, hstale, hout]
          rfl
        · simp only [step, ManifestWorld.step, manifestAfter, hfind, hstale, hout]
          rw [if_neg]
          rintro ⟨-, -, hok⟩
          cases hok
        all_goals simp only [step, ManifestWorld.step, World.step, hw]
        · rfl
        · exact fun _ hj => (mem_filter.mp hj).1
        · exact fun _ hd => hd

theorem exists_journal (h : DirOk k ids) (hst : DirStep.Unfailing st) :
    ∃ ids' A M R, Journal k ids st ids' A M R := by
  cases st with
  | partWritten path =>
    obtain ⟨A, hj⟩ := journal_partWritten h path
    exact ⟨ids, A, [], [], hj⟩
  | step st =>
    cases st with
    | addSegment segment outcome left =>
      obtain ⟨A, M, hj⟩ := journal_addSegment h segment left hst
      exact ⟨ids, A, M, [], hj⟩
    | act a left =>
      have hbuf := k.disk.world.step_buffered (a := a)
      cases a with
      | mergeIntoMemtable docs =>
        exact ⟨ids, _, _, _, journal_silent h rfl rfl rfl rfl (fun _ hj => hj) fun _ hd => hd⟩
      | deleteDocument docId appendOk =>
        obtain ⟨rfl, hid⟩ := hst
        exact ⟨_, _, _, _, journal_deleteDocument h hid⟩
      | completeFlush seq writeOk appendOk =>
        obtain ⟨A, M, hj⟩ := journal_completeFlush h seq left hst
        exact ⟨ids, A, M, [], hj⟩
      | runCompaction jobId ok =>
        obtain ⟨A, hj⟩ := journal_runCompaction h jobId ok left
        exact ⟨ids, A, [], [], hj⟩
      | installCompaction jobId openOk manifestOk clearOk =>
        obtain rfl : manifestOk = true := hst
        obtain ⟨ids', M, R, hj⟩ := journal_installCompaction h jobId openOk clearOk left
        exact ⟨ids', [], M, R, hj⟩
      | _ =>
        have hb := hbuf trivial
        refine ⟨ids, _, _, _, journal_silent h rfl rfl (hb.live h.flush.root)
          hb.files (fun job hj => hb.finished ▸ hj) fun d hd => hb.deleted ▸ hd⟩

end DirWorld
