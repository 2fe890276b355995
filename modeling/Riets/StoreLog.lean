/-
The segments of a store as logs of records, and the invariant of a store.

`Logs` gives every segment its records; the bytes on disk are their encoding.
`StoreRun.Ok r logs` ties a store to its logs: every entry of the maps is the
place of a document with that external id, the cache agrees, and a compaction
under way covers every document that still lies in the segments it will
remove.
-/
import Riets.BinaryStore

structure SegmentLog where
  compacted : Bool
  records : List StoreRecord
  deriving DecidableEq

namespace SegmentLog

open StoreDir List

def header (l : SegmentLog) : ByteSeq :=
  if l.compacted then compactedMagic else magic

def bytes (l : SegmentLog) : ByteSeq := l.header ++ encodeAll l.records

@[simp] theorem length_header (l : SegmentLog) : l.header.length = 8 := by
  rw [header]
  split <;> rfl

theorem header_eq_magic {l : SegmentLog} : l.header = magic ↔ l.compacted = false := by
  rw [header]
  cases l.compacted
  · simp
  · simp [magic, compactedMagic]

theorem header_eq_compacted {l : SegmentLog} :
    l.header = compactedMagic ↔ l.compacted = true := by
  rw [header]
  cases l.compacted
  · simp [magic, compactedMagic]
  · simp

theorem take_bytes (l : SegmentLog) : l.bytes.take 8 = l.header := take_left' l.length_header

theorem length_bytes (l : SegmentLog) : l.bytes.length = 8 + (encodeAll l.records).length := by
  rw [bytes, length_append, length_header]

def append (l : SegmentLog) (rs : List StoreRecord) : SegmentLog :=
  { l with records := l.records ++ rs }

theorem bytes_append (l : SegmentLog) (rs : List StoreRecord) :
    (l.append rs).bytes = l.bytes ++ encodeAll rs := by
  rw [bytes, bytes, append, encodeAll_append, append_assoc]
  rfl

theorem drop_bytes {l : SegmentLog} {pre post : List StoreRecord}
    (h : l.records = pre ++ post) :
    l.bytes.drop (8 + (encodeAll pre).length) = encodeAll post := by
  rw [bytes, h, encodeAll_append, ← append_assoc]
  exact drop_left' (by rw [length_append, length_header])

end SegmentLog

abbrev Logs := SortedMap ℕ SegmentLog

open BinaryDocumentStore

def At (logs : Logs) (loc : DocLocation) (doc : StoredDocument) : Prop :=
  ∃ l pre post, logs.get? loc.segment = some l ∧ l.records = pre ++ .put doc :: post ∧
    loc = locationAt loc.segment (8 + (encodeAll pre).length) doc

def Logs.Fit (logs : Logs) : Prop :=
  ∀ id l, logs.get? id = some l → ∀ r ∈ l.records, r.Fits

def Logs.Grows (logs logs' : Logs) : Prop :=
  ∀ id l, logs.get? id = some l → ∃ rs, logs'.get? id = some (l.append rs)

namespace At

variable {logs logs' : Logs} {loc : DocLocation} {doc : StoredDocument} {dir : StoreDir}

theorem internalId (h : At logs loc doc) : loc.internalId = doc.internalId := by
  obtain ⟨l, pre, post, -, -, heq⟩ := h
  rw [heq]
  rfl

theorem fits (h : At logs loc doc) (hfit : logs.Fit) : doc.Fits := by
  obtain ⟨l, pre, post, hl, hrec, -⟩ := h
  exact hfit _ l hl (.put doc) (by simp [hrec])

theorem grows (h : At logs loc doc) (hg : logs.Grows logs') : At logs' loc doc := by
  obtain ⟨l, pre, post, hl, hrec, heq⟩ := h
  obtain ⟨rs, hl'⟩ := hg _ l hl
  refine ⟨_, pre, post ++ rs, hl', ?_, heq⟩
  rw [SegmentLog.append, hrec, List.append_assoc, List.cons_append]

theorem drop_bytes (h : At logs loc doc) (hdir : dir.segments = logs.map SegmentLog.bytes) :
    ∃ bytes rest, dir.segments.get? loc.segment = some bytes ∧
      bytes.drop loc.offset = writeDocument doc ++ rest := by
  obtain ⟨l, pre, post, hl, hrec, heq⟩ := h
  refine ⟨l.bytes, encodeAll post, by rw [hdir, SortedMap.get?_map, hl]; rfl, ?_⟩
  have hoff : loc.offset = 8 + (encodeAll pre).length + 1 := by
    rw [heq]
    rfl
  rw [hoff, ← List.drop_drop, SegmentLog.drop_bytes hrec]
  rfl

theorem read (h : At logs loc doc) (hfit : logs.Fit)
    (hdir : dir.segments = logs.map SegmentLog.bytes) :
    dir.readDocumentAtPath loc.segment loc.offset = .ok doc := by
  obtain ⟨bytes, rest, hget, hdrop⟩ := h.drop_bytes hdir
  rw [StoreDir.readDocumentAtPath, hget]
  simp only [hdrop, (decodes_document (h.fits hfit)).whole rest]

theorem unique {doc' : StoredDocument} (h : At logs loc doc) (h' : At logs loc doc')
    (hfit : logs.Fit) : doc = doc' := by
  have hr : (⟨logs.map SegmentLog.bytes, none⟩ : StoreDir).readDocumentAtPath loc.segment
      loc.offset = .ok doc := h.read hfit rfl
  rw [h'.read hfit rfl] at hr
  cases hr
  rfl

end At

namespace Logs

open SortedMap List

variable {logs logs' logs'' : Logs}

theorem Grows.refl (logs : Logs) : logs.Grows logs := by
  intro id l hl
  refine ⟨[], ?_⟩
  rw [hl, SegmentLog.append, append_nil]

theorem Grows.trans (h : logs.Grows logs') (h' : logs'.Grows logs'') : logs.Grows logs'' := by
  intro id l hl
  obtain ⟨rs, hl'⟩ := h id l hl
  obtain ⟨rs', hl''⟩ := h' id _ hl'
  refine ⟨rs ++ rs', ?_⟩
  rw [hl'', SegmentLog.append, SegmentLog.append, SegmentLog.append, append_assoc]

def push (logs : Logs) (id : ℕ) (l : SegmentLog) (r : StoreRecord) : Logs :=
  logs.insert id (l.append [r])

theorem push_grows {id : ℕ} {l : SegmentLog} (hl : logs.get? id = some l) (r : StoreRecord) :
    logs.Grows (logs.push id l r) := by
  intro id' l' hl'
  rw [push, get?_insert]
  by_cases heq : id' = id
  · rw [heq, hl] at hl'
    cases hl'
    exact ⟨[r], if_pos heq⟩
  · refine ⟨[], ?_⟩
    rw [if_neg heq, hl', SegmentLog.append, append_nil]

theorem of_get?_push {id : ℕ} {l : SegmentLog} (hl : logs.get? id = some l) {r : StoreRecord}
    {id' : ℕ} {l' : SegmentLog} (hl' : (logs.push id l r).get? id' = some l') :
    ∃ l₀, logs.get? id' = some l₀ ∧ l'.compacted = l₀.compacted := by
  rw [push, get?_insert] at hl'
  by_cases hid : id' = id
  · rw [if_pos hid] at hl'
    cases hl'
    exact ⟨l, hid ▸ hl, rfl⟩
  · rw [if_neg hid] at hl'
    exact ⟨l', hl', rfl⟩

theorem get?_push_self (logs : Logs) (id : ℕ) (l : SegmentLog) (r : StoreRecord) :
    (logs.push id l r).get? id = some (l.append [r]) := by
  rw [push, get?_insert, if_pos rfl]

theorem insert_grows {id : ℕ} (hnew : logs.get? id = none) (l : SegmentLog) :
    logs.Grows (logs.insert id l) := by
  intro id' l' hl'
  refine ⟨[], ?_⟩
  rw [get?_insert, if_neg, hl', SegmentLog.append, append_nil]
  rintro rfl
  rw [hnew] at hl'
  cases hl'

theorem Fit.push (h : logs.Fit) {id : ℕ} {l : SegmentLog} (hl : logs.get? id = some l)
    {r : StoreRecord} (hr : r.Fits) : (logs.push id l r).Fit := by
  intro id' l' hl' r' hr'
  rw [Logs.push, get?_insert] at hl'
  by_cases heq : id' = id
  · rw [if_pos heq] at hl'
    cases hl'
    rcases mem_append.1 hr' with hmem | hmem
    · exact h id l hl r' hmem
    · rw [mem_singleton.1 hmem]
      exact hr
  · rw [if_neg heq] at hl'
    exact h id' l' hl' r' hr'

theorem Fit.insert (h : logs.Fit) {id : ℕ} {l : SegmentLog} (hl : ∀ r ∈ l.records, r.Fits) :
    Fit (insert logs id l) := by
  intro id' l' hl' r' hr'
  rw [get?_insert] at hl'
  by_cases heq : id' = id
  · rw [if_pos heq] at hl'
    cases hl'
    exact hl r' hr'
  · rw [if_neg heq] at hl'
    exact h id' l' hl' r' hr'

theorem at_push {id : ℕ} {l : SegmentLog} (doc : StoredDocument) :
    At (logs.push id l (.put doc)) (locationAt id l.bytes.length doc) doc := by
  refine ⟨l.append [.put doc], l.records, [], ?_, rfl, ?_⟩
  · exact logs.get?_push_self id l _
  · rw [SegmentLog.length_bytes]
    rfl

theorem map_insert (logs : Logs) (id : ℕ) (l : SegmentLog) :
    map (logs.insert id l) SegmentLog.bytes =
      insert (map logs SegmentLog.bytes) id l.bytes := by
  refine ext_get? fun k => ?_
  rw [get?_map, get?_insert, get?_insert, get?_map]
  split_ifs <;> rfl

end Logs

namespace BinaryDocumentStore

/-- `put` also raises the highest id. -/
def raise (s : BinaryDocumentStore) (id : DocId) : BinaryDocumentStore :=
  { s with highestId := max s.highestId id }

def removeOne (s : BinaryDocumentStore) (x : String) (id : DocId) : BinaryDocumentStore :=
  { s.appendBytes (StoreRecord.delete x id).encode with
    locations := s.locations.erase x
    docs := s.docs.erase x }

def rotated (s : BinaryDocumentStore) : BinaryDocumentStore :=
  { s.setSegments (s.dir.segments.insert s.nextSegmentId StoreDir.magic) with
    currentSegment := s.nextSegmentId
    nextSegmentId := s.nextSegmentId + 1 }

variable {s : BinaryDocumentStore} {bytes : ByteSeq}

section

variable (h : s.dir.segments.get? s.currentSegment = some bytes)
include h

theorem maybeRotateSegment_ok :
    s.maybeRotateSegment = .ok (if bytes.length < defaultSegmentSize then s else s.rotated) := by
  rw [maybeRotateSegment, h]
  show (if bytes.length < defaultSegmentSize then _ else _) = _
  split_ifs <;> rfl

theorem get?_appendBytes (more : ByteSeq) :
    (s.appendBytes more).dir.segments.get? s.currentSegment = some (bytes ++ more) := by
  rw [appendBytes, setSegments, SortedMap.get?_upsert, if_pos rfl, h]
  rfl

theorem put_eq (doc : StoredDocument) :
    s.put doc = .ok (if (bytes ++ (StoreRecord.put doc).encode).length < defaultSegmentSize
      then (s.putOne doc).raise doc.internalId
      else ((s.putOne doc).raise doc.internalId).rotated) := by
  have hrotate : (s.appendBytes (StoreRecord.put doc).encode).maybeRotateSegment = _ :=
    maybeRotateSegment_ok (get?_appendBytes h _)
  simp only [put, appendPut, h, hrotate, putOne, Option.getD_some]
  split_ifs <;> rfl

end

theorem delete_eq {x : String} {loc : DocLocation}
    (h : s.dir.segments.get? s.currentSegment = some bytes) (hx : s.locations.get? x = some loc) :
    s.delete x = .ok (if (bytes ++ (StoreRecord.delete x loc.internalId).encode).length <
        defaultSegmentSize
      then s.removeOne x loc.internalId else (s.removeOne x loc.internalId).rotated) := by
  have hrotate : (s.appendBytes (StoreRecord.delete x loc.internalId).encode).maybeRotateSegment = _ :=
    maybeRotateSegment_ok (get?_appendBytes h _)
  simp only [delete, hx, h, hrotate]
  split_ifs <;> rfl

end BinaryDocumentStore

/-! ### The invariant -/

structure BinaryDocumentStore.Ok (s : BinaryDocumentStore) (logs : Logs) : Prop where
  segments : s.dir.segments = logs.map SegmentLog.bytes
  fit : logs.Fit
  located : ∀ x loc, s.locations.get? x = some loc → ∃ doc, doc.externalId = x ∧ At logs loc doc
  cached : ∀ x doc, s.docs.get? x = some doc →
    doc.externalId = x ∧ ∃ loc, s.locations.get? x = some loc ∧ At logs loc doc
  current : ∃ l, logs.get? s.currentSegment = some l ∧ l.compacted = false
  below : ∀ id l, logs.get? id = some l → id < s.nextSegmentId
  above : ∀ id l, logs.get? id = some l → s.currentSegment < id → l.compacted = true

structure Compacts (s : BinaryDocumentStore) (logs : Logs) (old : List ℕ) (out : ℕ) : Prop where
  old_lt : ∀ id ∈ old, id < s.currentSegment
  old_exists : ∀ id ∈ old, ∃ l, logs.get? id = some l
  out_lt : out < s.nextSegmentId
  free : logs.get? out = none
  old_lt_out : ∀ id ∈ old, id < out

structure SegmentCompactionJob.Ok (job : SegmentCompactionJob) (s : BinaryDocumentStore)
    (logs : Logs) : Prop extends Compacts s logs job.segmentIds job.nextSegmentId where
  snapshot : ∀ e ∈ job.locationsSnapshot, e.2.segment ∈ job.segmentIds ∧
    ∃ doc, doc.externalId = e.1 ∧ At logs e.2 doc
  covers : ∀ x loc, s.locations.get? x = some loc → loc.segment ∈ job.segmentIds →
    (x, loc) ∈ job.locationsSnapshot
  nodup : (job.locationsSnapshot.map Prod.fst).Nodup

/-- The places of copied documents, the first record at `pos`. -/
def copies (out pos : ℕ) : List StoredDocument → List (String × DocLocation)
  | [] => []
  | doc :: docs =>
    (doc.externalId, locationAt out pos doc) ::
      copies out (pos + (StoreRecord.put doc).encode.length) docs

def outputLog (docs : List StoredDocument) : SegmentLog := ⟨true, docs.map .put⟩

/-- A finished compaction holds a copy of every document that still lies in its
segments. -/
structure CompletedSegmentCompaction.Ok (c : CompletedSegmentCompaction) (s : BinaryDocumentStore)
    (logs : Logs) (docs : List StoredDocument) : Prop
    extends Compacts s logs c.oldSegmentIds c.newSegmentId where
  bytes : c.bytes = (outputLog docs).bytes
  newLocations : c.newLocations = copies c.newSegmentId 8 docs
  origin : ∀ doc ∈ docs, ∃ loc, loc.segment ∈ c.oldSegmentIds ∧ At logs loc doc
  covers : ∀ x loc, s.locations.get? x = some loc → loc.segment ∈ c.oldSegmentIds →
    ∃ doc ∈ docs, doc.externalId = x ∧ At logs loc doc
  nodup : (docs.map StoredDocument.externalId).Nodup

def Compacting.Ok (s : BinaryDocumentStore) (logs : Logs) : Compacting → Prop
  | .idle => True
  | .planned job => job.Ok s logs
  | .completed c => ∃ docs, c.Ok s logs docs

structure StoreRun.Ok (r : StoreRun) (logs : Logs) : Prop where
  store : r.store.Ok logs
  compacting : r.compacting.Ok r.store logs

/-- A compaction stays valid while the store grows: no segment of it is written
to, and no document moves into one. -/
structure Undisturbed (s s' : BinaryDocumentStore) (logs logs' : Logs) : Prop where
  grows : logs.Grows logs'
  current_le : s.currentSegment ≤ s'.currentSegment
  next_le : s.nextSegmentId ≤ s'.nextSegmentId
  new_segments : ∀ id, logs.get? id = none → logs'.get? id ≠ none → s.nextSegmentId ≤ id
  locations : ∀ x loc, s'.locations.get? x = some loc → loc.segment < s.currentSegment →
    s.locations.get? x = some loc

theorem Compacts.undisturbed {s s' : BinaryDocumentStore} {logs logs' : Logs} {old : List ℕ}
    {out : ℕ} (h : Compacts s logs old out) (hu : Undisturbed s s' logs logs') :
    Compacts s' logs' old out where
  old_lt id hid := lt_of_lt_of_le (h.old_lt id hid) hu.current_le
  old_exists id hid := by
    obtain ⟨l, hl⟩ := h.old_exists id hid
    obtain ⟨rs, hl'⟩ := hu.grows id l hl
    exact ⟨_, hl'⟩
  out_lt := lt_of_lt_of_le h.out_lt hu.next_le
  free := by
    by_contra hne
    have := hu.new_segments out h.free hne
    have := h.out_lt
    omega
  old_lt_out := h.old_lt_out

theorem Compacting.Ok.undisturbed {s s' : BinaryDocumentStore} {logs logs' : Logs}
    {c : Compacting} (h : c.Ok s logs) (hu : Undisturbed s s' logs logs') : c.Ok s' logs' := by
  cases c with
  | idle => trivial
  | planned job =>
    have hjob : job.Ok s logs := h
    refine ⟨hjob.toCompacts.undisturbed hu, fun e he => ?_, fun x loc hx hloc => ?_, hjob.nodup⟩
    · obtain ⟨hseg, doc, hdoc, hat⟩ := hjob.snapshot e he
      exact ⟨hseg, doc, hdoc, hat.grows hu.grows⟩
    · exact hjob.covers x loc (hu.locations x loc hx (hjob.old_lt _ hloc)) hloc
  | completed c =>
    obtain ⟨docs, hc⟩ := h
    refine ⟨docs, hc.toCompacts.undisturbed hu, hc.bytes, hc.newLocations, fun doc hdoc => ?_,
      fun x loc hx hloc => ?_, hc.nodup⟩
    · obtain ⟨loc, hloc, hat⟩ := hc.origin doc hdoc
      exact ⟨loc, hloc, hat.grows hu.grows⟩
    · obtain ⟨doc, hmem, hdoc, hat⟩ := hc.covers x loc (hu.locations x loc hx (hc.old_lt _ hloc)) hloc
      exact ⟨doc, hmem, hdoc, hat.grows hu.grows⟩

/-! ### What the moves keep -/

namespace BinaryDocumentStore.Ok

open List SortedMap Logs Option StoredDocument Keyed

variable {s : BinaryDocumentStore} {logs : Logs} {l : SegmentLog} {x : String} {loc : DocLocation} {doc : StoredDocument}

section

variable (h : s.Ok logs)
include h

theorem get?_segments (id : ℕ) :
    s.dir.segments.get? id = (logs.get? id).map SegmentLog.bytes := by
  rw [h.segments, get?_map]

theorem appendBytes_segments (hl : logs.get? s.currentSegment = some l)
    (r : StoreRecord) :
    (s.appendBytes r.encode).dir.segments =
      (logs.push s.currentSegment l r).map SegmentLog.bytes := by
  refine ext_get? fun k => ?_
  rw [appendBytes, setSegments, get?_upsert, get?_map, push,
    get?_insert, h.get?_segments, h.get?_segments]
  by_cases hk : k = s.currentSegment
  · rw [if_pos hk, if_pos hk, hl, map_some, map_some, SegmentLog.bytes_append]
    simp
  · rw [if_neg hk, if_neg hk]

theorem putOne (hl : logs.get? s.currentSegment = some l)
    (hdoc : doc.Fits) : (s.putOne doc).Ok (logs.push s.currentSegment l (.put doc)) := by
  have hgrows := push_grows hl (.put doc)
  have hstart : ((s.dir.segments.get? s.currentSegment).getD []).length = l.bytes.length := by
    rw [h.get?_segments, hl]
    rfl
  have hat : At (logs.push s.currentSegment l (.put doc))
      (locationAt s.currentSegment ((s.dir.segments.get? s.currentSegment).getD []).length doc)
      doc := by
    rw [hstart]
    exact at_push doc
  constructor
  · exact h.appendBytes_segments hl (.put doc)
  · exact h.fit.push hl hdoc
  · intro x loc hx
    rw [BinaryDocumentStore.putOne, get?_insert] at hx
    by_cases hxd : x = doc.externalId
    · rw [if_pos hxd] at hx
      cases hx
      exact ⟨doc, hxd.symm, hat⟩
    · rw [if_neg hxd] at hx
      obtain ⟨doc', hdoc', hat'⟩ := h.located x loc hx
      exact ⟨doc', hdoc', hat'.grows hgrows⟩
  · intro x doc' hx
    rw [BinaryDocumentStore.putOne, get?_insert] at hx
    rw [BinaryDocumentStore.putOne, get?_insert]
    by_cases hxd : x = doc.externalId
    · rw [if_pos hxd] at hx ⊢
      cases hx
      exact ⟨hxd.symm, _, rfl, hat⟩
    · rw [if_neg hxd] at hx ⊢
      obtain ⟨hid, loc, hloc, hat'⟩ := h.cached x doc' hx
      exact ⟨hid, loc, hloc, hat'.grows hgrows⟩
  · obtain ⟨l₀, hl₀, hcomp⟩ := h.current
    rw [hl] at hl₀
    cases hl₀
    exact ⟨_, logs.get?_push_self _ l _, hcomp⟩
  · intro id l' hl'
    obtain ⟨l₀, hl₀, -⟩ := of_get?_push hl hl'
    exact h.below id l₀ hl₀
  · intro id l' hl' hid
    obtain ⟨l₀, hl₀, hcomp⟩ := of_get?_push hl hl'
    exact hcomp.trans (h.above id l₀ hl₀ hid)

theorem removeOne (hl : logs.get? s.currentSegment = some l) (hx : s.locations.get? x = some loc) :
    (s.removeOne x loc.internalId).Ok
      (logs.push s.currentSegment l (.delete x loc.internalId)) := by
  have hgrows := push_grows hl (.delete x loc.internalId)
  have hfits : (StoreRecord.delete x loc.internalId).Fits := by
    obtain ⟨doc, rfl, hat⟩ := h.located x loc hx
    have hdoc := hat.fits h.fit
    have hlen := hdoc.length
    rw [length_writeDocument] at hlen
    refine ⟨by omega, ?_⟩
    rw [hat.internalId]
    exact hdoc.internalId
  constructor
  · exact h.appendBytes_segments hl _
  · exact h.fit.push hl hfits
  · intro y loc' hy
    rw [BinaryDocumentStore.removeOne, get?_erase] at hy
    by_cases hyx : y = x
    · rw [if_pos hyx] at hy
      cases hy
    · rw [if_neg hyx] at hy
      obtain ⟨doc, hdoc, hat⟩ := h.located y loc' hy
      exact ⟨doc, hdoc, hat.grows hgrows⟩
  · intro y doc hy
    rw [BinaryDocumentStore.removeOne, get?_erase] at hy
    rw [BinaryDocumentStore.removeOne, get?_erase]
    by_cases hyx : y = x
    · rw [if_pos hyx] at hy
      cases hy
    · rw [if_neg hyx] at hy ⊢
      obtain ⟨hid, loc', hloc', hat⟩ := h.cached y doc hy
      exact ⟨hid, loc', hloc', hat.grows hgrows⟩
  · obtain ⟨l₀, hl₀, hcomp⟩ := h.current
    rw [hl] at hl₀
    cases hl₀
    exact ⟨_, logs.get?_push_self _ l _, hcomp⟩
  · intro id l' hl'
    obtain ⟨l₀, hl₀, -⟩ := of_get?_push hl hl'
    exact h.below id l₀ hl₀
  · intro id l' hl' hid
    obtain ⟨l₀, hl₀, hcomp⟩ := of_get?_push hl hl'
    exact hcomp.trans (h.above id l₀ hl₀ hid)

theorem raise (id : DocId) : (s.raise id).Ok logs :=
  ⟨h.segments, h.fit, h.located, h.cached, h.current, h.below, h.above⟩

theorem next_free : logs.get? s.nextSegmentId = none := by
  by_contra hne
  obtain ⟨l, hl⟩ := ne_none_iff_exists'.1 hne
  exact absurd (h.below _ l hl) (lt_irrefl _)

theorem rotated : s.rotated.Ok (logs.insert s.nextSegmentId ⟨false, []⟩) := by
  have hgrows := insert_grows h.next_free ⟨false, []⟩
  have hget : ∀ id l, (insert logs s.nextSegmentId ⟨false, []⟩).get? id = some l →
      id < s.nextSegmentId + 1 := by
    intro id l hl
    rw [get?_insert] at hl
    by_cases hid : id = s.nextSegmentId
    · omega
    · rw [if_neg hid] at hl
      have := h.below id l hl
      omega
  constructor
  · show s.dir.segments.insert s.nextSegmentId StoreDir.magic = _
    rw [h.segments, map_insert]
    rfl
  · exact h.fit.insert (by simp)
  · intro x loc hx
    obtain ⟨doc, hdoc, hat⟩ := h.located x loc hx
    exact ⟨doc, hdoc, hat.grows hgrows⟩
  · intro x doc hx
    obtain ⟨hid, loc, hloc, hat⟩ := h.cached x doc hx
    exact ⟨hid, loc, hloc, hat.grows hgrows⟩
  · exact ⟨_, by rw [get?_insert]; exact if_pos rfl, rfl⟩
  · exact hget
  · intro id l hl hid
    have hlt : s.nextSegmentId < id := hid
    have := hget id l hl
    omega

theorem saveMaps (highest : DocId) : (s.saveMaps highest).Ok logs :=
  ⟨h.segments, h.fit, h.located, h.cached, h.current, h.below, h.above⟩

theorem evict (x : String) : Ok { s with docs := s.docs.erase x } logs := by
  refine ⟨h.segments, h.fit, h.located, fun y doc hy => ?_, h.current, h.below, h.above⟩
  rw [get?_erase] at hy
  by_cases hyx : y = x
  · rw [if_pos hyx] at hy
    cases hy
  · rw [if_neg hyx] at hy
    exact h.cached y doc hy

theorem get_some (hx : s.locations.get? x = some loc) (hat : At logs loc doc) (hdoc : doc.externalId = x) :
    ∃ s', s.get x = .ok (some doc, s') ∧ s'.Ok logs ∧ s'.locations = s.locations ∧
      s'.dir = s.dir ∧ s'.currentSegment = s.currentSegment ∧
      s'.nextSegmentId = s.nextSegmentId ∧ s'.highestId = s.highestId := by
  rw [get]
  cases hc : s.docs.get? x with
  | some cached =>
    obtain ⟨-, loc', hloc', hat'⟩ := h.cached x cached hc
    rw [hx] at hloc'
    cases hloc'
    rw [hat'.unique hat h.fit]
    exact ⟨s, rfl, h, rfl, rfl, rfl, rfl, rfl⟩
  | none =>
    simp only [hx, hat.read h.fit h.segments]
    refine ⟨_, rfl, ⟨h.segments, h.fit, h.located, fun y doc' hy => ?_, h.current, h.below, h.above⟩,
      rfl, rfl, rfl, rfl, rfl⟩
    rw [get?_insert] at hy
    by_cases hyx : y = x
    · rw [if_pos hyx] at hy
      cases hy
      exact ⟨hdoc.trans hyx.symm, loc, hyx ▸ hx, hat⟩
    · rw [if_neg hyx] at hy
      exact h.cached y doc' hy

theorem get_none (hx : s.locations.get? x = none) : s.get x = .ok (none, s) := by
  rw [get]
  cases hc : s.docs.get? x with
  | some cached =>
    obtain ⟨-, loc', hloc', -⟩ := h.cached x cached hc
    rw [hx] at hloc'
    cases hloc'
  | none => simp only [hx]

end

/-! ### Compaction -/

theorem mem_pick {targetSize running : ℕ} {first : Bool} {l : List (ℕ × ℕ)} {id : ℕ}
    (h : id ∈ pick targetSize running first l) : ∃ live, (id, live) ∈ l := by
  induction l generalizing running first with
  | nil => simp [pick] at h
  | cons c rest ih =>
    obtain ⟨id', live⟩ := c
    rw [pick] at h
    split_ifs at h
    · cases h
    · rw [mem_singleton] at h
      exact ⟨live, h ▸ mem_cons_self⟩
    · rcases mem_cons.1 h with rfl | h
      · exact ⟨live, mem_cons_self⟩
      · obtain ⟨live', hmem⟩ := ih h
        exact ⟨live', mem_cons_of_mem _ hmem⟩

theorem mem_candidates {deadEnough : ℕ → ℕ → Bool} {id live : ℕ}
    (h : (id, live) ∈ s.candidates deadEnough) :
    id < s.currentSegment ∧ (s.dir.segments.get? id).isSome := by
  rw [candidates, mem_filterMap] at h
  obtain ⟨⟨id', bytes⟩, hmem, heq⟩ := h
  simp only at heq
  split_ifs at heq with hc
  cases heq
  rw [mem_entries] at hmem
  exact ⟨hc.1, by rw [hmem]; rfl⟩

theorem planCompaction (h : s.Ok logs) {deadEnough : ℕ → ℕ → Bool} {tie : ℕ → ℕ} {targetSize : ℕ}
    {job : SegmentCompactionJob} {s' : BinaryDocumentStore}
    (hplan : s.planCompaction deadEnough tie targetSize = (some job, s')) :
    s'.Ok logs ∧ job.Ok s' logs ∧ s' = { s with nextSegmentId := s.nextSegmentId + 1 } := by
  rw [BinaryDocumentStore.planCompaction] at hplan
  by_cases hfound : s.candidates deadEnough = []
  · rw [if_pos hfound] at hplan
    cases hplan
  rw [if_neg hfound] at hplan
  obtain ⟨hjob, rfl⟩ := Prod.mk.inj hplan
  rw [some_inj] at hjob
  have hperm : job.locationsSnapshot.Perm
      (s.locations.entries.filter fun e => e.2.segment ∈ job.segmentIds) := by
    rw [← hjob]
    exact (perm_sortBy _).trans (perm_sortBy _)
  have hold : ∀ id ∈ job.segmentIds, id < s.currentSegment ∧ ∃ l, logs.get? id = some l := by
    intro id hid
    rw [← hjob] at hid
    obtain ⟨live, hmem⟩ := mem_pick hid
    rw [(perm_sortBy _).mem_iff, (perm_sortBy _).mem_iff] at hmem
    obtain ⟨hlt, hsome⟩ := mem_candidates hmem
    rw [h.get?_segments, isSome_map, isSome_iff_exists] at hsome
    exact ⟨hlt, hsome⟩
  have hout : job.nextSegmentId = s.nextSegmentId := by rw [← hjob]
  have hmem : ∀ e, e ∈ job.locationsSnapshot ↔
      s.locations.get? e.1 = some e.2 ∧ e.2.segment ∈ job.segmentIds := by
    intro e
    rw [hperm.mem_iff, mem_filter, ← mem_entries, decide_eq_true_iff]
  refine ⟨⟨h.segments, h.fit, h.located, h.cached, h.current, fun id l hl => ?_, h.above⟩,
    ⟨⟨fun id hid => (hold id hid).1, fun id hid => (hold id hid).2, ?_, ?_, fun id hid => ?_⟩,
      fun e he => ?_, fun x loc hx hloc => ?_, ?_⟩, rfl⟩
  · exact (h.below id l hl).trans (Nat.lt_succ_self _)
  · rw [hout]
    exact Nat.lt_succ_self _
  · rw [hout]
    exact h.next_free
  · obtain ⟨l, hl⟩ := (hold id hid).2
    rw [hout]
    exact h.below id l hl
  · obtain ⟨hx, hseg⟩ := (hmem e).1 he
    exact ⟨hseg, h.located e.1 e.2 hx⟩
  · exact (hmem (x, loc)).2 ⟨hx, hloc⟩
  · refine (hperm.map Prod.fst).nodup_iff.2 (Nodup.sublist (filter_sublist.map _) ?_)
    exact pairwise_map.2 (s.locations.ascending.imp fun hlt => ne_of_lt hlt)

theorem belongsTo_writeDocument (hdoc : doc.Fits) :
    belongsTo (writeDocument doc) doc.externalId = true := by
  have hlen := hdoc.length
  rw [length_writeDocument] at hlen
  have hsplit : writeDocument doc = leBytes 4 (utf8 doc.externalId).length ++
      (utf8 doc.externalId ++ (leBytes 8 doc.internalId ++ ([doc.format.toByte] ++
        writeBytes doc.source))) := by
    rw [writeDocument, writeString, writeBytes, append_assoc]
  rw [belongsTo, hsplit, take_left' (length_leBytes _ _), drop_left' (length_leBytes _ _),
    leNat_leBytes_of_lt (by omega), take_left]
  simp

theorem copyRecord_ok (h : s.Ok logs) (out : ℕ)
    (hat : At logs loc doc) (acc : ByteSeq × List (String × DocLocation)) :
    copyRecord s.dir out acc (doc.externalId, loc) =
      .ok (acc.1 ++ (StoreRecord.put doc).encode,
        acc.2 ++ [(doc.externalId, locationAt out acc.1.length doc)]) := by
  have hdoc := hat.fits h.fit
  obtain ⟨bytes, rest, hget, hdrop⟩ := hat.drop_bytes h.segments
  obtain ⟨l, pre, post, -, -, heq⟩ := hat
  have hlen : loc.len = (writeDocument doc).length := by
    rw [heq]
    exact Nat.mod_eq_of_lt hdoc.length
  have hrecord : (bytes.drop loc.offset).take loc.len = writeDocument doc := by
    rw [hdrop, hlen, take_left]
  have hid : loc.internalId = doc.internalId := by
    rw [heq]
    rfl
  have hnew : (⟨loc.internalId, acc.1.length + 1, out, loc.len⟩ : DocLocation) =
      locationAt out acc.1.length doc := by
    rw [hid, hlen, locationAt, Nat.mod_eq_of_lt hdoc.length]
  simp only [copyRecord, hget, hrecord, belongsTo_writeDocument hdoc, hnew]
  rw [if_neg (by rw [hlen]; exact lt_irrefl _), if_pos trivial]
  rfl

theorem copies_append (out pos : ℕ) (docs docs' : List StoredDocument) :
    copies out pos (docs ++ docs') = copies out pos docs ++
      copies out (pos + (encodeAll (docs.map .put)).length) docs' := by
  induction docs generalizing pos with
  | nil => rfl
  | cons doc docs ih =>
    rw [cons_append, copies, copies, ih, map_cons, encodeAll_cons, length_append, Nat.add_assoc]
    rfl

theorem copyAll_ok (h : s.Ok logs) (out : ℕ) (snapshot : List (String × DocLocation))
    (hsnap : ∀ e ∈ snapshot, ∃ doc, doc.externalId = e.1 ∧ At logs e.2 doc)
    (done : List StoredDocument) :
    ∃ docs, snapshot.foldlM (copyRecord s.dir out) ((outputLog done).bytes, copies out 8 done) =
        .ok ((outputLog (done ++ docs)).bytes, copies out 8 (done ++ docs)) ∧
      docs.map externalId = snapshot.map Prod.fst ∧
      (∀ e ∈ snapshot, ∃ doc ∈ docs, doc.externalId = e.1 ∧ At logs e.2 doc) ∧
      ∀ doc ∈ docs, ∃ e ∈ snapshot, doc.externalId = e.1 ∧ At logs e.2 doc := by
  induction snapshot generalizing done with
  | nil => exact ⟨[], by rw [append_nil]; rfl, rfl, by simp, by simp⟩
  | cons e snapshot ih =>
    obtain ⟨doc, hdoc, hat⟩ := hsnap e mem_cons_self
    obtain ⟨docs, hrest, hids, hfrom, hto⟩ := ih
      (fun e' he' => hsnap e' (mem_cons_of_mem e he')) (done ++ [doc])
    refine ⟨doc :: docs, ?_, by rw [map_cons, map_cons, hids, hdoc],
      fun e' he' => ?_, fun doc' hdoc' => ?_⟩
    rotate_left
    · rcases mem_cons.1 he' with rfl | he'
      · exact ⟨doc, mem_cons_self, hdoc, hat⟩
      · obtain ⟨doc', hmem, hdoc', hat'⟩ := hfrom e' he'
        exact ⟨doc', mem_cons_of_mem doc hmem, hdoc', hat'⟩
    · rcases mem_cons.1 hdoc' with rfl | hdoc'
      · exact ⟨e, mem_cons_self, hdoc, hat⟩
      · obtain ⟨e', hmem, hdoc', hat'⟩ := hto doc' hdoc'
        exact ⟨e', mem_cons_of_mem e hmem, hdoc', hat'⟩
    have hcopy := h.copyRecord_ok out hat ((outputLog done).bytes, copies out 8 done)
    have hbytes : (outputLog (done ++ [doc])).bytes =
        (outputLog done).bytes ++ (StoreRecord.put doc).encode := by
      rw [SegmentLog.bytes, SegmentLog.bytes, outputLog, outputLog, map_append,
        encodeAll_append, append_assoc]
      simp [SegmentLog.header]
    have hlocs : copies out 8 (done ++ [doc]) =
        copies out 8 done ++ [(doc.externalId, locationAt out (outputLog done).bytes.length doc)] := by
      rw [copies_append, SegmentLog.length_bytes]
      rfl
    rw [show e = (doc.externalId, e.2) from Prod.ext hdoc.symm rfl, foldlM_cons, hcopy,
      ← hbytes, ← hlocs]
    rw [append_assoc, singleton_append] at hrest
    exact hrest

theorem runSegmentCompaction (h : s.Ok logs) {job : SegmentCompactionJob} (hjob : job.Ok s logs) :
    ∃ c docs, runSegmentCompaction s.dir job = .ok c ∧ c.Ok s logs docs := by
  obtain ⟨docs, hrun, hids, hfrom, hto⟩ := h.copyAll_ok job.nextSegmentId
    job.locationsSnapshot (fun e he => (hjob.snapshot e he).2) []
  rw [nil_append] at hrun
  refine ⟨⟨job.segmentIds, job.nextSegmentId, (outputLog docs).bytes,
    copies job.nextSegmentId 8 docs⟩, docs, ?_, ⟨hjob.toCompacts, rfl, rfl, fun doc hdoc => ?_,
      fun x loc hx hloc => ?_, by rw [hids]; exact hjob.nodup⟩⟩
  · have hstart : ((StoreDir.compactedMagic, []) : ByteSeq × List (String × DocLocation)) =
        ((outputLog []).bytes, copies job.nextSegmentId 8 []) := rfl
    rw [BinaryDocumentStore.runSegmentCompaction, hstart, hrun]
    rfl
  · obtain ⟨e, he, -, hat⟩ := hto doc hdoc
    exact ⟨e.2, (hjob.snapshot e he).1, hat⟩
  · exact hfrom (x, loc) (hjob.covers x loc hx hloc)

theorem at_copies {out : ℕ} {docs pre post : List StoredDocument}
    (hdocs : docs = pre ++ doc :: post) {logs' : Logs} (hout : logs'.get? out = some (outputLog docs)) :
    At logs' (locationAt out (8 + (encodeAll (pre.map .put)).length) doc) doc := by
  refine ⟨outputLog docs, pre.map .put, post.map .put, hout, ?_, rfl⟩
  rw [outputLog, hdocs, map_append, map_cons]

theorem mem_copies {out pos : ℕ} {docs : List StoredDocument} {e : String × DocLocation} :
    e ∈ copies out pos docs ↔ ∃ pre doc post, docs = pre ++ doc :: post ∧
      e = (doc.externalId, locationAt out (pos + (encodeAll (pre.map .put)).length) doc) := by
  induction docs generalizing pos with
  | nil => simp [copies]
  | cons d docs ih =>
    rw [copies, mem_cons, ih]
    constructor
    · rintro (rfl | ⟨pre, doc, post, rfl, rfl⟩)
      · exact ⟨[], d, docs, rfl, rfl⟩
      · refine ⟨d :: pre, doc, post, rfl, ?_⟩
        rw [map_cons, encodeAll_cons, length_append, Nat.add_assoc]
    · rintro ⟨pre, doc, post, hdocs, rfl⟩
      cases pre with
      | nil =>
        cases hdocs
        exact .inl rfl
      | cons d' pre =>
        cases hdocs
        refine .inr ⟨pre, doc, post, rfl, ?_⟩
        rw [map_cons, encodeAll_cons, length_append, Nat.add_assoc]

theorem map_fst_copies (out pos : ℕ) (docs : List StoredDocument) :
    (copies out pos docs).map Prod.fst = docs.map externalId := by
  induction docs generalizing pos with
  | nil => rfl
  | cons doc docs ih => rw [copies, map_cons, map_cons, ih]

theorem get?_relocate_of_not_mem {old : List ℕ} {new : List (String × DocLocation)}
    {locations : Locations}
    (h : ∀ loc, locations.get? x = some loc → loc.segment ∈ old → x ∉ new.map Prod.fst) :
    (new.foldl (relocate old) locations).get? x = locations.get? x := by
  induction new generalizing locations with
  | nil => rfl
  | cons e new ih =>
    have hkeep : (relocate old locations e).get? x = locations.get? x := by
      rw [relocate]
      cases he : locations.get? e.1 with
      | none => rfl
      | some current =>
        simp only
        split_ifs with hseg
        · rw [get?_insert, if_neg]
          rintro rfl
          exact h current he hseg (by simp)
        · rfl
    rw [foldl_cons, ih, hkeep]
    intro loc hloc hseg hmem
    rw [hkeep] at hloc
    exact h loc hloc hseg (mem_cons_of_mem _ hmem)

theorem get?_relocate_of_mem {old : List ℕ} {new : List (String × DocLocation)}
    (hnew : ∀ e ∈ new, e.2.segment ∉ old) (hnodup : (new.map Prod.fst).Nodup)
    {locations : Locations} {loc loc' : DocLocation}
    (hx : locations.get? x = some loc) (hseg : loc.segment ∈ old) (hmem : (x, loc') ∈ new) :
    (new.foldl (relocate old) locations).get? x = some loc' := by
  induction new generalizing locations with
  | nil => cases hmem
  | cons e new ih =>
    obtain ⟨hnot, hrest⟩ := nodup_cons.1 hnodup
    rw [foldl_cons]
    rcases mem_cons.1 hmem with rfl | hmem
    · have hhere : (relocate old locations (x, loc')).get? x = some loc' := by
        rw [relocate, hx]
        simp only
        rw [if_pos hseg, get?_insert, if_pos rfl]
      rw [get?_relocate_of_not_mem, hhere]
      intro loc'' hloc'' _
      exact hnot
    · have hother : (relocate old locations e).get? x = some loc := by
        have hne : x ≠ e.1 := by
          rintro rfl
          exact hnot (mem_map.2 ⟨(e.1, loc'), hmem, rfl⟩)
        rw [relocate]
        cases he : locations.get? e.1 with
        | none => exact hx
        | some current =>
          simp only
          split_ifs
          · rw [get?_insert, if_neg hne, hx]
          · exact hx
      exact ih (fun e' he' => hnew e' (mem_cons_of_mem e he')) hrest hother hmem

end BinaryDocumentStore.Ok

def installedLogs (logs : Logs) (c : CompletedSegmentCompaction) (docs : List StoredDocument) :
    Logs :=
  (logs.insert c.newSegmentId (outputLog docs)).filter fun e => e.1 ∉ c.oldSegmentIds

section Install

variable {s : BinaryDocumentStore} {logs : Logs} {c : CompletedSegmentCompaction}
  {docs : List StoredDocument} {loc : DocLocation} {doc : StoredDocument}

open BinaryDocumentStore.Ok

theorem get?_installedLogs (id : ℕ) :
    (installedLogs logs c docs).get? id =
      if id ∈ c.oldSegmentIds then none
      else if id = c.newSegmentId then some (outputLog docs) else logs.get? id := by
  rw [installedLogs, SortedMap.get?_filter, SortedMap.get?_insert]
  by_cases hold : id ∈ c.oldSegmentIds
  · rw [if_pos hold, Option.filter_eq_none_iff]
    intro l _
    simp [hold]
  · rw [if_neg hold]
    split_ifs
    · simp [Option.filter, hold]
    · cases logs.get? id <;> simp [Option.filter, hold]

theorem CompletedSegmentCompaction.Ok.new_not_old (hc : c.Ok s logs docs) :
    c.newSegmentId ∉ c.oldSegmentIds := fun h => lt_irrefl _ (hc.old_lt_out _ h)

theorem At.installed (hc : c.Ok s logs docs)
    (hat : At logs loc doc) (hloc : loc.segment ∉ c.oldSegmentIds) :
    At (installedLogs logs c docs) loc doc := by
  obtain ⟨l, pre, post, hl, hrec, heq⟩ := hat
  refine ⟨l, pre, post, ?_, hrec, heq⟩
  rw [get?_installedLogs, if_neg hloc, if_neg, hl]
  intro hnew
  rw [hnew, hc.free] at hl
  cases hl

theorem install_locations (hc : c.Ok s logs docs) (x : String) :
    (s.locations.get? x = none → (s.installSegmentCompaction c).2.locations.get? x = none) ∧
    ∀ loc, s.locations.get? x = some loc →
      (loc.segment ∉ c.oldSegmentIds →
        (s.installSegmentCompaction c).2.locations.get? x = some loc) ∧
      (loc.segment ∈ c.oldSegmentIds → ∃ loc' doc,
        (s.installSegmentCompaction c).2.locations.get? x = some loc' ∧
        loc'.segment = c.newSegmentId ∧ doc ∈ docs ∧ doc.externalId = x ∧ At logs loc doc ∧
        At (installedLogs logs c docs) loc' doc) := by
  have heq : (s.installSegmentCompaction c).2.locations =
      c.newLocations.foldl (relocate c.oldSegmentIds) s.locations := rfl
  have hnodup : (c.newLocations.map Prod.fst).Nodup := by
    rw [hc.newLocations, map_fst_copies]
    exact hc.nodup
  rw [heq]
  refine ⟨fun hx => ?_, fun loc hx => ⟨fun hseg => ?_, fun hseg => ?_⟩⟩
  · rw [get?_relocate_of_not_mem, hx]
    intro loc hloc
    rw [hx] at hloc
    cases hloc
  · rw [get?_relocate_of_not_mem, hx]
    intro loc' hloc' hseg'
    rw [hx] at hloc'
    cases hloc'
    exact absurd hseg' hseg
  · obtain ⟨doc, hdoc, hid, hat⟩ := hc.covers x loc hx hseg
    obtain ⟨pre, post, hsplit⟩ := List.append_of_mem hdoc
    have hmem : (x, locationAt c.newSegmentId (8 + (encodeAll (pre.map .put)).length) doc) ∈
        c.newLocations := by
      rw [hc.newLocations, mem_copies]
      exact ⟨pre, doc, post, hsplit, by rw [hid]⟩
    refine ⟨_, doc, get?_relocate_of_mem (fun e he => ?_) hnodup hx hseg hmem, rfl, hdoc, hid, hat,
      at_copies hsplit ?_⟩
    · rw [hc.newLocations, mem_copies] at he
      obtain ⟨_, _, _, _, rfl⟩ := he
      exact hc.new_not_old
    · rw [get?_installedLogs, if_neg hc.new_not_old, if_pos rfl]

theorem BinaryDocumentStore.Ok.install (h : s.Ok logs) (hc : c.Ok s logs docs) :
    (s.installSegmentCompaction c).2.Ok (installedLogs logs c docs) := by
  have hold : ∀ id, id ∈ c.oldSegmentIds → id ≠ s.currentSegment := fun id hid heq =>
    lt_irrefl _ (heq ▸ hc.old_lt id hid)
  have hcur : c.newSegmentId ≠ s.currentSegment := by
    intro heq
    obtain ⟨l, hl, -⟩ := h.current
    rw [← heq, hc.free] at hl
    cases hl
  have hfits : ∀ doc ∈ docs, doc.Fits := by
    intro doc hdoc
    obtain ⟨loc, -, hat⟩ := hc.origin doc hdoc
    exact hat.fits h.fit
  have hget : ∀ id l, (installedLogs logs c docs).get? id = some l →
      id = c.newSegmentId ∧ l = outputLog docs ∨ logs.get? id = some l := by
    intro id l hl
    rw [get?_installedLogs] at hl
    split_ifs at hl with hold' hnew
    · cases hl
      exact .inl ⟨hnew, rfl⟩
    · exact .inr hl
  constructor
  · show (s.dir.segments.insert c.newSegmentId c.bytes).filter _ = _
    refine SortedMap.ext_get? fun id => ?_
    rw [SortedMap.get?_map, get?_installedLogs, SortedMap.get?_filter, SortedMap.get?_insert,
      h.get?_segments, hc.bytes]
    by_cases hid : id ∈ c.oldSegmentIds
    · rw [if_pos hid, Option.map_none, Option.filter_eq_none_iff]
      intro _ _
      simp [hid]
    · rw [if_neg hid]
      split_ifs
      · simp [Option.filter, hid]
      · cases logs.get? id <;> simp [Option.filter, hid]
  · intro id l hl r hr
    rcases hget id l hl with ⟨-, rfl⟩ | hl
    · obtain ⟨doc, hdoc, rfl⟩ := List.mem_map.1 hr
      exact hfits doc hdoc
    · exact h.fit id l hl r hr
  · intro x loc' hx'
    obtain ⟨hnone, hsome⟩ := install_locations hc x
    cases hx : s.locations.get? x with
    | none =>
      rw [hnone hx] at hx'
      cases hx'
    | some loc =>
      by_cases hseg : loc.segment ∈ c.oldSegmentIds
      · obtain ⟨loc'', doc, hloc'', -, -, hid, -, hat⟩ := (hsome loc hx).2 hseg
        rw [hloc''] at hx'
        cases hx'
        exact ⟨doc, hid, hat⟩
      · rw [(hsome loc hx).1 hseg] at hx'
        cases hx'
        obtain ⟨doc, hid, hat⟩ := h.located x _ hx
        exact ⟨doc, hid, hat.installed hc hseg⟩
  · intro x doc hx
    obtain ⟨hid, loc, hloc, hat⟩ := h.cached x doc hx
    refine ⟨hid, ?_⟩
    obtain ⟨-, hsome⟩ := install_locations hc x
    by_cases hseg : loc.segment ∈ c.oldSegmentIds
    · obtain ⟨loc', doc', hloc', -, -, -, hat₀, hat'⟩ := (hsome loc hloc).2 hseg
      exact ⟨loc', hloc', hat₀.unique hat h.fit ▸ hat'⟩
    · exact ⟨loc, (hsome loc hloc).1 hseg, hat.installed hc hseg⟩
  · obtain ⟨l, hl, hcomp⟩ := h.current
    refine ⟨l, ?_, hcomp⟩
    show (installedLogs logs c docs).get? s.currentSegment = _
    rw [get?_installedLogs, if_neg fun hmem => hold _ hmem rfl, if_neg hcur.symm, hl]
  · intro id l hl
    rcases hget id l hl with ⟨rfl, -⟩ | hl
    · exact hc.out_lt
    · exact h.below id l hl
  · intro id l hl hid
    rcases hget id l hl with ⟨rfl, rfl⟩ | hl
    · rfl
    · exact h.above id l hl hid

end Install
