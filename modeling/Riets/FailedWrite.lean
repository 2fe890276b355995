/-
Calls of a document store that fail.

A put or a delete changes the maps after its record is written, so a call that fails leaves
them alone.  A batch changes them document by document while it writes: one that fails later
leaves documents in the maps and in the cache whose records were never written.
-/
import Riets.InternalIds
import Riets.ReaderFrame

open StoreDir BinaryDocumentStore List SortedMap

/-! ### Failing calls -/

inductive WriteFailure where
  | opening
  /-- A write or the flush, with some documents recorded and some bytes in the file. -/
  | writing (recorded written : ℕ)
  /-- `maybe_rotate_segment` cannot measure the segment. -/
  | measuring
  /-- The next segment is not created, or with the first bytes of its magic. -/
  | rotating (created : Option ℕ)
  deriving DecidableEq

def WriteFailure.recorded (n : ℕ) : WriteFailure → ℕ
  | opening => 0
  | writing recorded _ => min recorded n
  | measuring => n
  | rotating _ => n

namespace BinaryDocumentStore

/-- A rotation that fails has taken the number of the next segment. -/
def failedRotation (s : BinaryDocumentStore) (created : Option ℕ) : BinaryDocumentStore :=
  { s.setSegments (match created with
      | none => s.dir.segments
      | some n => s.dir.segments.insert s.nextSegmentId (magic.take n)) with
    nextSegmentId := s.nextSegmentId + 1 }

/-- The files after an append that fails; none when it cannot fail there. -/
def failedAppend (s : BinaryDocumentStore) (bytes : ByteSeq) :
    WriteFailure → Option BinaryDocumentStore
  | .opening => some s
  | .writing _ written => some (s.appendBytes (bytes.take written))
  | .measuring => some (s.appendBytes bytes)
  | .rotating created =>
    if ((s.appendBytes bytes).dir.segments.get? s.currentSegment).any
        fun bytes => defaultSegmentSize ≤ bytes.length then
      some ((s.appendBytes bytes).failedRotation created)
    else none

def failedPut (s : BinaryDocumentStore) (doc : StoredDocument) (f : WriteFailure) :
    Option BinaryDocumentStore :=
  s.failedAppend (StoreRecord.put doc).encode f

def failedDelete (s : BinaryDocumentStore) (x : String) (f : WriteFailure) :
    Option BinaryDocumentStore :=
  (s.locations.get? x).bind fun loc => s.failedAppend (StoreRecord.delete x loc.internalId).encode f

/-- A batch that fails: the documents recorded so far stay in the maps and in the cache. -/
def failedBatch (s : BinaryDocumentStore) (docs : List StoredDocument) (f : WriteFailure) :
    Option BinaryDocumentStore :=
  (s.failedAppend (encodeAll ((docs.take (f.recorded docs.length + 1)).map .put)) f).map fun files =>
    { (docs.take (f.recorded docs.length)).foldl putOne s with
      dir := files.dir
      nextSegmentId := files.nextSegmentId }

end BinaryDocumentStore

inductive FailedCall where
  | put (doc : FittingDocument) (failure : WriteFailure)
  | putBatch (docs : List FittingDocument) (failure : WriteFailure)
  | delete (externalId : String) (failure : WriteFailure)

namespace FailedCall

def recorded : FailedCall → List FittingDocument
  | put _ _ => []
  | putBatch docs f => docs.take (f.recorded docs.length)
  | delete _ _ => []

def after (s : BinaryDocumentStore) : FailedCall → Option BinaryDocumentStore
  | put doc f => s.failedPut doc.1 f
  | putBatch docs f => s.failedBatch (docs.map Subtype.val) f
  | delete x f => s.failedDelete x f

end FailedCall

namespace MappedRun

/-- The store and its second map after a failing call; none when the call cannot fail there. -/
def failed (m : MappedRun) (c : FailedCall) : Option MappedRun :=
  (c.after m.run.store).map fun store =>
    ⟨{ m.run with store }, c.recorded.foldl (fun ids doc => ids.insert doc.1.internalId doc.1.externalId)
      m.internalToExternal⟩

end MappedRun

inductive StoreEvent where
  | step (st : StoreStep)
  | failed (c : FailedCall)

namespace MappedRun

def event (m : MappedRun) : StoreEvent → IoResult MappedRun
  | .step st => m.step st
  | .failed c => .ok ((m.failed c).getD m)

def events (m : MappedRun) (es : List StoreEvent) : IoResult MappedRun := es.foldlM event m

/-- The maps, the cache and what is got for every external id are the same. -/
structure Unchanged (m m' : MappedRun) : Prop where
  locations : m'.run.store.locations = m.run.store.locations
  internalToExternal : m'.internalToExternal = m.internalToExternal
  docs : m'.run.store.docs = m.run.store.docs
  get : ∀ x, (m'.run.store.get x).map Prod.fst = (m.run.store.get x).map Prod.fst

end MappedRun

/-! ### Documents that can be read -/

def ReadsAt (bytes : ByteSeq) (offset : ℕ) (doc : StoredDocument) : Prop :=
  ∃ rest, readDocument (bytes.drop offset) = .ok (doc, rest)

namespace ReadsAt

open List

variable {bytes bytes' : ByteSeq} {offset : ℕ} {doc : StoredDocument}

theorem lt_length (h : ReadsAt bytes offset doc) : offset < bytes.length := by
  by_contra hle
  obtain ⟨rest, h⟩ := h
  rw [drop_eq_nil_of_le (not_lt.mp hle)] at h
  cases h

theorem mono (h : ReadsAt bytes offset doc) (hpre : bytes <+: bytes') : ReadsAt bytes' offset doc := by
  have hlt := h.lt_length
  obtain ⟨rest, h⟩ := h
  obtain ⟨more, rfl⟩ := hpre
  refine frames_document.mono h ?_
  rw [drop_append_of_le_length hlt.le]
  exact prefix_append _ _

theorem written (hdoc : doc.Fits) (bytes more : ByteSeq) :
    ReadsAt (bytes ++ ((StoreRecord.put doc).encode ++ more)) (bytes.length + 1) doc := by
  refine ⟨more, ?_⟩
  have hdrop : (bytes ++ ((StoreRecord.put doc).encode ++ more)).drop (bytes.length + 1) =
      writeDocument doc ++ more := by
    rw [← drop_drop, drop_left' rfl]
    rfl
  rw [hdrop]
  exact (decodes_document hdoc).whole more

end ReadsAt

theorem take_eq_of_beginning {kept bytes : ByteSeq} (hpre : kept <+: bytes) (h : kept.take 8 = magic) :
    bytes.take 8 = magic := by
  obtain ⟨more, rfl⟩ := hpre
  have hlen := congrArg length h
  rw [length_take, magic] at hlen
  simp only [length_cons, length_nil] at hlen
  rw [take_append_of_le_length (by omega)]
  exact h

/-- The document at a place can be read, unless a compaction wrote it. -/
def PlaceReadable (segments : SortedMap ℕ ByteSeq) (loc : DocLocation) : Prop :=
  ∀ bytes, segments.get? loc.segment = some bytes → bytes.take 8 = magic →
    ∃ doc, ReadsAt bytes loc.offset doc

/-- The places of the documents lie in segments that are not made later. -/
structure PlacesOk (segments : SortedMap ℕ ByteSeq) (locations : Locations) : Prop where
  bounded : ∀ x loc, locations.get? x = some loc → ∃ id ∈ segments.keys, loc.segment ≤ id
  readable : ∀ x loc, locations.get? x = some loc → PlaceReadable segments loc

structure SavedOk (m : MapsFile) (segments : SortedMap ℕ ByteSeq) : Prop where
  nodup : (m.segmentEnds.map Prod.fst).Nodup
  ends : ∀ e ∈ m.segmentEnds, ∃ bytes, segments.get? e.1 = some bytes ∧ e.2 ≤ bytes.length
  bounded : ∀ e ∈ m.entries, ∃ k ∈ m.segmentEnds.map Prod.fst, e.2.segment ≤ k
  readable : ∀ e ∈ m.entries, ∀ bytes, segments.get? e.2.segment = some bytes →
    bytes.take 8 = magic →
    ∃ stop doc, (e.2.segment, stop) ∈ m.segmentEnds ∧ ReadsAt (bytes.take stop) e.2.offset doc

/-- The segments of a compaction under way are none that is written to. -/
def Compacting.Apart (s : BinaryDocumentStore) : Compacting → Prop
  | .idle => True
  | .planned job => job.nextSegmentId ≠ s.currentSegment ∧ job.nextSegmentId < s.nextSegmentId ∧
      ∀ id ∈ job.segmentIds, id < s.currentSegment
  | .completed c => c.newSegmentId ≠ s.currentSegment ∧ c.newSegmentId < s.nextSegmentId ∧
      (∀ id ∈ c.oldSegmentIds, id < s.currentSegment) ∧
      c.bytes.take 8 = compactedMagic ∧ ∀ e ∈ c.newLocations, e.2.segment = c.newSegmentId

structure StoreRun.Steady (r : StoreRun) : Prop where
  current : ∃ bytes, r.store.dir.segments.get? r.store.currentSegment = some bytes ∧ bytes.take 8 = magic
  below : ∀ id ∈ r.store.dir.segments.keys, id < r.store.nextSegmentId
  places : PlacesOk r.store.dir.segments r.store.locations
  maps : ∀ m, r.store.dir.maps = some m → SavedOk m r.store.dir.segments
  apart : r.compacting.Apart r.store

/-! ### Segments that grow -/

/-- Segments for appending get bytes at their ends, and new ones come above all others. -/
structure SegmentsGrow (segments segments' : SortedMap ℕ ByteSeq) : Prop where
  old : ∀ id bytes, segments.get? id = some bytes → ∃ bytes', segments'.get? id = some bytes' ∧
    (bytes' = bytes ∨ bytes <+: bytes' ∧ bytes.take 8 = magic)
  new : ∀ id ∈ segments'.keys, id ∉ segments.keys → ∀ k ∈ segments.keys, k < id

namespace SegmentsGrow

variable {segments segments' : SortedMap ℕ ByteSeq}

theorem grown (h : SegmentsGrow segments segments') {id : ℕ} {bytes : ByteSeq}
    (hget : segments.get? id = some bytes) : ∃ bytes', segments'.get? id = some bytes' ∧
      bytes <+: bytes' ∧ (bytes'.take 8 = magic → bytes.take 8 = magic) := by
  obtain ⟨bytes', hget', rfl | ⟨hpre, hmagic⟩⟩ := h.old id bytes hget
  · exact ⟨bytes', hget', prefix_rfl, fun h => h⟩
  · exact ⟨bytes', hget', hpre, fun _ => hmagic⟩

theorem mem_keys (h : SegmentsGrow segments segments') {id : ℕ} (hid : id ∈ segments.keys) :
    id ∈ segments'.keys := by
  obtain ⟨bytes, hget⟩ := SortedMap.mem_keys.mp hid
  obtain ⟨bytes', hget', -⟩ := h.old id bytes hget
  exact SortedMap.mem_keys.mpr ⟨bytes', hget'⟩

theorem trans {segments'' : SortedMap ℕ ByteSeq} (h : SegmentsGrow segments segments')
    (h' : SegmentsGrow segments' segments'') : SegmentsGrow segments segments'' where
  old id bytes hget := by
    obtain ⟨bytes', hget', rfl | ⟨hpre, hmagic⟩⟩ := h.old id bytes hget
    · exact h'.old id bytes' hget'
    · obtain ⟨bytes'', hget'', rfl | ⟨hpre', -⟩⟩ := h'.old id bytes' hget'
      · exact ⟨bytes'', hget'', .inr ⟨hpre, hmagic⟩⟩
      · exact ⟨bytes'', hget'', .inr ⟨hpre.trans hpre', hmagic⟩⟩
  new id hid hnot k hk := by
    by_cases hmid : id ∈ segments'.keys
    · exact h.new id hmid hnot k hk
    · exact h'.new id hid hmid k (h.mem_keys hk)

theorem mem_of_le (h : SegmentsGrow segments segments') {id k : ℕ} (hid : id ∈ segments'.keys)
    (hk : k ∈ segments.keys) (hle : id ≤ k) : id ∈ segments.keys := by
  by_contra hnew
  have := h.new id hid hnew k hk
  omega

theorem append {id : ℕ} {bytes : ByteSeq} (hget : segments.get? id = some bytes)
    (hmagic : bytes.take 8 = magic) (more : ByteSeq)
    (hget' : ∀ k, segments'.get? k = if k = id then some (bytes ++ more) else segments.get? k) :
    SegmentsGrow segments segments' where
  old k old hold := by
    rw [hget' k]
    split_ifs with hk
    · subst hk
      rw [hget] at hold
      cases hold
      exact ⟨_, rfl, .inr ⟨prefix_append _ _, hmagic⟩⟩
    · exact ⟨old, hold, .inl rfl⟩
  new k hk hnot := by
    exfalso
    obtain ⟨v, hv⟩ := SortedMap.mem_keys.mp hk
    rw [hget' k] at hv
    split_ifs at hv with hid
    · exact hnot (hid ▸ SortedMap.mem_keys.mpr ⟨bytes, hget⟩)
    · exact hnot (SortedMap.mem_keys.mpr ⟨v, hv⟩)

theorem insert {id : ℕ} (hid : ∀ k ∈ segments.keys, k < id) (bytes : ByteSeq) :
    SegmentsGrow segments (segments.insert id bytes) where
  old k old hold := by
    have hlt : k < id := hid k (SortedMap.mem_keys.mpr ⟨old, hold⟩)
    refine ⟨old, ?_, .inl rfl⟩
    rw [get?_insert, if_neg (ne_of_lt hlt)]
    exact hold
  new k hk hnot := by
    obtain ⟨v, hv⟩ := SortedMap.mem_keys.mp hk
    rw [get?_insert] at hv
    split_ifs at hv with heq
    · rw [heq]
      exact hid
    · exact absurd (SortedMap.mem_keys.mpr ⟨v, hv⟩) hnot

end SegmentsGrow

variable {segments : SortedMap ℕ ByteSeq} {s : BinaryDocumentStore}

theorem PlacesOk.grow {segments' : SortedMap ℕ ByteSeq} {locations : Locations}
    (h : PlacesOk segments locations) (hgrow : SegmentsGrow segments segments') :
    PlacesOk segments' locations where
  bounded x loc hx := by
    obtain ⟨id, hid, hle⟩ := h.bounded x loc hx
    exact ⟨id, hgrow.mem_keys hid, hle⟩
  readable x loc hx bytes' hget' hmagic' := by
    obtain ⟨id, hid, hle⟩ := h.bounded x loc hx
    have hmem := hgrow.mem_of_le (mem_keys.mpr ⟨bytes', hget'⟩) hid hle
    obtain ⟨bytes, hget⟩ := mem_keys.mp hmem
    obtain ⟨bytes'', hget'', hpre, hmagic⟩ := hgrow.grown hget
    obtain rfl : bytes' = bytes'' := Option.some_inj.mp (hget'.symm.trans hget'')
    obtain ⟨doc, hreads⟩ := h.readable x loc hx bytes hget (hmagic hmagic')
    exact ⟨doc, hreads.mono hpre⟩

theorem SavedOk.grow {m : MapsFile} {segments' : SortedMap ℕ ByteSeq} (h : SavedOk m segments)
    (hgrow : SegmentsGrow segments segments') : SavedOk m segments' where
  nodup := h.nodup
  ends e he := by
    obtain ⟨bytes, hget, hle⟩ := h.ends e he
    obtain ⟨bytes', hget', hpre, -⟩ := hgrow.grown hget
    exact ⟨bytes', hget', hle.trans hpre.length_le⟩
  bounded := h.bounded
  readable e he bytes' hget' hmagic' := by
    obtain ⟨k, hk, hle⟩ := h.bounded e he
    obtain ⟨p, hp, rfl⟩ := mem_map.mp hk
    obtain ⟨known, hknown, -⟩ := h.ends p hp
    have hmem := hgrow.mem_of_le (mem_keys.mpr ⟨bytes', hget'⟩)
      (mem_keys.mpr ⟨known, hknown⟩) hle
    obtain ⟨bytes, hget⟩ := mem_keys.mp hmem
    obtain ⟨bytes'', hget'', hpre, hmagic⟩ := hgrow.grown hget
    obtain rfl : bytes' = bytes'' := Option.some_inj.mp (hget'.symm.trans hget'')
    obtain ⟨stop, doc, hstop, hreads⟩ := h.readable e he bytes hget (hmagic hmagic')
    exact ⟨stop, doc, hstop, hreads.mono (hpre.take stop)⟩

theorem PlacesOk.saved (h : PlacesOk s.dir.segments s.locations)
    (highest : DocId) : SavedOk (s.currentMaps highest) s.dir.segments := by
  have hkeys : (s.currentMaps highest).segmentEnds.map Prod.fst = s.dir.segments.keys := by
    rw [currentMaps, map_map]
    rfl
  have hmem : ∀ e ∈ (s.currentMaps highest).segmentEnds,
      ∃ bytes, s.dir.segments.get? e.1 = some bytes ∧ e.2 = bytes.length := by
    intro e he
    obtain ⟨⟨id, bytes⟩, hin, rfl⟩ := mem_map.mp he
    exact ⟨bytes, mem_entries.mp hin, rfl⟩
  refine ⟨?_, ?_, ?_, ?_⟩
  · rw [hkeys]
    exact s.dir.segments.keys_ascending.imp fun h => ne_of_lt h
  · intro e he
    obtain ⟨bytes, hget, hlen⟩ := hmem e he
    exact ⟨bytes, hget, hlen.le⟩
  · intro e he
    rw [hkeys]
    exact h.bounded e.1 e.2 (mem_entries.mp he)
  · intro e he bytes hget hmagic
    obtain ⟨doc, hreads⟩ := h.readable e.1 e.2 (mem_entries.mp he) bytes hget hmagic
    refine ⟨bytes.length, doc, ?_, by rwa [take_length]⟩
    exact mem_map.mpr ⟨(e.2.segment, bytes), mem_entries.mpr hget, rfl⟩

theorem PlacesOk.insert {segments : SortedMap ℕ ByteSeq} {locations : Locations}
    (h : PlacesOk segments locations) {loc : DocLocation} {bytes : ByteSeq}
    (hget : segments.get? loc.segment = some bytes) {doc : StoredDocument}
    (hreads : ReadsAt bytes loc.offset doc) (x : String) :
    PlacesOk segments (insert locations x loc) where
  bounded y loc' hy := by
    rw [get?_insert] at hy
    split_ifs at hy with heq
    · cases hy
      exact ⟨loc.segment, mem_keys.mpr ⟨bytes, hget⟩, le_refl _⟩
    · exact h.bounded y loc' hy
  readable y loc' hy := by
    rw [get?_insert] at hy
    split_ifs at hy with heq
    · cases hy
      intro bytes' hget' _
      rw [hget] at hget'
      cases hget'
      exact ⟨doc, hreads⟩
    · exact h.readable y loc' hy

theorem PlacesOk.subset {locations locations' : Locations}
    (h : PlacesOk segments locations)
    (hsub : ∀ x loc, locations'.get? x = some loc → locations.get? x = some loc) :
    PlacesOk segments locations' where
  bounded x loc hx := h.bounded x loc (hsub x loc hx)
  readable x loc hx := h.readable x loc (hsub x loc hx)

theorem Compacting.Apart.mono {s' : BinaryDocumentStore} {c : Compacting} (h : c.Apart s)
    (hcur : s'.currentSegment = s.currentSegment) (hnext : s.nextSegmentId ≤ s'.nextSegmentId) :
    c.Apart s' := by
  cases c with
  | idle => trivial
  | planned job =>
    obtain ⟨hne, hlt, hold⟩ := h
    exact ⟨hcur ▸ hne, hlt.trans_le hnext, hcur ▸ hold⟩
  | completed c =>
    obtain ⟨hne, hlt, hold, hrest⟩ := h
    exact ⟨hcur ▸ hne, hlt.trans_le hnext, hcur ▸ hold, hrest⟩

theorem Compacting.Apart.rotate {s' : BinaryDocumentStore} {c : Compacting} (h : c.Apart s)
    (hlt : s.currentSegment < s.nextSegmentId) (hcur : s'.currentSegment = s.nextSegmentId)
    (hnext : s'.nextSegmentId = s.nextSegmentId + 1) : c.Apart s' := by
  cases c with
  | idle => trivial
  | planned job =>
    obtain ⟨-, hout, hold⟩ := h
    refine ⟨by omega, by omega, ?_⟩
    intro id hid
    have := hold id hid
    omega
  | completed c =>
    obtain ⟨-, hout, hold, hrest⟩ := h
    refine ⟨by omega, by omega, ?_, hrest⟩
    intro id hid
    have := hold id hid
    omega
