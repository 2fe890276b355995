/-
The highest id a document store knows.

`put` raises the highest id of the open store, `put_batch` and `delete` do not,
and the maps are saved with it; so a save can forget ids.
-/
import Riets.LoadAgreement

open StoreDir BinaryDocumentStore

def StoreRecord.internalId : StoreRecord → DocId
  | .put doc => doc.internalId
  | .delete _ id => id

theorem highestId_apply (l : Loading) (p : SegmentRecord) :
    (l.apply p.1 p.2).highestId = max l.highestId p.2.record.internalId := by
  unfold Loading.apply
  cases p.2.record with
  | put doc => rfl
  | delete x deleted => rfl

theorem le_highestId_replay {l : Loading} {ps : List SegmentRecord} {id : DocId}
    (h : id ≤ l.highestId ∨ ∃ p ∈ ps, id ≤ p.2.record.internalId) :
    id ≤ (l.replay ps).highestId := by
  induction ps generalizing l with
  | nil => exact h.resolve_right fun ⟨p, hp, _⟩ => by cases hp
  | cons p ps ih =>
    refine ih (l := l.apply p.1 p.2) ?_
    rw [highestId_apply]
    rcases h with hl | ⟨q, hq, hle⟩
    · exact .inl (hl.trans (le_max_left _ _))
    · rcases List.mem_cons.1 hq with rfl | hq
      · exact .inl (hle.trans (le_max_right _ _))
      · exact .inr ⟨q, hq, hle⟩

/-- The saved maps record an id, or a record they do not cover does. -/
def Recorded (m : MapsFile) (base logs : Logs) (id : DocId) : Prop :=
  id ≤ m.highestId ∨ (∃ e ∈ m.entries, id ≤ e.2.internalId) ∨
    ∃ p ∈ pending base logs, id ≤ p.2.record.internalId

structure Marked (r : StoreRun) (logs : Logs) (ids : List DocId) : Prop where
  scanned : r.store.dir.maps = none → ∀ id ∈ ids, ∃ p ∈ allPlaced logs, id ≤ p.2.record.internalId
  saved : ∀ m, r.store.dir.maps = some m → ∃ base locs, MapsOk m r.store logs base locs ∧
    ∀ id ∈ ids, Recorded m base logs id

theorem le_highestId_savedMaps {dir : StoreDir} {m : MapsFile} {id : DocId}
    (h : id ≤ m.highestId ∨ ∃ e ∈ m.entries, id ≤ e.2.internalId) :
    id ≤ (dir.savedMaps m).highestId := by
  have hfold : ∀ (entries : List (String × DocLocation)) (b : DocId),
      (id ≤ b ∨ ∃ e ∈ entries, id ≤ e.2.internalId) →
      id ≤ entries.foldl (fun h e => max h e.2.internalId) b := by
    intro entries
    induction entries with
    | nil => exact fun b hb => hb.resolve_right fun ⟨e, he, _⟩ => by cases he
    | cons e entries ih =>
      intro b hb
      refine ih _ ?_
      rcases hb with hb | ⟨e', he', hle⟩
      · exact .inl (hb.trans (le_max_left _ _))
      · rcases List.mem_cons.1 he' with rfl | he'
        · exact .inl (hle.trans (le_max_right _ _))
        · exact .inr ⟨e', he', hle⟩
  exact hfold m.entries m.highestId h

namespace Marked

open List SortedMap StoreRun

variable {r : StoreRun} {logs : Logs} {ids : List DocId} {l : SegmentLog}

theorem le_highestId (h : r.Valid logs) (hm : Marked r logs ids) {loaded : Loading}
    (hload : loadEither r.store.dir = .ok loaded) {id : DocId} (hid : id ∈ ids) :
    id ≤ loaded.highestId := by
  cases hmaps : r.store.dir.maps with
  | none =>
    have hscan := load_ok h.store.segments h.store.fit
    rw [loadEither, loadFromMaps, hmaps] at hload
    have hload' : load r.store.dir = .ok loaded := hload
    rw [hscan] at hload'
    cases hload'
    exact le_highestId_replay (.inr (hm.scanned hmaps id hid))
  | some m =>
    obtain ⟨base, locs, hok, hrec⟩ := hm.saved m hmaps
    obtain ⟨l, hl, -, -, heq⟩ := loadFromMaps_ok h.store hmaps hok
    rw [loadEither, hl] at hload
    cases hload
    rw [heq]
    refine le_highestId_replay ?_
    rcases hrec id hid with hle | hentry | hpending
    · exact .inl (le_highestId_savedMaps (.inl hle))
    · exact .inl (le_highestId_savedMaps (.inr hentry))
    · exact .inr hpending

theorem mono (hm : Marked r logs ids) {ids' : List DocId} (hsub : ∀ id ∈ ids', id ∈ ids) :
    Marked r logs ids' where
  scanned hnone id hid := hm.scanned hnone id (hsub id hid)
  saved m hsome := by
    obtain ⟨base, locs, hok, hrec⟩ := hm.saved m hsome
    exact ⟨base, locs, hok, fun id hid => hrec id (hsub id hid)⟩

theorem congr (hm : Marked r logs ids) {r' : StoreRun} (hdir : r'.store.dir = r.store.dir)
    (hloc : r'.store.locations = r.store.locations)
    (hcur : r'.store.currentSegment = r.store.currentSegment) : Marked r' logs ids where
  scanned hnone := hm.scanned (hdir ▸ hnone)
  saved m hsome := by
    rw [hdir] at hsome
    obtain ⟨base, locs, hok, hrec⟩ := hm.saved m hsome
    exact ⟨base, locs, hok.congr hcur hloc, hrec⟩

theorem push (hm : Marked r logs ids) (hl : logs.get? r.store.currentSegment = some l)
    {rec : StoreRecord} {s' : BinaryDocumentStore} (hdir : s'.dir.maps = r.store.dir.maps)
    (hmaps : ∀ m base locs, MapsOk m r.store logs base locs →
      MapsOk m s' (logs.push r.store.currentSegment l rec) base locs) :
    Marked { r with store := s' } (logs.push r.store.currentSegment l rec)
      (rec.internalId :: ids) where
  scanned hnone id hid := by
    have hnone' : r.store.dir.maps = none := hdir ▸ hnone
    rcases mem_cons.1 hid with rfl | hid
    · exact ⟨_, (mem_allPlaced_push hl).2 (.inr rfl), le_rfl⟩
    · obtain ⟨p, hp, hle⟩ := hm.scanned hnone' id hid
      exact ⟨p, (mem_allPlaced_push hl).2 (.inl hp), hle⟩
  saved m hsome := by
    have hsome' : r.store.dir.maps = some m := hdir ▸ hsome
    obtain ⟨base, locs, hok, hrec⟩ := hm.saved m hsome'
    refine ⟨base, locs, hmaps m base locs hok, fun id hid => ?_⟩
    rw [Recorded, hok.pending_push hl rec]
    rcases mem_cons.1 hid with rfl | hid
    · exact .inr (.inr ⟨_, mem_append_right _ (mem_singleton.2 rfl), le_rfl⟩)
    · rcases hrec id hid with hle | hentry | ⟨p, hp, hle⟩
      · exact .inl hle
      · exact .inr (.inl hentry)
      · exact .inr (.inr ⟨p, mem_append_left _ hp, hle⟩)

theorem putOne (h : r.Valid logs) (hm : Marked r logs ids)
    (hl : logs.get? r.store.currentSegment = some l) (doc : StoredDocument) :
    Marked { r with store := r.store.putOne doc } (logs.push r.store.currentSegment l (.put doc))
      (doc.internalId :: ids) :=
  hm.push hl rfl fun _ _ _ hok => hok.putOne h.store hl doc

theorem removeOne (hm : Marked r logs ids) (hl : logs.get? r.store.currentSegment = some l)
    {x : String} {loc : DocLocation} (hx : r.store.locations.get? x = some loc) :
    Marked { r with store := r.store.removeOne x loc.internalId }
      (logs.push r.store.currentSegment l (.delete x loc.internalId)) ids := by
  have hpush : Marked { r with store := r.store.removeOne x loc.internalId }
      (logs.push r.store.currentSegment l (.delete x loc.internalId)) (loc.internalId :: ids) :=
    hm.push hl rfl fun _ _ _ hok => hok.removeOne hl hx
  exact hpush.mono fun _ hid => mem_cons_of_mem _ hid

theorem rotated (h : r.Valid logs) (hm : Marked r logs ids) :
    Marked { r with store := r.store.rotated } (logs.insert r.store.nextSegmentId ⟨false, []⟩)
      ids := by
  have hgt : ∀ id ∈ logs.keys, id < r.store.nextSegmentId := by
    intro id hid
    obtain ⟨lg, hlg⟩ := mem_keys.1 hid
    exact h.store.below id lg hlg
  constructor
  · intro hnone
    rw [allPlaced_insert_empty hgt]
    exact hm.scanned hnone
  · intro m hsome
    obtain ⟨base, locs, hok, hrec⟩ := hm.saved m hsome
    refine ⟨base, locs, hok.rotated h.store, fun id hid => ?_⟩
    rw [Recorded, MapsOk.pending_insert_empty hgt]
    exact hrec id hid

def Known (s : BinaryDocumentStore) (ids : List DocId) : Prop :=
  ∀ id ∈ ids, id ≤ s.highestId ∨ ∃ x loc, s.locations.get? x = some loc ∧ id ≤ loc.internalId

theorem saveMaps (h : r.Valid logs) (hknown : Known r.store ids) :
    Marked { r with store := r.store.saveMaps r.store.highestId } logs ids where
  scanned hnone := by cases hnone
  saved m hsome := by
    cases hsome
    refine ⟨logs, r.store.locations, (mapsOk_current h.store _).congr rfl rfl, fun id hid => ?_⟩
    rcases hknown id hid with hle | ⟨x, loc, hx, hle⟩
    · exact .inl hle
    · exact .inr (.inl ⟨(x, loc), mem_entries.2 hx, hle⟩)

theorem installed {c : CompletedSegmentCompaction} {docs : List StoredDocument} (h : r.Valid logs)
    (hc : c.Ok r.store logs docs) (hknown : Known r.store ids) :
    Marked ⟨(r.store.installSegmentCompaction c).2, .idle⟩ (installedLogs logs c docs) ids where
  scanned hnone := by cases hnone
  saved m hsome := by
    have hcurrent := mapsOk_current (h.store.install hc) r.store.highestId
    cases hsome
    refine ⟨_, _, hcurrent, fun id hid => ?_⟩
    rcases hknown id hid with hle | ⟨x, loc, hx, hle⟩
    · exact .inl hle
    · obtain ⟨-, hsome⟩ := install_locations hc x
      by_cases hseg : loc.segment ∈ c.oldSegmentIds
      · obtain ⟨loc', doc, hloc', -, -, -, hat, hat'⟩ := (hsome loc hx).2 hseg
        refine .inr (.inl ⟨(x, loc'), mem_entries.2 hloc', ?_⟩)
        rw [hat.internalId] at hle
        exact hle.trans (le_of_eq hat'.internalId.symm)
      · exact .inr (.inl ⟨(x, loc), mem_entries.2 ((hsome loc hx).1 hseg), hle⟩)

theorem reopened (h : r.Valid logs) (hm : Marked r logs ids) {s' : BinaryDocumentStore}
    (hopen : openWithMaps r.store.dir = .ok s') :
    ∃ logs', Valid ⟨s', .idle⟩ logs' ∧ Marked ⟨s', .idle⟩ logs' ids := by
  obtain ⟨s'', logs', hopen', hvalid, hlogs, -, -, hmaps, hkeep, -⟩ := h.reopened
  rw [hopen] at hopen'
  cases hopen'
  refine ⟨logs', hvalid, fun hnone id hid => ?_, fun m hsome => ?_⟩
  · have hplaced : allPlaced logs' = allPlaced logs := by
      rcases hlogs with rfl | ⟨id, hgt, rfl⟩
      · rfl
      · exact allPlaced_insert_empty hgt
    rw [hplaced]
    exact hm.scanned (hmaps ▸ hnone) id hid
  · have hsome' : r.store.dir.maps = some m := hmaps ▸ hsome
    obtain ⟨base, locs, hok, hrec⟩ := hm.saved m hsome'
    refine ⟨base, locs, hkeep m base locs hsome' hok, fun id hid => ?_⟩
    have hpending : pending base logs' = pending base logs := by
      rcases hlogs with rfl | ⟨id, hgt, rfl⟩
      · rfl
      · exact MapsOk.pending_insert_empty hgt
    rw [Recorded, hpending]
    exact hrec id hid

theorem foldl_putOne (h : r.Valid logs) (hm : Marked r logs ids) {docs : List StoredDocument}
    (hdocs : ∀ doc ∈ docs, doc.Fits) :
    ∃ logs', Valid { r with store := docs.foldl BinaryDocumentStore.putOne r.store } logs' ∧
      Marked { r with store := docs.foldl BinaryDocumentStore.putOne r.store } logs'
        (docs.map StoredDocument.internalId ++ ids) := by
  induction docs generalizing r logs ids with
  | nil => exact ⟨logs, h, hm⟩
  | cons doc docs ih =>
    obtain ⟨l, hl, -⟩ := h.store.current
    obtain ⟨logs', hvalid, hmarked⟩ := ih (h.putOne hl (hdocs doc mem_cons_self))
      (hm.putOne h hl doc) fun d hd => hdocs d (mem_cons_of_mem doc hd)
    refine ⟨logs', hvalid, hmarked.mono fun id hid => ?_⟩
    rw [map_cons, cons_append] at hid
    rcases mem_cons.1 hid with rfl | hid
    · exact mem_append_right _ mem_cons_self
    · rcases mem_append.1 hid with hin | hin
      · exact mem_append_left _ hin
      · exact mem_append_right _ (mem_cons_of_mem _ hin)

theorem maybeRotateSegment (h : r.Valid logs) (hm : Marked r logs ids) :
    ∃ s' logs', r.store.maybeRotateSegment = .ok s' ∧ Valid { r with store := s' } logs' ∧
      Marked { r with store := s' } logs' ids := by
  obtain ⟨l, hl, hget⟩ := h.current_bytes
  rw [maybeRotateSegment_ok hget]
  split_ifs
  · exact ⟨_, logs, rfl, h, hm⟩
  · exact ⟨_, _, rfl, h.rotated, hm.rotated h⟩

end Marked

def StoreStep.ids : StoreStep → List DocId
  | .put doc => [doc.1.internalId]
  | .putBatch docs => docs.map fun doc => doc.1.internalId
  | _ => []

def StoreStep.saves (r : StoreRun) : StoreStep → Prop
  | .saveMaps => True
  | .installCompaction => ∃ c, r.compacting = .completed c
  | _ => False

theorem Marked.step {r : StoreRun} {logs : Logs} {ids : List DocId} (h : r.Valid logs)
    (hm : Marked r logs ids) (st : StoreStep) (hst : st.saves r → Known r.store ids) :
    ∃ r' logs', r.step st = .ok r' ∧ r'.Valid logs' ∧ Marked r' logs' (st.ids ++ ids) := by
  by_cases hquiet : StoreRun.Valid.Quiet r st
  · obtain ⟨r', hstep, hvalid, hdir, hloc, hcur⟩ := h.quiet hquiet
    have hids : st.ids = [] := by
      cases st with
      | put doc => exact hquiet.elim
      | putBatch docs => exact hquiet.elim
      | _ => rfl
    rw [hids]
    exact ⟨r', logs, hstep, hvalid, hm.congr hdir hloc hcur⟩
  obtain ⟨l, hl, hget⟩ := h.current_bytes
  cases st with
  | put doc =>
    have hvalid := (h.putOne hl doc.2).raise doc.1.internalId
    have hput : Marked { r with store := (r.store.putOne doc.1).raise doc.1.internalId }
        (logs.push r.store.currentSegment l (.put doc.1)) (doc.1.internalId :: ids) :=
      (hm.putOne h hl doc.1).congr rfl rfl rfl
    rw [StoreRun.step, put_eq hget]
    split_ifs
    · exact ⟨_, _, rfl, hvalid, hput⟩
    · exact ⟨_, _, rfl, hvalid.rotated, hput.rotated hvalid⟩
  | putBatch docs =>
    have hfits := StoreRun.Valid.fits_of_batch docs
    obtain ⟨logs', hvalid, hmarked⟩ := hm.foldl_putOne h hfits
    obtain ⟨s', logs'', hrotate, hvalid', hmarked'⟩ := hmarked.maybeRotateSegment hvalid
    refine ⟨_, logs'', ?_, hvalid', ?_⟩
    · show r.withStore (BinaryDocumentStore.maybeRotateSegment
        ((docs.map Subtype.val).foldl BinaryDocumentStore.putOne r.store)) = _
      rw [hrotate]
      rfl
    · rw [List.map_map] at hmarked'
      exact hmarked'
  | delete x =>
    obtain ⟨loc, hx⟩ := Option.ne_none_iff_exists'.1 hquiet
    have hvalid := h.removeOne hl hx
    have hdelete := hm.removeOne hl hx
    rw [StoreRun.step, delete_eq hget hx]
    split_ifs
    · exact ⟨_, _, rfl, hvalid, hdelete⟩
    · exact ⟨_, _, rfl, hvalid.rotated, hdelete.rotated hvalid⟩
  | saveMaps => exact ⟨_, logs, rfl, h.saveMaps _, Marked.saveMaps h (hst trivial)⟩
  | installCompaction =>
    obtain ⟨c, hc⟩ := not_not.1 hquiet
    obtain ⟨docs, hok⟩ := h.completed_ok hc
    have hinstalled := Marked.installed h hok (hst ⟨c, hc⟩)
    rw [StoreRun.step, hc]
    exact ⟨_, _, rfl, h.installed hok, hinstalled⟩
  | reopen =>
    obtain ⟨s', -, hopen, -⟩ := h.reopened
    obtain ⟨logs', hvalid, hmarked⟩ := hm.reopened h hopen
    refine ⟨_, logs', ?_, hvalid, hmarked⟩
    rw [StoreRun.step, hopen]
    rfl
  | _ => exact absurd trivial hquiet
