/-
A vector graph always belongs to its file.

What is installed was started from a file that may be gone: an entry is made for live
segments only, replacing its file takes its graph away, and a graph is attached only when
the file id in it is the one of the file that the entry holds now.  When no two vector
files have one id, that is the file it was built from.
-/
import Riets.SegmentVectors
import Riets.VectorRoundTrip

open Fallible

variable {bytes : ByteSeq} {path : String}

theorem VectorFormat.VectorFile.fileId_read {aligned : Bool}
    {f : VectorFormat.VectorFile} (h : openFile path bytes aligned = .ok f) : FixedSlots.readWord 8 bytes 16 = .ok f.fileId := by
  rw [openFile] at h
  split_ifs at h
  simp only [bind_eq_ok] at h
  obtain ⟨_, -, _, -, _, -, _, -, fileId, hfileId, h⟩ := h
  obtain ⟨_, -, _, -, _, -, _, -, _, -, _, -, _, -, _, -, _, -, _, -, _, -, _, -, _, -, _, -, _, -, _, -, h⟩ := h
  cases h
  exact hfileId

theorem GraphHeader.readFrom_fileId {rest : ByteSeq} {header : GraphHeader} {id : ℕ}
    (hid : id < 256 ^ 8) (hdrop : bytes.drop 16 = leBytes 8 id ++ rest)
    (h : readFrom path bytes = .ok header) : header.vectorFileId = id := by
  rw [readFrom] at h
  split_ifs at h
  obtain ⟨magic, -, h⟩ := bind_eq_ok.1 h
  split_ifs at h
  obtain ⟨version, -, h⟩ := bind_eq_ok.1 h
  split_ifs at h
  obtain ⟨header', hfields, h⟩ := bind_eq_ok.1 h
  split at h
  · cases h
  · cases h
    simp only [fields, bind_eq_ok] at hfields
    obtain ⟨fileId, hfileId, _, -, _, -, _, -, _, -, _, -, _, -, _, -, hheader⟩ := hfields
    cases hheader
    rw [FixedSlots.readWord_of_drop (by omega) hid hdrop] at hfileId
    cases hfileId
    rfl

theorem GraphUnderConstruction.write_fileId {g : GraphUnderConstruction} {tmpPath : String} {id dims : ℕ} (h : g.write tmpPath id dims = .ok bytes) :
    ∃ rest, bytes.drop 16 = leBytes 8 id ++ rest := by
  rw [write] at h
  obtain ⟨⟨starts, slots⟩, -, h⟩ := bind_eq_ok.1 h
  dsimp only at h
  split_ifs at h
  obtain ⟨topLevel, -, h⟩ := bind_eq_ok.1 h
  split at h
  · cases h
  obtain ⟨lists, -, h⟩ := bind_eq_ok.1 h
  split_ifs at h
  cases h
  simp only [sections, GraphHeader.writeTo, List.append_assoc]
  exact Exists.intro _ <| FixedSlots.drop_add (k := 12) (w := 4) (FixedSlots.drop_add (k := 8) (w := 4)
    (FixedSlots.drop_add (k := 0) (w := 8) List.drop_zero rfl) rfl) rfl

theorem HnswGraph.fileId_of_open {g : GraphUnderConstruction} {tmpPath : String} {id dims : ℕ} {vectors : VectorFile} {aligned : Bool} {graph : HnswGraph} (hid : id < 256 ^ 8)
    (hwrite : g.write tmpPath id dims = .ok bytes)
    (hopen : openGraph path bytes vectors aligned = .ok graph) : vectors.fileId = id := by
  obtain ⟨rest, hrest⟩ := GraphUnderConstruction.write_fileId hwrite
  obtain ⟨graph', hmapped, -⟩ := bind_eq_ok.1 hopen
  obtain ⟨header, hread, hmapped⟩ := bind_eq_ok.1 hmapped
  split at hmapped
  · cases hmapped
  · rename_i hsame
    rw [← not_not.1 hsame, GraphHeader.readFrom_fileId hid hrest hread]

theorem OpenedVectors.bytes_of_open {file : OpenedVectors}
    (h : open? path bytes = some file) : file.bytes = bytes := by
  rw [open?] at h
  split at h
  · cases h
    rfl
  · cases h

theorem OpenedVectors.open?_eq_some {file : VectorFormat.VectorFile}
    (h : VectorFormat.VectorFile.openFile path bytes true = .ok file) :
    open? path bytes = some ⟨path, bytes, file, h⟩ := by
  rw [open?]
  split
  · rename_i file' hfile
    rw [h] at hfile
    cases hfile
    rfl
  · rename_i hnot
    exact absurd h (hnot file)

namespace IndexVectors

open List Option SortedMap OpenedVectors

variable {v v' : IndexVectors} {files : Set ByteSeq} {live : List ℕ} {segment : ℕ} {xpath : XPathId}

/-! ### What holds between two steps -/

def DistinctIds (files : Set ByteSeq) : Prop :=
  ∀ a b : OpenedVectors, a.bytes ∈ files → b.bytes ∈ files → a.file.fileId = b.file.fileId →
    a.bytes = b.bytes

/-- Every entry belongs to a live segment, no field of a segment has two, and a graph was built from
the file of its entry. -/
structure Belongs (v : IndexVectors) (live : List ℕ) : Prop where
  live : ∀ e ∈ v.entries, e.segment ∈ live
  keys : (v.entries.map SegmentVectors.key).Nodup
  graphs : ∀ e ∈ v.entries, ∀ g ∈ e.graph, g.source.bytes = e.file.bytes

structure Among (v : IndexVectors) (files : Set ByteSeq) : Prop where
  entries : ∀ e ∈ v.entries, e.file.bytes ∈ files
  vectorFiles : ∀ s x, ∀ bytes ∈ (v.vectorFiles s).get? x, bytes ∈ files
  graphFiles : ∀ s x, ∀ g ∈ v.graphFiles s x, g.source.bytes ∈ files

structure Ok (v : IndexVectors) (files : Set ByteSeq) (live : List ℕ) : Prop where
  belongs : v.Belongs live
  among : v.Among files

theorem Ok.mono (h : v.Ok files live) {live' : List ℕ} (hlive : ∀ p ∈ live, p ∈ live') : v.Ok files live' :=
  ⟨⟨fun e he => hlive _ (h.belongs.live e he), h.belongs.keys, h.belongs.graphs⟩, h.among⟩

theorem Ok.setGraphFile (h : v.Ok files live) {g : Option GraphOnDisk}
    (hg : ∀ g' ∈ g, g'.source.bytes ∈ files) (segment : ℕ) (xpath : XPathId) :
    (v.setGraphFile segment xpath g).Ok files live := by
  refine ⟨⟨h.belongs.live, h.belongs.keys, h.belongs.graphs⟩, h.among.entries, h.among.vectorFiles, ?_⟩
  intro s x g' hg'
  by_cases hs : s = segment
  · by_cases hx : x = xpath
    · simp only [IndexVectors.setGraphFile, hs, hx, Function.update_self] at hg'
      exact hg g' hg'
    · simp only [IndexVectors.setGraphFile, hs, Function.update_self, Function.update_of_ne hx] at hg'
      exact h.among.graphFiles _ _ g' hg'
  · simp only [IndexVectors.setGraphFile, Function.update_of_ne hs] at hg'
    exact h.among.graphFiles _ _ g' hg'

theorem Ok.setVectorFiles (h : v.Ok files live) {m : SortedMap XPathId ByteSeq}
    (hm : ∀ x, ∀ bytes ∈ m.get? x, bytes ∈ files) :
    { v with vectorFiles := Function.update v.vectorFiles segment m }.Ok files live := by
  refine ⟨⟨h.belongs.live, h.belongs.keys, h.belongs.graphs⟩, h.among.entries, ?_, h.among.graphFiles⟩
  intro s x bytes hbytes
  by_cases hs : s = segment
  · simp only [hs, Function.update_self] at hbytes
    exact hm x bytes hbytes
  · simp only [Function.update_of_ne hs] at hbytes
    exact h.among.vectorFiles _ _ bytes hbytes

theorem Ok.writeVectorFile (h : v.Ok files live) {bytes : ByteSeq} (hbytes : bytes ∈ files) :
    (v.writeVectorFile segment xpath bytes).Ok files live := by
  refine h.setVectorFiles fun x bytes' hbytes' => ?_
  rw [get?_insert] at hbytes'
  split_ifs at hbytes'
  · cases hbytes'
    exact hbytes
  · exact h.among.vectorFiles _ _ bytes' hbytes'

theorem Ok.removeVectorFile (h : v.Ok files live) (segment : ℕ) (xpath : XPathId) :
    (v.removeVectorFile segment xpath).Ok files live := by
  refine h.setVectorFiles fun x bytes hbytes => ?_
  rw [get?_erase] at hbytes
  split_ifs at hbytes
  · cases hbytes
  · exact h.among.vectorFiles _ _ bytes hbytes

/-! ### Installing -/

variable {f : SegmentVectors → SegmentVectors} {entries : List SegmentVectors} {e e₀ : SegmentVectors}

theorem map_key_modifyEntry (hf : ∀ e, (f e).key = e.key) :
    (modifyEntry segment xpath f entries).map SegmentVectors.key = entries.map SegmentVectors.key := by
  induction entries with
  | nil => rfl
  | cons e entries ih =>
    rw [modifyEntry]
    split_ifs
    · rw [map_cons, map_cons, hf]
    · rw [map_cons, map_cons, ih]

theorem mem_modifyEntry (h : entries.find? (fun e => e.key = (segment, xpath)) = some e₀)
    (he : e ∈ modifyEntry segment xpath f entries) : e ∈ entries ∨ e = f e₀ := by
  induction entries with
  | nil => cases h
  | cons first entries ih =>
    rw [modifyEntry] at he
    split_ifs at he with hfirst
    · rw [find?_cons, decide_eq_true hfirst] at h
      cases h
      exact (mem_cons.1 he).symm.imp_left (mem_cons_of_mem _)
    · rw [find?_cons, decide_eq_false hfirst] at h
      rcases mem_cons.1 he with rfl | he
      · exact .inl (mem_cons_self ..)
      · exact (ih h he).imp_left (mem_cons_of_mem _)

theorem Ok.modifyEntry (h : v.Ok files live) (hentry : v.entry? segment xpath = some e₀)
    (hkey : ∀ e, (f e).key = e.key) (hfile : (f e₀).file.bytes ∈ files)
    (hgraph : ∀ g ∈ (f e₀).graph, g.source.bytes = (f e₀).file.bytes) :
    { v with entries := modifyEntry segment xpath f v.entries }.Ok files live := by
  have hmem : e₀ ∈ v.entries := mem_of_find?_eq_some hentry
  refine ⟨⟨fun e he => ?_, ?_, fun e he => ?_⟩, fun e he => ?_, h.among.vectorFiles, h.among.graphFiles⟩
  · rcases mem_modifyEntry hentry he with he | rfl
    · exact h.belongs.live e he
    · have hsegment : (f e₀).segment = e₀.segment := congrArg Prod.fst (hkey e₀)
      exact hsegment ▸ h.belongs.live e₀ hmem
  · rw [map_key_modifyEntry hkey]
    exact h.belongs.keys
  · rcases mem_modifyEntry hentry he with he | rfl
    · exact h.belongs.graphs e he
    · exact hgraph
  · rcases mem_modifyEntry hentry he with he | rfl
    · exact h.among.entries e he
    · exact hfile

theorem Ok.attachVectors (h : v.Ok files live) (hlive : segment ∈ live)
    (hv' : v.attachVectors segment xpath = some v') : v'.Ok files live := by
  simp only [IndexVectors.attachVectors, bind_eq_bind, bind_eq_some_iff] at hv'
  obtain ⟨bytes, hbytes, file, hfile, hv'⟩ := hv'
  have hfiles : file.bytes ∈ files := by
    rw [bytes_of_open hfile]
    exact h.among.vectorFiles _ _ bytes hbytes
  cases hentry : v.entry? segment xpath with
  | some e₀ =>
    rw [hentry] at hv'
    cases hv'
    have hreplaced := @Ok.modifyEntry _ _ _ _ _ (fun e => { e with file := file, graph := none }) _ h hentry
      (fun _ => rfl) hfiles (by simp)
    split_ifs
    · exact hreplaced.setGraphFile (by simp) segment xpath
    · exact hreplaced
  | none =>
    rw [hentry] at hv'
    cases hv'
    refine ⟨⟨?_, ?_, ?_⟩, ?_, h.among.vectorFiles, h.among.graphFiles⟩
    · exact forall_mem_append.2 ⟨h.belongs.live, by simpa using hlive⟩
    · rw [map_append, nodup_append]
      refine ⟨h.belongs.keys, nodup_singleton _, fun k hk k' hk' hsame => ?_⟩
      obtain ⟨e, he, rfl⟩ := mem_map.1 hk
      rw [mem_singleton.1 hk'] at hsame
      exact find?_eq_none.1 hentry e he (decide_eq_true hsame)
    · exact forall_mem_append.2 ⟨h.belongs.graphs, by simp⟩
    · exact forall_mem_append.2 ⟨h.among.entries, by simpa using hfiles⟩

theorem Ok.installVectors (h : v.Ok files live) (segment : ℕ) (xpath : XPathId) :
    (v.installVectors segment xpath live).Ok files live := by
  rw [IndexVectors.installVectors]
  split_ifs with hlive
  · cases hv' : v.attachVectors segment xpath with
    | none => exact h
    | some v' => exact h.attachVectors hlive hv'
  · exact h.removeVectorFile segment xpath

theorem source_of_open (hdistinct : DistinctIds files) {g : GraphOnDisk} {file : OpenedVectors}
    {graph : HnswGraph} (hg : g.source.bytes ∈ files) (hfile : file.bytes ∈ files)
    (hopen : openGraphFile segment xpath g file = .ok graph) : g.source.bytes = file.bytes := by
  obtain ⟨_, _, hwrite⟩ := g.written
  have hid := HnswGraph.fileId_of_open
    (FixedSlots.readWord_eq_ok (VectorFormat.VectorFile.fileId_read g.source.opens)) hwrite hopen
  exact hdistinct g.source file hg hfile hid.symm

theorem Ok.installGraph (h : v.Ok files live) (hdistinct : DistinctIds files) (segment : ℕ)
    (xpath : XPathId) : (v.installGraph segment xpath).Ok files live := by
  rw [IndexVectors.installGraph]
  cases hentry : v.entry? segment xpath with
  | none => exact h.setGraphFile (by simp) segment xpath
  | some e₀ =>
    cases hg : v.graphFiles segment xpath with
    | none => exact h
    | some g =>
      have hfile := h.among.entries e₀ (mem_of_find?_eq_some hentry)
      simp only
      cases hopen : openGraphFile segment xpath g e₀.file with
      | ok graph =>
        have hsource := source_of_open hdistinct (h.among.graphFiles _ _ g hg) hfile hopen
        exact h.modifyEntry hentry (fun _ => rfl) hfile (by simpa using hsource)
      | err message => exact h.setGraphFile (by simp) segment xpath
      | fault => exact h

theorem Ok.foldl {α : Type} {f : IndexVectors → α → IndexVectors}
    (hf : ∀ v a, v.Ok files live → (f v a).Ok files live) (l : List α) (h : v.Ok files live) :
    (l.foldl f v).Ok files live := by
  induction l generalizing v with
  | nil => exact h
  | cons a l ih => exact ih (hf v a h)

theorem Ok.dropVectorsFor (h : v.Ok files live) {live' : List ℕ}
    (hlive : ∀ p ∈ live, p ≠ segment → p ∈ live') : (v.dropVectorsFor segment).Ok files live' := by
  refine Ok.foldl (fun v e hv => (hv.removeVectorFile segment e.xpath).setGraphFile (by simp) _ _) _ ?_
  have hsub : (v.entries.filter fun e => e.segment ≠ segment).Sublist v.entries := filter_sublist
  refine ⟨⟨fun e he => ?_, h.belongs.keys.sublist (hsub.map _), fun e he => ?_⟩, fun e he => ?_,
    h.among.vectorFiles, h.among.graphFiles⟩
  · exact hlive _ (h.belongs.live e (hsub.subset he)) (by simpa using (mem_filter.1 he).2)
  · exact h.belongs.graphs e (hsub.subset he)
  · exact h.among.entries e (hsub.subset he)

theorem Ok.compacted (h : v.Ok files live) {live' : List ℕ} {selected : List SegmentHandle} {output : ℕ}
    (hlive : ∀ p ∈ live, p ∉ selected.filterMap SegmentHandle.path? → p ∈ live') (hout : output ∈ live')
    (vectorXpaths : List XPathId) : (v.compacted selected output vectorXpaths).Ok files live' := by
  have hattach : ∀ (v : IndexVectors) (x : XPathId), v.Ok files live' →
      ((v.attachVectors output x).getD (v.removeVectorFile output x)).Ok files live' := by
    intro v x hv
    cases hv' : v.attachVectors output x with
    | none => exact hv.removeVectorFile output x
    | some v' => exact hv.attachVectors hout hv'
  refine Ok.foldl hattach vectorXpaths ?_
  generalize selected.filterMap SegmentHandle.path? = ps at hlive
  induction ps generalizing v live with
  | nil => exact h.mono fun p hp => hlive p hp not_mem_nil
  | cons p ps ih =>
    refine @ih _ (live.filter (· ≠ p)) (h.dropVectorsFor fun q hq hne => ?_) fun q hq hne => ?_
    · exact mem_filter.2 ⟨hq, by simpa using hne⟩
    · obtain ⟨hq, hqp⟩ := mem_filter.1 hq
      exact hlive q hq fun hmem => (mem_cons.1 hmem).elim (by simpa using hqp) hne

theorem mem_entriesOf (he : e ∈ v.entriesOf segment) : ∃ bytes ∈ (v.vectorFiles segment).get? e.xpath,
    e.segment = segment ∧ e.file.bytes = bytes ∧ e.graph = (v.graphOf segment e.xpath e.file).1 := by
  obtain ⟨⟨x, bytes⟩, hmem, he⟩ := mem_filterMap.1 he
  obtain ⟨file, hfile, rfl⟩ := map_eq_some_iff.1 he
  exact ⟨bytes, mem_entries.1 hmem, rfl, bytes_of_open hfile, rfl⟩

theorem keys_entriesOf : ((v.entriesOf segment).map SegmentVectors.key).Nodup := by
  have hkeys := pairwise_map.1 (v.vectorFiles segment).keys_ascending
  refine pairwise_map.2 (hkeys.filterMap _ fun a a' hlt e he e' he' hsame => ?_)
  obtain ⟨file, -, rfl⟩ := map_eq_some_iff.1 he
  obtain ⟨file', -, rfl⟩ := map_eq_some_iff.1 he'
  exact hlt.ne (congrArg Prod.snd hsame)

theorem Among.persistent (h : v.Among files) (hdistinct : DistinctIds files) {segments : List ℕ}
    (hnodup : segments.Nodup) : (v.persistent segments).Ok files segments := by
  have hfiles : ∀ s, ∀ e ∈ v.entriesOf s, e.file.bytes ∈ files := by
    intro s e he
    obtain ⟨bytes, hbytes, -, hfile, -⟩ := mem_entriesOf he
    exact hfile ▸ h.vectorFiles _ _ bytes hbytes
  refine ⟨⟨fun e he => ?_, ?_, fun e he g hg => ?_⟩, fun e he => ?_, fun s x bytes hbytes => ?_,
    fun s x g hg => ?_⟩
  · obtain ⟨s, hs, he⟩ := mem_flatMap.1 he
    obtain ⟨-, -, hsegment, -⟩ := mem_entriesOf he
    exact hsegment ▸ hs
  · have hdisjoint : segments.Pairwise (Function.onFun List.Disjoint fun s =>
        (v.entriesOf s).map SegmentVectors.key) := by
      refine hnodup.imp fun hne k hk hk' => hne ?_
      obtain ⟨e, he, rfl⟩ := mem_map.1 hk
      obtain ⟨e', he', hkey⟩ := mem_map.1 hk'
      obtain ⟨-, -, hsegment, -⟩ := mem_entriesOf he
      obtain ⟨-, -, hsegment', -⟩ := mem_entriesOf he'
      exact hsegment.symm.trans ((congrArg Prod.fst hkey).symm.trans hsegment')
    rw [IndexVectors.persistent, map_flatMap]
    exact nodup_flatMap.2 ⟨fun s _ => keys_entriesOf, hdisjoint⟩
  · obtain ⟨s, hs, he⟩ := mem_flatMap.1 he
    obtain ⟨-, -, -, -, hgraph⟩ := mem_entriesOf he
    rw [hgraph, graphOf] at hg
    cases hdisk : v.graphFiles s e.xpath with
    | none => simp [hdisk] at hg
    | some disk =>
      simp only [hdisk] at hg
      cases hopen : openGraphFile s e.xpath disk e.file with
      | ok graph =>
        simp only [hopen, mem_some_iff] at hg
        exact hg ▸ source_of_open hdistinct (h.graphFiles _ _ disk hdisk) (hfiles s e he) hopen
      | err message => simp [hopen] at hg
      | fault => simp [hopen] at hg
  · obtain ⟨s, -, he⟩ := mem_flatMap.1 he
    exact hfiles s e he
  · simp only [IndexVectors.persistent] at hbytes
    split_ifs at hbytes
    · rw [get?_filter] at hbytes
      exact h.vectorFiles _ _ bytes (filter_eq_some_iff.1 hbytes).1
    · exact h.vectorFiles _ _ bytes hbytes
  · simp only [IndexVectors.persistent] at hg
    split_ifs at hg
    · cases hg
    · exact h.graphFiles _ _ g hg

end IndexVectors

/-- The steps that install no compaction, when no append to the manifest fails. -/
def ManifestStep.Appends : ManifestStep → Prop
  | .act (.completeFlush _ writeOk appendOk) _ => writeOk = true ∧ appendOk = true
  | .act (.installCompaction ..) _ => False
  | .addSegment _ outcome _ => outcome = .added
  | .act _ _ => True

namespace ManifestWorld

open List World

variable {m : ManifestWorld}

theorem Move.listed {m' : ManifestWorld} (h : Move m m') (hlisted : m.manifest.Perm m.world.live) :
    m'.manifest.Perm m'.world.live := by
  cases h with
  | same hlive hmanifest => rwa [hlive, hmanifest]
  | rewritten hmanifest => exact Perm.of_eq hmanifest
  | added p hlive hmanifest =>
    rw [hlive, hmanifest]
    exact hlisted.append_right _
  | installed front rest hpending hhandles hbehind hmanifest =>
    have hlive : m'.world.live = m.world.live ++ [front.path] :=
      (congrArg (filterMap SegmentHandle.path?) hhandles).trans
        (live_insertIdx (Nat.sub_le _ _) hbehind front.path)
    rw [hlive, hmanifest]
    exact hlisted.append_right _

def Grows (m m' : ManifestWorld) : Prop :=
  ∃ new, m'.world.live.Perm (m.world.live ++ new) ∧ m'.manifest.Perm (m.manifest ++ new)

theorem Grows.same {m' : ManifestWorld} (hlive : m'.world.live = m.world.live)
    (hmanifest : m'.manifest = m.manifest) : m.Grows m' :=
  ⟨[], by rw [hlive, append_nil], by rw [hmanifest, append_nil]⟩

theorem grows_completeFlush (hroot : m.world.index.hasRoot = true) (seq : ℕ) (left : List ℕ) :
    m.Grows (m.step (.act (.completeFlush seq true true) left)) := by
  simp only [step, manifestAfter, World.step, completeFlush, hroot]
  cases m.world.writing.find? fun job => job.seq = seq with
  | none => exact .same rfl rfl
  | some job =>
    cases hcomplete : m.world.index.flushQueue.complete seq with
    | error e =>
      simp only [LsmIndex.completeFlush, hcomplete]
      exact .same rfl rfl
    | ok done =>
      obtain ⟨pending, queue⟩ := done
      obtain ⟨rest, -, -, rfl⟩ := complete_eq_ok hcomplete
      simp only [LsmIndex.completeFlush, hcomplete, LsmIndex.installFlushed, hroot]
      refine ⟨[pending.path], ?_, Perm.refl _⟩
      have hinsert := perm_insertIdx (SegmentHandle.disk pending.path)
        m.world.index.segmentHandles (Nat.sub_le m.world.index.segmentHandles.length pending.addedAfter)
      exact (hinsert.filterMap SegmentHandle.path?).trans (perm_append_singleton _ _).symm

theorem grows_step (hroot : m.world.index.hasRoot = true) {st : ManifestStep} (hst : st.Appends) :
    m.Grows (m.step st) := by
  cases st with
  | addSegment segment outcome left =>
    obtain rfl : outcome = .added := hst
    rcases addSegment_cases hroot segment .added with ⟨hne, -⟩ | ⟨-, hw⟩
    · exact absurd rfl hne
    · refine ⟨[m.world.index.nextSegmentId], ?_, ?_⟩
      · show (m.world.addSegment segment .added).live.Perm _
        rw [hw]
        exact Perm.of_eq filterMap_append
      · simp only [step, hroot]
        exact Perm.refl _
  | act a left =>
    have hbuf := m.world.step_buffered (a := a)
    cases a with
    | mergeIntoMemtable docs => exact .same rfl rfl
    | deleteDocument docId appendOk => exact .same rfl rfl
    | completeFlush seq writeOk appendOk =>
      obtain ⟨rfl, rfl⟩ := hst
      exact grows_completeFlush hroot seq left
    | runCompaction jobId ok =>
      refine .same ?_ rfl
      show live (m.world.runCompaction jobId ok) = _
      rcases m.world.runCompaction_cases jobId ok with hw | hw | ⟨_, -, _, -, -, hw⟩
      · rw [hw]
      · rw [hw]
        rfl
      · rw [hw]
        rfl
    | installCompaction jobId openOk manifestOk clearOk => exact hst.elim
    | _ => exact .same ((hbuf trivial).live hroot) rfl

end ManifestWorld

/-! ### Runs -/

/-- No append to the manifest fails, and compactions are installed with their vectors. -/
def VectorStep.Unfailing : VectorStep → Prop
  | .index st => st.Appends
  | _ => True

def VectorStep.Among (files : Set ByteSeq) : VectorStep → Prop
  | .writeVectors _ _ bytes => bytes ∈ files
  | .writeGraph _ _ g => g.source.bytes ∈ files
  | _ => True

namespace VectorWorld

open List World ManifestWorld IndexVectors OpenedVectors VectorFormat

variable {w : VectorWorld} {files : Set ByteSeq}

structure Inv (w : VectorWorld) (files : Set ByteSeq) : Prop where
  world : w.core.world.Inv
  flush : w.core.world.FlushOk
  listed : w.core.manifest.Perm w.core.world.live
  vectors : w.vectors.Ok files w.core.world.live

theorem Inv.compacted (h : w.Inv files) {jobId : ℕ} {job : CompactionJob}
    (hfind : w.core.world.finished.find? (fun job => job.jobId = jobId) = some job)
    (hfresh : w.core.world.index.isStale job.completed = false) {disk : Segment}
    (hout : w.core.world.output job true = .ok disk) (vectorXpaths : List XPathId) :
    (w.vectors.compacted job.selected job.outputPath vectorXpaths).Ok files
      (w.core.world.installCompaction jobId true true true).live := by
  obtain ⟨stay, hperm, hins, -⟩ := h.world.files.replaced (find_job hfind).1 hfresh disk
  have hhandles : (w.core.world.installCompaction jobId true true true).index.segmentHandles =
      (w.core.world.index.replaceSelected job.completed disk).segmentHandles := by
    simp only [installCompaction, hfind, LsmIndex.installCompaction, h.flush.root, hfresh, hout,
      not_true_eq_false, if_false, Bool.false_eq_true]
    split_ifs <;> rfl
  refine h.vectors.compacted (fun p hp hselected => ?_) ?_ vectorXpaths
  · rw [mem_live, hhandles, hins.mem_iff]
    refine mem_cons_of_mem _ ((mem_append.1 (hperm.mem_iff.1 (mem_live.1 hp))).resolve_left fun hs => ?_)
    exact hselected (mem_filterMap.2 ⟨_, hs, rfl⟩)
  · rw [mem_live, hhandles, hins.mem_iff]
    exact mem_cons_self ..

theorem inv_installCompaction (h : w.Inv files) (jobId : ℕ) (vectorXpaths : List XPathId) :
    (w.step (.installCompaction jobId vectorXpaths)).Inv files := by
  obtain ⟨hinv, hflush⟩ := ok_step h.world h.flush
    (.act (.installCompaction jobId true true true) [])
  refine ⟨hinv, hflush, (move_installCompaction h.flush.root).listed h.listed, ?_⟩
  show (w.compactVectors jobId vectorXpaths).Ok files
    (w.core.world.installCompaction jobId true true true).live
  rw [compactVectors]
  cases hfind : w.core.world.finished.find? fun job => job.jobId = jobId with
  | none =>
    simp only [installCompaction, hfind]
    exact h.vectors
  | some job =>
    cases hstale : w.core.world.index.isStale job.completed with
    | true =>
      simp only [installCompaction, LsmIndex.installCompaction, hfind, h.flush.root, hstale,
        not_true_eq_false, if_false, if_true]
      exact Ok.foldl (fun v x hv => hv.removeVectorFile job.outputPath x) _ h.vectors
    | false =>
      cases hout : w.core.world.output job true with
      | error e =>
        simp only [installCompaction, LsmIndex.installCompaction, hfind, h.flush.root, hstale, hout,
          not_true_eq_false, if_false, Bool.false_eq_true]
        exact h.vectors
      | ok disk =>
        simp only [h.flush.root, hstale, hout, not_true_eq_false, if_false, Bool.false_eq_true]
        exact h.compacted hfind hstale hout vectorXpaths

theorem inv_start {manifest : List (ℕ × Segment)} (hnodup : (manifest.map Prod.fst).Nodup)
    (deleted : DeleteSet) {v : IndexVectors} (hv : v.Among files)
    (hdistinct : DistinctIds files) : (start manifest deleted v).Inv files := by
  have hlisted : (ManifestWorld.start manifest deleted).manifest =
      (ManifestWorld.start manifest deleted).world.live := by
    show manifest.map Prod.fst = (manifest.map fun e => SegmentHandle.disk e.1).filterMap _
    rw [filterMap_map]
    exact (congrFun filterMap_eq_map' manifest).symm
  have hopened := hv.persistent hdistinct hnodup
  exact ⟨(Fresh.opened manifest deleted hnodup).inv, flushOk_start manifest deleted,
    Perm.of_eq hlisted, hopened.mono fun p hp => (congrArg (p ∈ ·) hlisted).mp hp⟩

theorem inv_step (h : w.Inv files) (hdistinct : DistinctIds files) {st : VectorStep}
    (hst : st.Unfailing) (hfiles : st.Among files) : (w.step st).Inv files := by
  cases st with
  | index st =>
    obtain ⟨hinv, hflush⟩ := ok_step h.world h.flush st
    obtain ⟨new, hlive, hmanifest⟩ := grows_step h.flush.root hst
    refine ⟨hinv, hflush, (hmanifest.trans (h.listed.append_right new)).trans hlive.symm, ?_⟩
    exact h.vectors.mono fun p hp => hlive.mem_iff.2 (mem_append_left _ hp)
  | installCompaction jobId vectorXpaths => exact inv_installCompaction h jobId vectorXpaths
  | writeVectors segment xpath bytes =>
    exact ⟨h.world, h.flush, h.listed, h.vectors.writeVectorFile hfiles⟩
  | installVectors segment xpath => exact ⟨h.world, h.flush, h.listed, h.vectors.installVectors _ _⟩
  | writeGraph segment xpath g =>
    exact ⟨h.world, h.flush, h.listed, h.vectors.setGraphFile (fun _ hg => Option.some_inj.1 hg ▸ hfiles) _ _⟩
  | installGraph segment xpath =>
    exact ⟨h.world, h.flush, h.listed, h.vectors.installGraph hdistinct _ _⟩
  | reopen deleted =>
    obtain ⟨manifest, hopen, hfst⟩ := openSegments_eq h.world fun p hp =>
      h.listed.mem_iff.1 hp
    have hnodup : (manifest.map Prod.fst).Nodup := by
      rw [hfst, h.listed.nodup_iff]
      exact (nodup_append.1 h.world.files.paths_nodup).1
    simp only [step, hopen]
    exact inv_start hnodup deleted h.vectors.among hdistinct

theorem inv_run (h : w.Inv files) (hdistinct : DistinctIds files)
    {steps : List VectorStep} (hsteps : ∀ st ∈ steps, st.Unfailing ∧ st.Among files) :
    (w.run steps).Inv files := by
  induction steps generalizing w with
  | nil => exact h
  | cons st steps ih =>
    obtain ⟨hst, hrest⟩ := forall_mem_cons.1 hsteps
    exact ih (inv_step h hdistinct hst.1 hst.2) hrest

/-- **A vector graph always belongs to its file.**  After every run of an opened index without failed
appends, when no two of its vector files have one id, every entry belongs to a live disk segment,
no field of a segment has two, and an attached graph was built from the file its entry holds. -/
theorem run_belongs (hdistinct : DistinctIds files) {manifest : List (ℕ × Segment)}
    (hnodup : (manifest.map Prod.fst).Nodup) (deleted : DeleteSet) {v : IndexVectors}
    (hv : v.Among files) {steps : List VectorStep}
    (hsteps : ∀ st ∈ steps, st.Unfailing ∧ st.Among files) :
    ((start manifest deleted v).run steps).vectors.Belongs
      ((start manifest deleted v).run steps).core.world.live :=
  (inv_run (inv_start hnodup deleted hv hdistinct) hdistinct hsteps).vectors.belongs

/-! ### A run with a stale graph -/

open VectorFormat in
theorem exists_openedVectors (id : UInt64) :
    ∃ f : OpenedVectors, f.path = vectorFilePath 0 3 ∧ f.vectors = ⟨id.toNat, 2, 1⟩ := by
  have hc : VectorFileWriter.Creates "m" 1 := ⟨by decide, by decide, by decide, by decide⟩
  have hwell : WellFormed 1 [(1, [F32.one]), (2, [F32.one])] := ⟨by decide, by decide, by simp [F32.isFinite, F32.one]⟩
  obtain ⟨w, -, hw⟩ := (VectorFileWriter.holding_create 0).pushAll _ hwell
  obtain ⟨bytes, f, -, hopen, -, hmatches, hcount, hid⟩ := hw.finish
    ⟨fun len => len - 1, fun len h => by omega, fun _ _ => 0⟩ (vectorFilePath 0 3) id hc (by simp) rfl
  refine ⟨⟨_, bytes, f, hopen⟩, rfl, ?_⟩
  rw [OpenedVectors.vectors, hid, hcount, hmatches.2]
  rfl

/-- The id is read from the bytes, wherever the file is. -/
theorem fileId_of_bytes {a b : OpenedVectors} (h : a.bytes = b.bytes) : a.file.fileId = b.file.fileId := by
  have ha := VectorFormat.VectorFile.fileId_read a.opens
  rw [h, VectorFormat.VectorFile.fileId_read b.opens] at ha
  exact (ok.inj ha).symm

theorem distinctIds_pair {a b : OpenedVectors} (h : a.file.fileId ≠ b.file.fileId) :
    DistinctIds {a.bytes, b.bytes} := by
  rintro c d (hc | hc) (hd | hd) hid
  · exact hc.trans hd.symm
  · exact absurd ((fileId_of_bytes hc.symm).trans (hid.trans (fileId_of_bytes hd))) h
  · exact absurd ((fileId_of_bytes hd.symm).trans (hid.symm.trans (fileId_of_bytes hc))) h
  · exact hc.trans hd.symm

open GraphUnderConstruction in
theorem exists_graphOnDisk {f : OpenedVectors} (id : UInt64) (hf : f.vectors = ⟨id.toNat, 2, 1⟩) :
    ∃ g : GraphOnDisk, g.source = f ∧ ∃ graph, openGraphFile 0 3 g f = .ok graph := by
  have hbuilt := @pair_built f.file.fileId f.file.dims
    (by rw [show f.file.fileId = id.toNat from congrArg VectorFile.fileId hf]; exact id.toNat_lt)
    (by rw [show f.file.dims = 1 from congrArg VectorFile.dims hf]; decide)
  obtain ⟨bytes, hwrite, graph, hgraph⟩ := hbuilt.opens pair_topAt pair_wellLinked "tmp" (hnswFilePath 0 3)
  refine ⟨⟨bytes, f, pair, "tmp", hwrite⟩, rfl, graph, ?_⟩
  rw [openGraphFile, OpenedVectors.vectors, show f.file.count = 2 from congrArg VectorFile.len hf]
  exact hgraph

variable {v : IndexVectors} {f : OpenedVectors} {g : GraphOnDisk} {segment : ℕ} {xpath : XPathId}

/-- A written file becomes the one entry, without a graph. -/
theorem installVectors_single (hv : v.entries = [] ∨ ∃ file graph, v.entries = [⟨segment, xpath, file, graph⟩])
    (hopen : open? (vectorFilePath segment xpath) f.bytes = some f) {live : List ℕ} (hlive : segment ∈ live) :
    let v' := (v.writeVectorFile segment xpath f.bytes).installVectors segment xpath live
    v'.entries = [⟨segment, xpath, f, none⟩] ∧ v'.vectorFiles segment = (v.vectorFiles segment).insert xpath f.bytes := by
  have hfile : ((v.vectorFiles segment).insert xpath f.bytes).get? xpath = some f.bytes := by
    simp [SortedMap.get?_insert]
  simp only [installVectors, hlive, if_true, attachVectors, writeVectorFile, Function.update_self, hfile,
    Option.bind_eq_bind, Option.bind_some, hopen]
  rcases hv with hv | ⟨file, graph, hv⟩
  · simp [ entry?, hv]
  · cases graph <;> simp [ entry?, hv, SegmentVectors.key, modifyEntry, setGraphFile]

theorem installGraph_single (hv : v.entries = [⟨segment, xpath, f, none⟩]) :
    let v' := (v.setGraphFile segment xpath (some g)).installGraph segment xpath
    v'.vectorFiles = v.vectorFiles ∧
      ((∀ graph, openGraphFile segment xpath g f ≠ .ok graph) → v'.entries = [⟨segment, xpath, f, none⟩]) ∧
      ∀ graph, openGraphFile segment xpath g f = .ok graph →
        v'.entries = [⟨segment, xpath, f, some ⟨graph, g.source⟩⟩] ∧ v'.graphFiles segment xpath = some g := by
  have hentry : entry? (v.setGraphFile segment xpath (some g)) segment xpath = some ⟨segment, xpath, f, none⟩ := by
    simp [ entry?, setGraphFile, hv, SegmentVectors.key]
  have hfile : (v.setGraphFile segment xpath (some g)).graphFiles segment xpath = some g := by simp [setGraphFile]
  simp only [installGraph, hentry, hfile]
  cases hopen : openGraphFile segment xpath g f with
  | ok graph =>
    exact ⟨rfl, fun h => absurd rfl (h graph), fun graph' h => by cases h; simp [setGraphFile, hv, modifyEntry, SegmentVectors.key]⟩
  | err message => exact ⟨rfl, fun _ => hv, fun graph h => by cases h⟩
  | fault => exact ⟨rfl, fun _ => hv, fun graph h => by cases h⟩

theorem persistent_single (hfiles : (v.vectorFiles segment).entries = [(xpath, f.bytes)])
    (hopen : open? (vectorFilePath segment xpath) f.bytes = some f) (hg : v.graphFiles segment xpath = some g)
    {graph : HnswGraph} (hgraph : openGraphFile segment xpath g f = .ok graph) :
    (v.persistent [segment]).entries = [⟨segment, xpath, f, some ⟨graph, g.source⟩⟩] := by
  simp [IndexVectors.persistent, entriesOf, hfiles, hopen, graphOf, hg, hgraph]

/-- A graph is attached, the file below it is replaced, and the graph of the old file is refused; the
graph of the new file is attached, and is opened again with the index. -/
theorem run_belongs_replaced :
    ∃ (a b : OpenedVectors) (ga gb : GraphOnDisk), ga.source = a ∧ gb.source = b ∧ a.bytes ≠ b.bytes ∧
      let w := start [(0, oneDocument)] ∅ ⟨[], fun _ => SortedMap.empty, fun _ _ => none⟩
      let attached := [.writeVectors 0 3 a.bytes, .installVectors 0 3, .writeGraph 0 3 ga, .installGraph 0 3]
      let refused := attached ++ [.writeVectors 0 3 b.bytes, .installVectors 0 3, .writeGraph 0 3 ga, .installGraph 0 3]
      let again := refused ++ [.writeGraph 0 3 gb, .installGraph 0 3, .reopen ∅]
      let graphs := fun steps => (w.run steps).vectors.entries.map fun e => (e.file, e.graph.map AttachedGraph.source)
      graphs attached = [(a, some a)] ∧ graphs refused = [(b, none)] ∧ graphs again = [(b, some b)] ∧
        (w.run again).vectors.Belongs (w.run again).core.world.live := by
  obtain ⟨a, hpath, ha⟩ := exists_openedVectors 7
  obtain ⟨b, hpath', hb⟩ := exists_openedVectors 8
  obtain ⟨ga, rfl, graphA, hga⟩ := exists_graphOnDisk 7 ha
  obtain ⟨gb, rfl, graphB, hgb⟩ := exists_graphOnDisk 8 hb
  have hids : ga.source.file.fileId ≠ gb.source.file.fileId := by
    rw [show ga.source.file.fileId = 7 from congrArg VectorFile.fileId ha,
      show gb.source.file.fileId = 8 from congrArg VectorFile.fileId hb]
    decide
  have hdistinct := distinctIds_pair hids
  have hopenA : open? (vectorFilePath 0 3) ga.source.bytes = some ga.source := hpath ▸ open?_eq_some ga.source.opens
  have hopenB : open? (vectorFilePath 0 3) gb.source.bytes = some gb.source := hpath' ▸ open?_eq_some gb.source.opens
  have hrefused : ∀ graph, openGraphFile 0 3 ga gb.source ≠ .ok graph := by
    obtain ⟨_, _, hwrite⟩ := ga.written
    exact fun graph hok => hids (HnswGraph.fileId_of_open
      (FixedSlots.readWord_eq_ok (VectorFormat.VectorFile.fileId_read ga.source.opens)) hwrite hok).symm
  refine ⟨_, _, ga, gb, rfl, rfl, fun hsame => hids (fileId_of_bytes hsame), ?_⟩
  intro w attached refused again graphs
  have hlive : 0 ∈ w.core.world.live := by decide
  -- the first graph
  obtain ⟨he₁, hf₁⟩ := installVectors_single (v := w.vectors) (.inl rfl) hopenA hlive
  obtain ⟨hf₂, -, hg₂⟩ := @installGraph_single _ _ ga _ _ he₁
  have he₂ := (hg₂ graphA hga).1
  -- the file is replaced, and the graph of the old file comes late
  obtain ⟨he₃, hf₃⟩ := installVectors_single (.inr ⟨_, _, he₂⟩) hopenB hlive
  obtain ⟨hf₄, hg₄, -⟩ := @installGraph_single _ _ ga _ _ he₃
  have he₄ := hg₄ hrefused
  -- the graph of the new file
  obtain ⟨hf₅, -, hg₅⟩ := @installGraph_single _ _ gb _ _ he₄
  have hg₅ := (hg₅ graphB hgb).2
  have hfiles := (congrFun (hf₅.trans hf₄) 0).trans hf₃
  rw [congrFun hf₂ 0, hf₁] at hfiles
  have he₆ := persistent_single (congrArg SortedMap.entries hfiles) hopenB hg₅ hgb
  refine ⟨?_, ?_, ?_, run_belongs hdistinct (by simp) ∅ ⟨by simp, by simp, by simp⟩ ?_⟩
  · exact congrArg (map _) he₂
  · exact congrArg (map _) he₄
  · exact congrArg (map _) he₆
  · simp [again, refused, attached, VectorStep.Unfailing, VectorStep.Among]

end VectorWorld
