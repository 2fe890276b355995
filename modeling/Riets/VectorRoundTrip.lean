/-
Rows that the writer took are the rows of the file it leaves.

A writer that took some rows is `Holding` them.  Pushing a row succeeds just when the rows
stay well formed, and a file that a writer of some rows leaves opens to these rows.
-/
import Riets.GraphRoundTrip
import Riets.VectorFormat

open Fallible

namespace VectorFormat

open FixedSlots Keyed List

variable {modelId : String} {dims : ℕ} {rows : List Row}

/-! ### Pushing rows -/

/-- Rows as a vector file takes them: ids ascend, the vectors are finite and of one length. -/
structure WellFormed (dims : ℕ) (rows : List Row) : Prop where
  ascending : Ascending Prod.fst rows
  length : ∀ r ∈ rows, r.2.length = dims
  finite : ∀ r ∈ rows, ∀ v ∈ r.2, F32.isFinite v = true

theorem WellFormed.of_append {rows' : List Row} (h : WellFormed dims (rows ++ rows')) :
    WellFormed dims rows :=
  ⟨(pairwise_append.1 h.ascending).1, fun r hr => h.length r (mem_append_left _ hr),
    fun r hr => h.finite r (mem_append_left _ hr)⟩

namespace VectorFileWriter

variable {w w' : VectorFileWriter}

/-- The writer holds the bytes of these rows. -/
structure Holding (w : VectorFileWriter) (modelId : String) (dims : ℕ) (rows : List Row) : Prop where
  wellFormed : WellFormed dims rows
  modelId : w.modelId = modelId
  dims : w.dims = dims
  ids : w.ids = (rows.map Prod.fst).flatMap (leBytes 8)
  originals : w.originals = rows.flatMap fun r => rowBytes r.2
  count : w.count = rows.length
  lastDoc : w.lastDoc = rows.getLast?.map Prod.fst

/-- The header can be made. -/
structure Creates (modelId : String) (dims : ℕ) : Prop where
  dims_pos : dims ≠ 0
  dims_lt : dims < 2 ^ 32
  id_pos : (utf8 modelId).length ≠ 0
  id_le : (utf8 modelId).length ≤ maxModelIdLen

theorem create_eq_ok (seed : UInt64) : create modelId dims seed = .ok w ↔
    Creates modelId dims ∧ w = ⟨modelId, dims, [], [], 0, none, [], seed⟩ := by
  rw [create]
  split_ifs with hdims hid
  · exact iff_of_false (by simp) fun h => hdims.elim h.1.dims_pos (not_le.2 h.1.dims_lt)
  · exact iff_of_false (by simp) fun h => hid.elim h.1.id_pos (not_lt.2 h.1.id_le)
  · have hcreates : Creates modelId dims := ⟨by omega, by omega, by omega, by omega⟩
    simp [hcreates, eq_comm]

theorem holding_create (seed : UInt64) :
    (⟨modelId, dims, [], [], 0, none, [], seed⟩ : VectorFileWriter).Holding modelId dims [] :=
  ⟨⟨Pairwise.nil, by simp, by simp⟩, rfl, rfl, rfl, rfl, rfl, rfl⟩

theorem Holding.push (h : w.Holding modelId dims rows) (row : Row) :
    (∃ w', w.push row.1 row.2 = .ok w' ∧ w'.Holding modelId dims (rows ++ [row])) ∨
      (∀ w', w.push row.1 row.2 ≠ .ok w') ∧ ¬ WellFormed dims (rows ++ [row]) := by
  rw [VectorFileWriter.push]
  by_cases hlen : row.2.length ≠ w.dims
  · rw [if_pos hlen]
    refine .inr ⟨by simp, fun hwell => hlen ?_⟩
    rw [h.dims]
    exact hwell.length row (by simp)
  rw [if_neg hlen]
  cases hlast : w.lastDoc.filter (row.1 ≤ ·) with
  | some last =>
    refine .inr ⟨by simp, fun hwell => ?_⟩
    obtain ⟨hmem, hle⟩ := Option.filter_eq_some_iff.1 hlast
    rw [h.lastDoc, Option.map_eq_some_iff] at hmem
    obtain ⟨r, hr, rfl⟩ := hmem
    have hlt := (pairwise_append.1 hwell.ascending).2.2 r (mem_of_getLast? hr) row (by simp)
    exact absurd hlt (not_lt.2 (of_decide_eq_true hle))
  | none =>
    by_cases hany : (row.2.any fun v => !v.isFinite) = true
    · refine .inr ⟨by simp [hany], fun hwell => ?_⟩
      obtain ⟨v, hv, hinf⟩ := any_eq_true.1 hany
      simp [hwell.finite row (by simp) v hv] at hinf
    have hbefore : ∀ r ∈ rows, r.1 < row.1 := by
      intro r hr
      obtain ⟨init, last, rfl⟩ := rows.eq_nil_or_concat'.resolve_left (ne_nil_of_mem hr)
      have hlt : last.1 < row.1 := by
        rw [h.lastDoc, getLast?_concat] at hlast
        simpa using hlast
      rcases mem_append.1 hr with hinit | hlast'
      · exact ((pairwise_append.1 h.wellFormed.ascending).2.2 r hinit last (by simp)).trans hlt
      · rwa [mem_singleton.1 hlast']
    have hwell : WellFormed dims (rows ++ [row]) := by
      refine ⟨pairwise_append.2 ⟨h.wellFormed.ascending, pairwise_singleton .., ?_⟩, ?_, ?_⟩
      · intro r hr r' hr'
        rw [mem_singleton.1 hr']
        exact hbefore r hr
      · intro r hr
        rcases mem_append.1 hr with hr | hr
        · exact h.wellFormed.length r hr
        · rw [mem_singleton.1 hr, not_not.1 hlen, h.dims]
      · intro r hr
        rcases mem_append.1 hr with hr | hr
        · exact h.wellFormed.finite r hr
        · rw [mem_singleton.1 hr]
          simpa using hany
    refine .inl ⟨_, if_neg hany, hwell, h.modelId, h.dims, ?_, ?_, ?_, ?_⟩
    · simp [h.ids]
    · simp [h.originals]
    · simp [h.count]
    · simp

/-- The rows pushed one after the other. -/
def pushAll (w : VectorFileWriter) (rows : List Row) : Fallible VectorFileWriter :=
  rows.foldlM (fun w row => w.push row.1 row.2) w

theorem Holding.pushAll (h : w.Holding modelId dims rows) (more : List Row)
    (hwell : WellFormed dims (rows ++ more)) :
    ∃ w', w.pushAll more = .ok w' ∧ w'.Holding modelId dims (rows ++ more) := by
  induction more generalizing w rows with
  | nil => exact ⟨w, rfl, by rwa [append_nil]⟩
  | cons row more ih =>
    rw [append_cons] at hwell ⊢
    obtain ⟨w₁, hpush, h₁⟩ | ⟨-, hnot⟩ := h.push row
    · obtain ⟨w', hmore, h'⟩ := ih h₁ hwell
      refine ⟨w', ?_, h'⟩
      rw [pushAll, foldlM_cons, hpush, ok_bind]
      exact hmore
    · exact absurd hwell.of_append hnot

theorem Holding.of_pushAll (h : w.Holding modelId dims rows) {more : List Row}
    (hok : w.pushAll more = .ok w') : w'.Holding modelId dims (rows ++ more) := by
  induction more generalizing w rows with
  | nil =>
    cases hok
    rwa [append_nil]
  | cons row more ih =>
    rw [VectorFileWriter.pushAll, foldlM_cons, bind_eq_ok] at hok
    obtain ⟨w₁, hpush, hmore⟩ := hok
    obtain ⟨w₂, hpush₂, h₂⟩ | ⟨hnot, -⟩ := h.push row
    · rw [hpush] at hpush₂
      cases hpush₂
      rw [append_cons]
      exact ih h₂ hmore
    · exact absurd hpush (hnot w₁)

end VectorFileWriter

theorem QuantRange.learn_eq_ok (ops : Arithmetic) (sample : List F32) :
    ∃ absmax, learn ops sample = .ok absmax ∧ fromAbsmax absmax = some absmax := by
  have hone : fromAbsmax F32.one = some F32.one := by decide
  rw [learn]
  split_ifs with hnil
  · exact ⟨_, rfl, hone⟩
  set values := (sample.filter F32.isFinite).map F32.abs
  have hrank : ops.rank values.length < (values.insertionSort fun a b => a.toNat ≤ b.toNat).length := by
    rw [length_insertionSort]
    exact ops.rank_lt _ (length_pos_of_ne_nil hnil)
  rw [index_of_some (getElem?_eq_getElem hrank), ok_bind]
  refine ⟨_, rfl, ?_⟩
  generalize (values.insertionSort _)[ops.rank values.length] = value
  by_cases hvalue : value.isFinite ∧ 0 < value.toNat ∧ value.toNat < 2 ^ 31
  · have hsome : fromAbsmax value = some value := if_pos hvalue
    rw [hsome, Option.getD_some, hsome]
  · have hnone : fromAbsmax value = none := if_neg hvalue
    rw [hnone, Option.getD_none, hone]

/-- The sections stand one behind the other. -/
structure Layout.Fits (dims idLen count : ℕ) (l : Layout) : Prop where
  ids : headerFixedLen + idLen ≤ l.ids
  codes : l.ids + count * 8 ≤ l.codes
  originals : l.codes + count * dims ≤ l.originals
  total : l.originals + count * dims * 4 = l.total
  limit : l.total < usizeLimit

theorem le_of_roundUp {value rounded : ℕ} (h : roundUpToSection value = some rounded) :
    value ≤ rounded := by
  obtain ⟨v, hv, rfl⟩ := Option.map_eq_some_iff.1 h
  have hadd := (checkedAdd_eq_some hv).1
  rw [sectionAlignment] at hadd ⊢
  omega

theorem Layout.new_fits {idLen count : ℕ} {l : Layout} (h : Layout.new dims idLen count = some l) :
    l.Fits dims idLen count := by
  simp only [Layout.new, Option.bind_eq_bind, Option.bind_eq_some_iff] at h
  obtain ⟨idEnd, hidEnd, ids, hids, idsLen, hidsLen, idsEnd, hidsEnd, codes, hcodes, codesLen,
    hcodesLen, codesEnd, hcodesEnd, originals, horiginals, cells, hcells, cellsLen, hcellsLen, total,
    htotal, hl⟩ := h
  cases hl
  obtain ⟨htotal, hlimit⟩ := checkedAdd_eq_some htotal
  have h₁ := (checkedAdd_eq_some hidEnd).1.symm.trans_le (le_of_roundUp hids)
  have h₂ := (checkedAdd_eq_some hidsEnd).1.symm.trans_le (le_of_roundUp hcodes)
  have h₃ := (checkedAdd_eq_some hcodesEnd).1.symm.trans_le (le_of_roundUp horiginals)
  rw [checkedMul_eq_some hidsLen] at h₂
  rw [checkedMul_eq_some hcodesLen] at h₃
  rw [checkedMul_eq_some hcellsLen, checkedMul_eq_some hcells] at htotal
  exact ⟨h₁, h₂, h₃, htotal.symm, hlimit⟩

/-! ### The file -/

/-- The open file gives these rows. -/
structure VectorFile.Holds (f : VectorFile) (rows : List Row) : Prop where
  docIds : f.docIds = rows.map Prod.fst
  original : ∀ {n : ℕ} {r : Row}, rows[n]? = some r → f.original n = .ok r.2

theorem length_words (w n : ℕ) (bytes : ByteSeq) : (words w n bytes).length = n := by
  induction n generalizing bytes with
  | zero => rfl
  | succ n ih => rw [words, length_cons, ih]

theorem lt_of_mem_zip_tail {l : List ℕ} (h : l.Pairwise (· < ·)) : ∀ p ∈ l.zip l.tail, p.1 < p.2 := by
  induction l with
  | nil => simp
  | cons a l ih =>
    cases l with
    | nil => simp
    | cons b l =>
      intro p hp
      rcases mem_cons.1 hp with rfl | hp
      · exact (pairwise_cons.1 h).1 b (mem_cons_self ..)
      · exact ih (pairwise_cons.1 h).2 p hp

namespace VectorFileWriter

variable {w w' : VectorFileWriter}

theorem length_rowBytes (vector : List F32) : (rowBytes vector).length = vector.length * 4 :=
  length_flatMap_eq fun v _ => length_leBytes 4 v.toNat

theorem length_header (fileId : UInt64) (absmax : F32) :
    (w.header fileId absmax).length = headerFixedLen := by
  simp [header, magic, headerFixedLen]

/-- The finished bytes: each section where the layout has it. -/
structure Assembled (w : VectorFileWriter) (fileId : UInt64) (absmax : F32) (l : Layout)
    (bytes : ByteSeq) : Prop where
  header : ∃ rest, bytes = w.header fileId absmax ++ (utf8 w.modelId ++ rest)
  ids : ∃ rest, bytes.drop l.ids = w.ids ++ rest
  originals : bytes.drop l.originals = w.originals ++ []
  length : bytes.length = l.total

theorem Holding.assembled (h : w.Holding modelId dims rows) {l : Layout} (ops : Arithmetic)
    (fileId : UInt64) (absmax : F32) (hfits : l.Fits dims (utf8 modelId).length rows.length) :
    w.Assembled fileId absmax l (w.assembled ops fileId absmax l) := by
  have hids : w.ids.length = w.count * 8 := by
    rw [h.ids, length_flatMap_eq fun m _ => length_leBytes 8 m, length_map, h.count]
  have hcodes : (w.codes ops absmax).length = w.count * w.dims := by
    rw [codes, length_map, length_words]
  have horiginals : w.originals.length = w.count * w.dims * 4 := by
    rw [h.originals, length_flatMap_eq fun r hr => (length_rowBytes r.2).trans
      (congrArg (· * 4) (h.wellFormed.length r hr)), h.count, h.dims, Nat.mul_assoc]
  obtain ⟨h₁, h₂, h₃, htotal, -⟩ := hfits
  rw [← h.modelId] at h₁
  rw [← h.count] at h₂ h₃ htotal
  rw [← h.dims] at h₃ htotal
  have hpad₁ := GraphUnderConstruction.length_zeroPadding h₁
  have hpad₂ := GraphUnderConstruction.length_zeroPadding h₂
  have hpad₃ := GraphUnderConstruction.length_zeroPadding h₃
  have hwhole : w.assembled ops fileId absmax l = w.header fileId absmax ++ (utf8 w.modelId ++ _) := rfl
  -- section by section
  have hhead := drop_add ((drop_zero ..).trans hwhole) (length_header ..)
  have hid := drop_add hhead rfl
  rw [Nat.zero_add] at hid
  have hat₁ := drop_add hid rfl
  rw [hpad₁] at hat₁
  have hat₂ := drop_add (drop_add (drop_add hat₁ hids) rfl) hcodes
  rw [hpad₂] at hat₂
  have hat₃ := drop_add hat₂ rfl
  rw [hpad₃] at hat₃
  refine ⟨⟨_, hwhole⟩, ⟨_, hat₁⟩, hat₃.trans (append_nil _).symm, ?_⟩
  simp only [VectorFileWriter.assembled, length_append, length_header, hids, hcodes, horiginals]
  omega

theorem fields_of_header (fileId : UInt64) {absmax : F32} (rest : ByteSeq) (hdims : w.dims < 2 ^ 32)
    (hid : (utf8 w.modelId).length ≤ maxModelIdLen) (hcount : w.count < usizeLimit) :
    let bytes := w.header fileId absmax ++ rest
    slice bytes 0 8 = .ok magic ∧ readWord 4 bytes 8 = .ok version ∧
      readWord 8 bytes 16 = .ok fileId.toNat ∧ readWord 4 bytes 24 = .ok w.dims ∧
      readWord 1 bytes 28 = .ok originalF32 ∧ readWord 1 bytes 29 = .ok quantInt8 ∧
      readWord 2 bytes 30 = .ok (utf8 w.modelId).length ∧ readWord 4 bytes 32 = .ok absmax.toNat ∧
      readWord 8 bytes 40 = .ok w.count := by
  intro bytes
  -- what stands behind each field
  have h₀ : bytes.drop 0 = magic ++ (leBytes 4 version ++ (leBytes 4 0 ++ (leBytes 8 fileId.toNat ++
      (leBytes 4 w.dims ++ (leBytes 1 originalF32 ++ (leBytes 1 quantInt8 ++
        (leBytes 2 (utf8 w.modelId).length ++ (leBytes 4 absmax.toNat ++ (leBytes 4 0 ++
          (leBytes 8 w.count ++ rest)))))))))) := by
    simp only [bytes, header, append_assoc, drop_zero]
  have h₈ := drop_add h₀ rfl
  have h₁₆ := drop_add (drop_add h₈ rfl) rfl
  have h₂₄ := drop_add h₁₆ rfl
  have h₂₈ := drop_add h₂₄ rfl
  have h₂₉ := drop_add h₂₈ rfl
  have h₃₀ := drop_add h₂₉ rfl
  have h₃₂ := drop_add h₃₀ rfl
  have h₄₀ := drop_add (drop_add h₃₂ rfl) rfl
  have hlen : 8 ≤ bytes.length := by
    rw [length_append, length_header, headerFixedLen]
    omega
  refine ⟨?_, readWord_of_drop (by omega) (by decide) h₈,
    readWord_of_drop (by omega) fileId.toNat_lt h₁₆, readWord_of_drop (by omega) hdims h₂₄,
    readWord_of_drop (by omega) (by decide) h₂₈, readWord_of_drop (by omega) (by decide) h₂₉,
    readWord_of_drop (by omega) (by rw [maxModelIdLen] at hid; omega) h₃₀,
    readWord_of_drop (by omega) absmax.isLt h₃₂, readWord_of_drop (by omega) hcount h₄₀⟩
  rw [slice_of_le (by omega) hlen]
  rfl

/-- The file that opening the finished bytes gives. -/
def opened (w : VectorFileWriter) (path : String) (bytes : ByteSeq) (fileId : UInt64) (absmax : F32)
    (l : Layout) : VectorFile :=
  ⟨bytes, path, fileId.toNat, w.modelId, w.dims, absmax, w.count, l⟩

theorem words_rowBytes (vector : List F32) :
    (words 4 vector.length (rowBytes vector)).map (BitVec.ofNat 32) = vector := by
  have hlt : ∀ n ∈ vector.map BitVec.toNat, n < 256 ^ 4 := by
    intro n hn
    obtain ⟨v, -, rfl⟩ := mem_map.1 hn
    exact v.isLt
  have hwords := words_flatMap hlt []
  rw [length_map, flatMap_map, append_nil] at hwords
  rw [rowBytes, hwords, map_map]
  refine map_id'' (fun v => ?_) vector
  rw [Function.comp_apply, BitVec.ofNat_toNat, BitVec.setWidth_eq]

theorem Assembled.holds (h : w.Holding modelId dims rows) (hc : Creates modelId dims) {fileId : UInt64} {absmax : F32} {l : Layout}
    {bytes : ByteSeq} (ha : w.Assembled fileId absmax l bytes) (hids : ∀ r ∈ rows, r.1 < 2 ^ 64)
    (path : String) : (w.opened path bytes fileId absmax l).Holds rows where
  docIds := by
    obtain ⟨rest, hrest⟩ := ha.ids
    have hlt : ∀ d ∈ rows.map Prod.fst, d < 256 ^ 8 := by
      intro d hd
      obtain ⟨r, hr, rfl⟩ := mem_map.1 hd
      exact hids r hr
    have hwords := words_flatMap hlt rest
    rw [length_map, ← h.count, ← h.ids, ← hrest] at hwords
    exact hwords
  original := by
    intro n r hr
    have hlen : ∀ s ∈ rows, (rowBytes s.2).length = dims * 4 := fun s hs =>
      (length_rowBytes s.2).trans (congrArg (· * 4) (h.wellFormed.length s hs))
    obtain ⟨rest, hrest⟩ := drop_piece (h.originals ▸ ha.originals) hlen hr
    have hn : n < w.count := by
      rw [h.count]
      exact (List.getElem?_eq_some_iff.1 hr).1
    have hpos := hc.dims_pos
    have hr₂ : r.2.length = dims := h.wellFormed.length r (mem_of_getElem? hr)
    rw [← Nat.mul_assoc] at hrest
    have hfits := congrArg List.length hrest
    rw [length_drop, length_append, length_rowBytes, hr₂] at hfits
    have hslice : slice bytes (l.originals + n * dims * 4)
        (l.originals + n * dims * 4 + dims * 4) = .ok (rowBytes r.2) := by
      rw [slice_of_le (Nat.le_add_right ..) (by omega), drop_take, Nat.add_sub_cancel_left,
        hrest, take_left' (hlen r (mem_of_getElem? hr))]
    simp only [VectorFile.original, opened, if_pos hn, h.dims, hslice, ok_bind, pure_eq]
    rw [← hr₂, words_rowBytes]

theorem openFile_assembled (h : w.Holding modelId dims rows) (hc : Creates modelId dims)
    {fileId : UInt64} {absmax : F32} {l : Layout} {bytes : ByteSeq}
    (ha : w.Assembled fileId absmax l bytes) (hids : ∀ r ∈ rows, r.1 < 2 ^ 64)
    (hrange : QuantRange.fromAbsmax absmax = some absmax)
    (hnew : Layout.new w.dims (utf8 w.modelId).length w.count = some l) (path : String) :
    VectorFile.openFile path bytes true = .ok (w.opened path bytes fileId absmax l) := by
  obtain ⟨rest, hrest⟩ := ha.header
  have hfits := Layout.new_fits hnew
  have hidle : (utf8 w.modelId).length ≤ maxModelIdLen := h.modelId ▸ hc.id_le
  have hcount : w.count < usizeLimit := by
    have hlimit := hfits.limit
    have htotal := hfits.total
    have hcodes := hfits.codes
    have horiginals := hfits.originals
    omega
  obtain ⟨hmagic, hversion, hfile, hdims, hkind, hquant, hidLen, habsmax, hcount⟩ :=
    hrest ▸ fields_of_header fileId (utf8 w.modelId ++ rest) (h.dims ▸ hc.dims_lt) hidle hcount
  have hidEnd : headerFixedLen + (utf8 w.modelId).length ≤ bytes.length := by
    rw [hrest, length_append, length_append, length_header]
    omega
  have hslice : slice bytes headerFixedLen (headerFixedLen + (utf8 w.modelId).length) =
      .ok (utf8 w.modelId) := by
    rw [slice_of_le (Nat.le_add_right ..) hidEnd, drop_take, Nat.add_sub_cancel_left, hrest,
      drop_left' (length_header ..), take_left' rfl]
  have hholds := Assembled.holds h hc ha hids path
  have hascending : ∀ p ∈ (w.opened path bytes fileId absmax l).docIds.zip
      (w.opened path bytes fileId absmax l).docIds.tail, p.1 < p.2 := by
    rw [hholds.docIds]
    exact lt_of_mem_zip_tail (pairwise_map.2 h.wellFormed.ascending)
  rw [VectorFile.openFile, if_neg (by omega)]
  have hpos : w.dims ≠ 0 := h.dims ▸ hc.dims_pos
  simp only [hmagic, hversion, hfile, hdims, hkind, hquant, hidLen, habsmax, hcount, hslice, hpos,
    ok_bind, check, BitVec.ofNat_toNat, BitVec.setWidth_eq, hrange, ofUtf8_utf8, hnew,
    ofOption, ha.length, if_true, and_self, ne_eq, not_false_eq_true]
  rw [if_pos (ha.length ▸ hidEnd), ok_bind]
  rw [opened] at hascending
  rw [if_pos hascending, ok_bind]
  rfl

theorem Holding.finish (h : w.Holding modelId dims rows) (ops : Arithmetic) (path : String)
    (fileId : UInt64) (hc : Creates modelId dims)
    (hids : ∀ r ∈ rows, r.1 < 2 ^ 64) (hfit : (Layout.new dims (utf8 modelId).length rows.length).isSome) :
    ∃ bytes f, w.finish ops path fileId = .ok bytes ∧ VectorFile.openFile path bytes true = .ok f ∧
      f.Holds rows ∧ f.Matches modelId dims ∧ f.count = rows.length ∧ f.fileId = fileId.toNat := by
  obtain ⟨l, hnew⟩ := Option.isSome_iff_exists.1 hfit
  obtain ⟨absmax, hlearn, hrange⟩ := QuantRange.learn_eq_ok ops w.sample
  have ha := h.assembled ops fileId absmax (Layout.new_fits hnew)
  rw [← h.dims, ← h.modelId, ← h.count] at hnew
  refine ⟨_, _, ?_, openFile_assembled h hc ha hids hrange hnew path, Assembled.holds h hc ha hids path,
    ⟨h.modelId, h.dims⟩, h.count, rfl⟩
  rw [VectorFileWriter.finish, hnew]
  simp only [hlearn, ok_bind]
  exact if_neg (not_not.2 ha.length)

end VectorFileWriter

/-- The file was written with these rows and opened. -/
def Written (ops : Arithmetic) (modelId : String) (dims : ℕ) (rows : List Row) (f : VectorFile) : Prop :=
  (∀ r ∈ rows, r.1 < 2 ^ 64) ∧ ∃ path seed fileId bytes,
    writeRows ops path modelId dims rows seed fileId = .ok bytes ∧
      VectorFile.openFile path bytes true = .ok f

open VectorFileWriter in
/-- Well-formed rows can be written, and the file they leave opens. -/
theorem exists_written (ops : Arithmetic) (hc : Creates modelId dims) (hwell : WellFormed dims rows)
    (hids : ∀ r ∈ rows, r.1 < 2 ^ 64)
    (hfit : (Layout.new dims (utf8 modelId).length rows.length).isSome) :
    ∃ f, Written ops modelId dims rows f := by
  obtain ⟨w, hpush, hw⟩ := (holding_create 0).pushAll rows hwell
  obtain ⟨bytes, f, hfinish, hopen, -⟩ := hw.finish ops "" 1 hc hids hfit
  refine ⟨f, hids, "", 0, 1, bytes, ?_, hopen⟩
  rw [writeRows, (create_eq_ok _).2 ⟨hc, rfl⟩, ok_bind]
  exact (congrArg (· >>= _) hpush).trans hfinish

open VectorFileWriter in
theorem Written.spec {ops : Arithmetic} {f : VectorFile} (h : Written ops modelId dims rows f) :
    Creates modelId dims ∧ WellFormed dims rows ∧ f.Holds rows ∧ f.Matches modelId dims ∧
      f.count = rows.length := by
  obtain ⟨hids, path, seed, fileId, bytes, hwrite, hopen⟩ := h
  rw [writeRows, bind_eq_ok] at hwrite
  obtain ⟨w, hcreate, hwrite⟩ := hwrite
  obtain ⟨hc, rfl⟩ := (create_eq_ok _).1 hcreate
  obtain ⟨w', hpush, hfinish⟩ := bind_eq_ok.1 hwrite
  have h' := (holding_create seed).of_pushAll hpush
  rw [nil_append] at h'
  have hfit : (Layout.new dims (utf8 modelId).length rows.length).isSome := by
    rw [← h'.dims, ← h'.modelId, ← h'.count, Option.isSome_iff_ne_none]
    intro hnone
    rw [finish, hnone] at hfinish
    cases hfinish
  obtain ⟨bytes', f', hfinish', hopen', hholds, hmatches, hcount, -⟩ := h'.finish ops path fileId hc hids hfit
  rw [hfinish] at hfinish'
  cases hfinish'
  rw [hopen] at hopen'
  cases hopen'
  exact ⟨hc, h'.wellFormed, hholds, hmatches, hcount⟩

end VectorFormat
