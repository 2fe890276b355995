/-
Merging vector files keeps exactly the right vectors.

The cursors stand before the rows that are left of each file, the `Columns`.  A round takes
the smallest document off all columns, its row is the one of the last column that has it
(`lastRow`); what a merge writes are the rows of the documents that are not deleted.
-/
import Mathlib.Algebra.Order.BigOperators.Group.List
import Riets.VectorRoundTrip

namespace VectorFormat

open Keyed List

def lastRow : List (List Row) → DocId → Option Row
  | [], _ => none
  | rows :: rest, d => (lastRow rest d).or (find Prod.fst d rows)

variable {cols : List (List Row)} {rows : List Row} {r : Row} {doc d : DocId}

theorem of_lastRow (h : lastRow cols d = some r) : r.1 = d ∧ ∃ rows ∈ cols, r ∈ rows := by
  induction cols with
  | nil => cases h
  | cons rows rest ih =>
    rw [lastRow, Option.or_eq_some_iff] at h
    obtain h | ⟨-, h⟩ := h
    · obtain ⟨hd, rows', hrows', hr⟩ := ih h
      exact ⟨hd, rows', mem_cons_of_mem _ hrows', hr⟩
    · exact ⟨find_key h, rows, mem_cons_self .., find_mem h⟩

theorem isSome_lastRow (hrows : rows ∈ cols) (hr : r ∈ rows) : (lastRow cols r.1).isSome := by
  induction cols with
  | nil => cases hrows
  | cons first rest ih =>
    rw [lastRow, Option.isSome_or, Bool.or_eq_true]
    rcases mem_cons.1 hrows with rfl | hrest
    · exact .inr (find?_isSome.2 ⟨r, hr, decide_eq_true rfl⟩)
    · exact .inl (ih hrest)

/-! ### One document off all columns -/

structure From (doc : DocId) (cols : List (List Row)) : Prop where
  ascending : ∀ rows ∈ cols, Ascending Prod.fst rows
  le : ∀ rows ∈ cols, ∀ r ∈ rows, doc ≤ r.1

def dropHead (doc : DocId) (rows : List Row) : List Row :=
  if rows.head?.map Prod.fst = some doc then rows.tail else rows

theorem From.tail (h : From doc (rows :: cols)) : From doc cols :=
  ⟨fun l hl => h.ascending l (mem_cons_of_mem _ hl), fun l hl => h.le l (mem_cons_of_mem _ hl)⟩

theorem From.dropHead_cases (h : From doc (rows :: cols)) :
    (∃ r rest, rows = r :: rest ∧ r.1 = doc ∧ dropHead doc rows = rest ∧ (∀ s ∈ rest, doc < s.1)) ∨
      rows.head?.map Prod.fst ≠ some doc ∧ dropHead doc rows = rows ∧ ∀ s ∈ rows, doc < s.1 := by
  have hasc := h.ascending rows (mem_cons_self ..)
  have hle := h.le rows (mem_cons_self ..)
  cases rows with
  | nil => exact .inr ⟨by simp, by simp [dropHead], by simp⟩
  | cons r rest =>
    have hlt := (pairwise_cons.1 hasc).1
    by_cases hr : r.1 = doc
    · exact .inl ⟨r, rest, rfl, hr, by simp [dropHead, hr], fun s hs => hr ▸ hlt s hs⟩
    · have hfirst : doc < r.1 := lt_of_le_of_ne (hle r (mem_cons_self ..)) (Ne.symm hr)
      refine .inr ⟨by simp [hr], by simp [dropHead, hr], fun s hs => ?_⟩
      rcases mem_cons.1 hs with rfl | hs
      · exact hfirst
      · exact hfirst.trans (hlt s hs)

theorem find_of_lt (h : ∀ s ∈ rows, doc < s.1) : find Prod.fst doc rows = none :=
  find_eq_none.2 fun s hs => (h s hs).ne'

theorem From.find_dropHead (h : From doc (rows :: cols)) (d : DocId) :
    find Prod.fst d (dropHead doc rows) = if d = doc then none else find Prod.fst d rows := by
  obtain ⟨r, rest, rfl, hr, hdrop, hlt⟩ | ⟨-, hdrop, hlt⟩ := h.dropHead_cases
  · rw [hdrop]
    split_ifs with hd
    · rw [hd, find_of_lt hlt]
    · exact (find?_cons_of_neg (by simpa [hr] using Ne.symm hd)).symm
  · rw [hdrop]
    split_ifs with hd
    · rw [hd, find_of_lt hlt]
    · rfl

theorem From.lastRow_dropHead (h : From doc cols) (d : DocId) :
    lastRow (cols.map (dropHead doc)) d = if d = doc then none else lastRow cols d := by
  induction cols with
  | nil => simp [lastRow]
  | cons rows rest ih =>
    rw [map_cons, lastRow, ih h.tail, h.find_dropHead, lastRow]
    split_ifs <;> rfl

theorem sublist_dropHead (doc : DocId) (rows : List Row) : (dropHead doc rows).Sublist rows := by
  rw [dropHead]
  split_ifs
  · exact tail_sublist rows
  · exact Sublist.refl rows

/-! ### Cursors -/

structure VectorFile.Ahead (f : VectorFile) (cursor : ℕ) (rows : List Row) : Prop where
  docIds : ∀ i, f.docIds[cursor + i]? = rows[i]?.map Prod.fst
  original : ∀ {i : ℕ} {r : Row}, rows[i]? = some r → f.original (cursor + i) = .ok r.2

inductive Columns : List VectorFile → List ℕ → List (List Row) → Prop
  | nil : Columns [] [] []
  | cons {f : VectorFile} {cursor : ℕ} {rows : List Row} {files : List VectorFile} {cursors : List ℕ}
      {cols : List (List Row)} (first : f.Ahead cursor rows) (rest : Columns files cursors cols) :
      Columns (f :: files) (cursor :: cursors) (rows :: cols)

theorem VectorFile.Holds.ahead {f : VectorFile} (h : f.Holds rows) : f.Ahead 0 rows where
  docIds i := by rw [Nat.zero_add, h.docIds, getElem?_map]
  original hr := by
    rw [Nat.zero_add]
    exact h.original hr

theorem VectorFile.Ahead.next {f : VectorFile} {cursor : ℕ} (h : f.Ahead cursor (r :: rows)) :
    f.Ahead (cursor + 1) rows where
  docIds i := by rw [Nat.add_assoc, Nat.add_comm 1, h.docIds, getElem?_cons_succ]
  original {i s} hs := by
    rw [Nat.add_assoc, Nat.add_comm 1]
    exact h.original (by rwa [getElem?_cons_succ])

variable {files : List VectorFile} {cursors : List ℕ}

theorem Columns.nextDoc (h : Columns files cursors cols) :
    nextDoc files cursors = (cols.filterMap fun rows => rows.head?.map Prod.fst).min? := by
  rw [VectorFormat.nextDoc]
  congr 1
  induction h with
  | nil => rfl
  | cons first rest ih =>
    have hhead := first.docIds 0
    rw [Nat.add_zero, ← head?_eq_getElem?] at hhead
    rw [zip_cons_cons, filterMap_cons, filterMap_cons, hhead, ih]

theorem Columns.advance (h : Columns files cursors cols) (hfrom : From doc cols) :
    Columns files (advance doc files cursors).2 (cols.map (dropHead doc)) ∧
      Option.Rel (fun s r => VectorFile.original s.1 s.2 = .ok r.2) (advance doc files cursors).1
        (lastRow cols doc) := by
  induction h with
  | nil => exact ⟨.nil, .none⟩
  | @cons f cursor rows files cursors cols first rest ih =>
    obtain ⟨hcols, hsource⟩ := ih hfrom.tail
    have hhead := first.docIds 0
    rw [Nat.add_zero, ← head?_eq_getElem?] at hhead
    rw [map_cons, lastRow, VectorFormat.advance]
    generalize VectorFormat.advance doc files cursors = moved at hcols hsource
    obtain ⟨source, moved⟩ := moved
    obtain ⟨r, tail, rfl, hr, hdrop, -⟩ | ⟨hne, hdrop, hlt⟩ := hfrom.dropHead_cases
    · have hfind : find Prod.fst doc (r :: tail) = some r := find?_cons_of_pos (decide_eq_true hr)
      have hat : f.docIds[cursor]? = some doc := by rw [hhead, head?_cons, Option.map_some, hr]
      simp only [hat, if_true, hdrop, hfind]
      generalize lastRow cols doc = row at hsource
      refine ⟨.cons first.next hcols, ?_⟩
      cases hsource with
      | some hs => exact .some hs
      | none => exact .some (first.original (i := 0) rfl)
    · simp only [hhead, if_neg hne, hdrop, find_of_lt hlt, Option.or_none]
      exact ⟨.cons first hcols, hsource⟩

theorem min_of_heads (hasc : ∀ rows ∈ cols, Ascending Prod.fst rows)
    (hmin : (cols.filterMap fun rows => rows.head?.map Prod.fst).min? = some doc) :
    From doc cols ∧ ∃ rows ∈ cols, ∃ r rest, rows = r :: rest ∧ r.1 = doc := by
  obtain ⟨hmem, hle⟩ := min?_eq_some_iff.1 hmin
  refine ⟨⟨hasc, fun rows hrows r hr => ?_⟩, ?_⟩
  · cases rows with
    | nil => cases hr
    | cons first rest =>
      have hfirst : doc ≤ first.1 := hle _ (mem_filterMap.2 ⟨_, hrows, rfl⟩)
      rcases mem_cons.1 hr with rfl | hr
      · exact hfirst
      · exact hfirst.trans ((pairwise_cons.1 (hasc _ hrows)).1 r hr).le
  · obtain ⟨rows, hrows, hhead⟩ := mem_filterMap.1 hmem
    cases rows with
    | nil => cases hhead
    | cons r rest => exact ⟨_, hrows, r, rest, rfl, Option.some_inj.1 hhead⟩

theorem mergeLoop_spec (deleted : DeleteSet) {rounds : ℕ} (h : Columns files cursors cols)
    (hasc : ∀ rows ∈ cols, Ascending Prod.fst rows)
    (hrounds : (cols.map length).sum < rounds) :
    ∃ out, (∀ w, mergeLoop files deleted rounds cursors w = w.pushAll out) ∧ Ascending Prod.fst out ∧
      ∀ r, r ∈ out ↔ r.1 ∉ deleted ∧ lastRow cols r.1 = some r := by
  induction rounds generalizing cursors cols with
  | zero => exact absurd hrounds (Nat.not_lt_zero _)
  | succ rounds ih =>
    simp only [mergeLoop, h.nextDoc]
    cases hmin : (cols.filterMap fun rows => rows.head?.map Prod.fst).min? with
    | none =>
      refine ⟨[], fun w => rfl, Pairwise.nil, fun r => iff_of_false (by simp) fun hr => ?_⟩
      obtain ⟨-, rows, hrows, hmem⟩ := of_lastRow hr.2
      have hnil := filterMap_eq_nil_iff.1 (min?_eq_none_iff.1 hmin) rows hrows
      rw [Option.map_eq_none_iff, head?_eq_none_iff] at hnil
      exact absurd hmem (hnil ▸ not_mem_nil)
    | some doc =>
      obtain ⟨hfrom, rows, hrows, first, tail, rfl, hfirst⟩ := min_of_heads hasc hmin
      obtain ⟨hcols, hsource⟩ := h.advance hfrom
      obtain ⟨row, hrow⟩ := Option.isSome_iff_exists.1 (isSome_lastRow hrows (mem_cons_self ..))
      rw [hfirst] at hrow
      have hasc' : ∀ rows ∈ cols.map (dropHead doc), Ascending Prod.fst rows := by
        intro rows hrows
        obtain ⟨rows', hrows', rfl⟩ := mem_map.1 hrows
        exact (hasc rows' hrows').sublist (sublist_dropHead doc rows')
      have hless : ((cols.map (dropHead doc)).map length).sum < rounds := by
        have hlt : ((cols.map (dropHead doc)).map length).sum < (cols.map length).sum := by
          rw [map_map]
          refine sum_lt_sum _ _ (fun l _ => (sublist_dropHead doc l).length_le) ⟨_, hrows, ?_⟩
          simp [dropHead, hfirst]
        omega
      obtain ⟨out, hloop, hout, hmem⟩ := ih hcols hasc' hless
      -- the other documents are found in what is left
      have hother : ∀ r, r ∈ out ↔ r.1 ≠ doc ∧ r.1 ∉ deleted ∧ lastRow cols r.1 = some r := by
        intro r
        rw [hmem, hfrom.lastRow_dropHead]
        split_ifs with hr
        · exact iff_of_false (by simp) fun h => h.1 hr
        · simp [hr]
      obtain ⟨hdoc, -⟩ := of_lastRow hrow
      rw [hrow] at hsource
      dsimp only
      generalize advance doc files cursors = moved at hcols hsource hloop ⊢
      obtain ⟨source, moved⟩ := moved
      cases hsource with
      | @some source _ hvector =>
        by_cases hdeleted : doc ∈ deleted
        · refine ⟨out, fun w => (if_pos hdeleted).trans (hloop w), hout, fun r => (hother r).trans ?_⟩
          exact and_iff_right_of_imp fun h hr => h.1 (hr ▸ hdeleted)
        · refine ⟨row :: out, fun w => (if_neg hdeleted).trans ?_, pairwise_cons.2 ⟨?_, hout⟩, fun r => ?_⟩
          · rw [hvector, Fallible.ok_bind, VectorFileWriter.pushAll, foldlM_cons, hdoc]
            exact bind_congr hloop
          · intro r hr
            obtain ⟨hne, -, hlast⟩ := (hother r).1 hr
            obtain ⟨-, rows, hrows, hmem⟩ := of_lastRow hlast
            exact lt_of_le_of_ne (hdoc ▸ hfrom.le rows hrows r hmem) (hdoc ▸ Ne.symm hne)
          · rw [mem_cons, hother]
            constructor
            · rintro (rfl | h)
              · exact ⟨hdoc ▸ hdeleted, hdoc ▸ hrow⟩
              · exact h.2
            · intro h
              by_cases hr : r.1 = doc
              · rw [hr, hrow] at h
                exact .inl (Option.some_inj.1 h.2).symm
              · exact .inr ⟨hr, h⟩

/-! ### The merged file -/

theorem VectorFile.position_eq_some {f : VectorFile} (h : f.docIds.Pairwise (· < ·)) {n : ℕ} :
    f.position d = some n ↔ f.docIds[n]? = some d := by
  have hlast := @binarySearch_eq_getLast _ _ _ id _ (h.imp le_of_lt) d
  have hsound : ∀ {m : ℕ}, f.position d = some m → f.docIds[m]? = some d := by
    intro m hm
    obtain ⟨e, he⟩ := binarySearch_getElem? hm
    rw [show binarySearch id d f.docIds = some m from hm, Option.bind_some, he] at hlast
    have hmem := mem_of_getLast? hlast.symm
    rw [he, show e = d by simpa using (mem_filter.1 hmem).2]
  refine ⟨hsound, fun hn => ?_⟩
  have hmem : d ∈ f.docIds.filter fun e => decide (id e = d) :=
    mem_filter.2 ⟨mem_of_getElem? hn, by simp⟩
  obtain ⟨e, he⟩ := Option.isSome_iff_exists.1 (getLast?_isSome.2 (ne_nil_of_mem hmem))
  rw [he] at hlast
  obtain ⟨m, hm, -⟩ := Option.bind_eq_some_iff.1 hlast
  have hsame := (hsound hm).trans hn.symm
  rw [show f.position d = some m from hm,
    (getElem?_inj (List.getElem?_eq_some_iff.1 (hsound hm)).1 (h.imp ne_of_lt)).1 hsame]

def keptIds (files : List VectorFile) (deleted : DeleteSet) : Finset DocId :=
  (files.flatMap VectorFile.docIds).toFinset \ deleted

/-- A file of the rows of some files: of each document the last, the deleted ones not. -/
structure Merged (inputs : List (List Row × VectorFile)) (deleted : DeleteSet) (f : VectorFile) :
    Prop where
  ascending : f.docIds.Pairwise (· < ·)
  docIds : ∀ d, d ∈ f.docIds ↔ (∃ i ∈ inputs, d ∈ i.2.docIds) ∧ d ∉ deleted
  position : ∀ d n, f.position d = some n ↔ f.docIds[n]? = some d
  original : ∀ d n, f.position d = some n →
    ∃ r, lastRow (inputs.map Prod.fst) d = some r ∧ f.original n = .ok r.2

variable {ops : Arithmetic} {modelId : String} {dims : ℕ} {inputs : List (List Row × VectorFile)}

theorem columns_of_written (h : ∀ i ∈ inputs, Written ops modelId dims i.1 i.2) :
    Columns (inputs.map Prod.snd) ((inputs.map Prod.snd).map fun _ => 0) (inputs.map Prod.fst) := by
  induction inputs with
  | nil => exact .nil
  | cons i inputs ih =>
    obtain ⟨hi, hrest⟩ := forall_mem_cons.1 h
    exact .cons hi.spec.2.2.1.ahead (ih hrest)

theorem isSome_lastRow_iff (h : ∀ i ∈ inputs, Written ops modelId dims i.1 i.2) :
    (lastRow (inputs.map Prod.fst) d).isSome ↔ ∃ i ∈ inputs, d ∈ i.2.docIds := by
  constructor
  · intro hsome
    obtain ⟨r, hr⟩ := Option.isSome_iff_exists.1 hsome
    obtain ⟨rfl, rows, hrows, hmem⟩ := of_lastRow hr
    obtain ⟨i, hi, rfl⟩ := mem_map.1 hrows
    refine ⟨i, hi, ?_⟩
    rw [(h i hi).spec.2.2.1.docIds]
    exact mem_map_of_mem hmem
  · rintro ⟨i, hi, hd⟩
    rw [(h i hi).spec.2.2.1.docIds] at hd
    obtain ⟨r, hr, rfl⟩ := mem_map.1 hd
    exact isSome_lastRow (mem_map_of_mem hi) hr

/-- A merge of files that the writer wrote for one model succeeds, and its output opens to the rows
of the documents that are not deleted, each the row of the last file that has it. -/
theorem mergeVectorFiles_exact (hne : inputs ≠ [])
    (hwritten : ∀ i ∈ inputs, Written ops modelId dims i.1 i.2) (deleted : DeleteSet)
    (hfit : (Layout.new dims (utf8 modelId).length
      (keptIds (inputs.map Prod.snd) deleted).card).isSome)
    (output : String) (seed fileId : UInt64) :
    ∃ bytes f, mergeVectorFiles ops (inputs.map Prod.snd) deleted output seed fileId = .ok bytes ∧
      VectorFile.openFile output bytes true = .ok f ∧ Merged inputs deleted f := by
  have hasc : ∀ rows ∈ inputs.map Prod.fst, Ascending Prod.fst rows := by
    intro rows hrows
    obtain ⟨i, hi, rfl⟩ := mem_map.1 hrows
    exact (hwritten i hi).spec.2.1.ascending
  have hcounts : (inputs.map Prod.snd).map VectorFile.count = (inputs.map Prod.fst).map length := by
    rw [map_map, map_map]
    exact map_congr_left fun i hi => (hwritten i hi).spec.2.2.2.2
  obtain ⟨out, hloop, hout, hmem⟩ := mergeLoop_spec deleted (columns_of_written hwritten) hasc
    (Nat.lt_succ_self _)
  rw [← hcounts] at hloop
  have hfrom : ∀ r ∈ out, ∃ i ∈ inputs, r ∈ i.1 := by
    intro r hr
    obtain ⟨-, rows, hrows, hrow⟩ := of_lastRow ((hmem r).1 hr).2
    obtain ⟨i, hi, rfl⟩ := mem_map.1 hrows
    exact ⟨i, hi, hrow⟩
  have hwell : WellFormed dims out := by
    refine ⟨hout, fun r hr => ?_, fun r hr => ?_⟩
    · obtain ⟨i, hi, hrow⟩ := hfrom r hr
      exact (hwritten i hi).spec.2.1.length r hrow
    · obtain ⟨i, hi, hrow⟩ := hfrom r hr
      exact (hwritten i hi).spec.2.1.finite r hrow
  have hids : ∀ r ∈ out, r.1 < 2 ^ 64 := by
    intro r hr
    obtain ⟨i, hi, hrow⟩ := hfrom r hr
    exact (hwritten i hi).1 r hrow
  have hdocs : ∀ d, d ∈ out.map Prod.fst ↔ (∃ i ∈ inputs, d ∈ i.2.docIds) ∧ d ∉ deleted := by
    intro d
    rw [← isSome_lastRow_iff hwritten, mem_map]
    constructor
    · rintro ⟨r, hr, rfl⟩
      obtain ⟨hlive, hlast⟩ := (hmem r).1 hr
      exact ⟨hlast ▸ rfl, hlive⟩
    · rintro ⟨hsome, hlive⟩
      obtain ⟨r, hr⟩ := Option.isSome_iff_exists.1 hsome
      obtain ⟨rfl, -⟩ := of_lastRow hr
      exact ⟨r, (hmem r).2 ⟨hlive, hr⟩, rfl⟩
  have hcard : (keptIds (inputs.map Prod.snd) deleted).card = out.length := by
    have hnodup : (out.map Prod.fst).Nodup := (pairwise_map.2 hout).imp ne_of_lt
    rw [← @length_map _ _ out Prod.fst, ← toFinset_card_of_nodup hnodup]
    congr 1
    ext d
    rw [mem_toFinset, hdocs, keptIds, Finset.mem_sdiff, mem_toFinset, flatMap_map, mem_flatMap]
  rw [hcard] at hfit
  cases inputs with
  | nil => exact absurd rfl hne
  | cons i rest =>
    obtain ⟨hc, -, -, ⟨rfl, rfl⟩, -⟩ := (hwritten i (mem_cons_self ..)).spec
    have hcreate := (VectorFileWriter.create_eq_ok seed).2 ⟨hc, rfl⟩
    obtain ⟨w, hpush, hw⟩ := (VectorFileWriter.holding_create seed).pushAll out hwell
    obtain ⟨bytes, f, hfinish, hopen, hholds, -⟩ := hw.finish ops output fileId hc hids hfit
    have hmatch : ((i :: rest).map Prod.snd).find? (fun f => ¬f.Matches i.2.modelId i.2.dims) = none := by
      refine find?_eq_none.2 fun f hf => ?_
      obtain ⟨j, hj, rfl⟩ := mem_map.1 hf
      simpa using (hwritten j hj).spec.2.2.2.1
    refine ⟨bytes, f, ?_, hopen, ?_⟩
    · rw [map_cons] at hmatch hloop ⊢
      simp only [mergeVectorFiles, hmatch, hcreate, Fallible.ok_bind]
      rw [hloop, hpush, Fallible.ok_bind, hfinish]
    · have hascending : f.docIds.Pairwise (· < ·) := by
        rw [hholds.docIds]
        exact pairwise_map.2 hout
      refine ⟨hascending, fun d => hholds.docIds ▸ hdocs d,
        fun d n => VectorFile.position_eq_some hascending, fun d n hn => ?_⟩
      rw [VectorFile.position_eq_some hascending, hholds.docIds, getElem?_map,
        Option.map_eq_some_iff] at hn
      obtain ⟨r, hr, rfl⟩ := hn
      exact ⟨r, ((hmem r).1 (mem_of_getElem? hr)).2, hholds.original hr⟩

def unitArithmetic : Arithmetic where
  rank len := ((len - 1) * 99 + 50) / 100
  rank_lt len h := by omega
  code _ v := if v.toNat < 2 ^ 31 then 127 else 129

theorem mergeVectorFiles_exact_shared :
    ∃ a b, Written unitArithmetic "m" 1 [(1, [F32.one]), (2, [F32.one])] a ∧
      Written unitArithmetic "m" 1 [(2, [0xBF800000])] b ∧
      ∃ bytes f, mergeVectorFiles unitArithmetic [a, b] {1} "merged" 0 2 = .ok bytes ∧
        VectorFile.openFile "merged" bytes true = .ok f ∧
        Merged [([(1, [F32.one]), (2, [F32.one])], a), ([(2, [0xBF800000])], b)] {1} f := by
  have hc : VectorFileWriter.Creates "m" 1 := ⟨by decide, by decide, by decide, by decide⟩
  have hwell₁ : WellFormed 1 [(1, [F32.one]), (2, [F32.one])] :=
    ⟨by decide, by decide, by simp [F32.isFinite, F32.one]⟩
  have hwell₂ : WellFormed 1 [(2, [0xBF800000])] := ⟨by decide, by decide, by simp [F32.isFinite]⟩
  obtain ⟨a, ha⟩ := exists_written unitArithmetic hc hwell₁ (by decide) rfl
  obtain ⟨b, hb⟩ := exists_written unitArithmetic hc hwell₂ (by decide) rfl
  have hboth : ∀ i ∈ [([((1 : DocId), [F32.one]), (2, [F32.one])], a), ([(2, [0xBF800000])], b)],
      Written unitArithmetic "m" 1 i.1 i.2 := forall_mem_cons.2 ⟨ha, forall_mem_singleton.2 hb⟩
  have hkept : keptIds [a, b] {1} = {2} := by
    rw [keptIds, flatMap_cons, flatMap_cons, ha.spec.2.2.1.docIds, hb.spec.2.2.1.docIds]
    decide
  refine ⟨a, b, ha, hb, mergeVectorFiles_exact (by simp) hboth {1} ?_ "merged" 0 2⟩
  rw [map_cons, map_cons, map_nil, hkept]
  rfl

end VectorFormat
