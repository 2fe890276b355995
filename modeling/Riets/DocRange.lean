/-
The document range of a segment.

A segment derives its range from the ids it has lengths or numbers under; the
file keeps the two ends, and the reader takes them when the file has a term or a
numeric field.
-/
import Riets.LsmIndex

/-- What a document files, under its own id and those of its rows. -/
def AnalyzedDocument.targets (doc : AnalyzedDocument) : List (DocId × AnalyzedTarget) :=
  (doc.docId, doc.main) :: doc.arrayRows.map fun row => (row.arrayRowId, row.target)

/-- The target has a length or a number, which widen a range. -/
def AnalyzedTarget.Ranged (t : AnalyzedTarget) : Prop := t.fields ≠ [] ∨ t.numericPoints ≠ []

/-- The target has a term or a number, which keep the range of a file. -/
def AnalyzedTarget.Kept (t : AnalyzedTarget) : Prop :=
  (∃ field ∈ t.fields, field.terms ≠ []) ∨ t.numericPoints ≠ []

def RangedIn (docs : List AnalyzedDocument) (id : DocId) : Prop :=
  ∃ doc ∈ docs, ∃ target ∈ doc.targets, target.1 = id ∧ target.2.Ranged

def KeptIn (docs : List AnalyzedDocument) : Prop := ∃ doc ∈ docs, ∃ target ∈ doc.targets, target.2.Kept

/-- The id is in the range. -/
def Within (range : Option (DocId × DocId)) (id : DocId) : Prop :=
  ∃ lo hi, range = some (lo, hi) ∧ lo ≤ id ∧ id ≤ hi

/-- Every document lies between the first and the last id that has text or numbers, and a term or
a number is there. -/
def Spanned (docs : List AnalyzedDocument) : Prop :=
  (docs ≠ [] → KeptIn docs) ∧
    ∀ doc ∈ docs, (∃ id, RangedIn docs id ∧ id ≤ doc.docId) ∧ ∃ id, RangedIn docs id ∧ doc.docId ≤ id

/-! ### Tables -/

namespace MemIndex

open SortedMap List

/-- How a table comes from documents. -/
inductive Indexed : MemIndex → List AnalyzedDocument → Prop
  | new : Indexed new []
  | add {m docs} (doc) : Indexed m docs → Indexed (m.addAnalyzedDocument doc) (docs ++ [doc])
  | merge {m n docs docs'} : Indexed m docs → Indexed n docs' → Indexed (m.mergeFrom n) (docs ++ docs')

def Ranged (m : MemIndex) (id : DocId) : Prop :=
  (∃ x, m.docLengths.get? (toLex (id, x)) ≠ none) ∨ ∃ x, m.numbers x id ≠ []

def HasTerm (m : MemIndex) : Prop := ∃ k, m.terms.get? k ≠ none

def HasNumber (m : MemIndex) : Prop := ∃ x, m.numericPoints.points.get? x ≠ none

variable {V : MemIndex → Prop}

theorem foldl_iff {α : Type*} {P : α → Prop} {f : MemIndex → α → MemIndex}
    (h : ∀ m a, V (f m a) ↔ V m ∨ P a) (l : List α) (m : MemIndex) :
    V (l.foldl f m) ↔ V m ∨ ∃ a ∈ l, P a := by
  induction l generalizing m with
  | nil => simp
  | cons a l ih =>
    rw [foldl_cons, ih, h]
    simp only [mem_cons, exists_eq_or_imp, or_assoc]

theorem ranged_applyField (m : MemIndex) (id' id : DocId) (field : AnalyzedField) :
    (m.applyField id' field).Ranged id ↔ m.Ranged id ∨ id' = id := by
  have hpost : ∀ (m : MemIndex) (t : AnalyzedTerm),
      (m.addPostingWeighted t.term field.xpath id' t.positions t.weight).Ranged id ↔ m.Ranged id ∨ False :=
    fun m t => (or_false (m.Ranged id)).symm ▸ Iff.rfl
  rw [applyField, foldl_iff (V := fun m => m.Ranged id) hpost]
  simp only [and_false, exists_false, or_false, Ranged, get?_insert]
  constructor
  · rintro (⟨x, hx⟩ | hnumber)
    · split_ifs at hx with hkey
      · exact .inr (Prod.mk.inj (toLex.injective hkey)).1.symm
      · exact .inl (.inl ⟨x, hx⟩)
    · exact .inl (.inr hnumber)
  · rintro ((⟨x, hx⟩ | hnumber) | rfl)
    · refine .inl ⟨x, ?_⟩
      split_ifs
      · simp
      · exact hx
    · exact .inr hnumber
    · exact .inl ⟨field.xpath, by simp⟩

theorem ranged_applyTarget (m : MemIndex) (id' id : DocId) (t : AnalyzedTarget) :
    (m.applyTarget id' t).Ranged id ↔ m.Ranged id ∨ (id' = id ∧ t.Ranged) := by
  have hnumber : ∀ (m : MemIndex) (p : NumericPoint),
      (m.addNumber id' p).Ranged id ↔ m.Ranged id ∨ id' = id := by
    intro m p
    simp only [Ranged, addNumber, numbers, NumericPoints.of_insert, or_assoc]
    refine or_congr Iff.rfl ?_
    constructor
    · rintro ⟨x, hx⟩
      split_ifs at hx with heq
      · exact .inr heq.2
      · exact .inl ⟨x, by simpa using hx⟩
    · rintro (⟨x, hx⟩ | rfl)
      · exact ⟨x, fun hnil => hx (append_eq_nil_iff.mp hnil).1⟩
      · exact ⟨p.xpath, by simp⟩
  have hbool : ∀ (m : MemIndex) (p : BoolPoint), (m.addBool id' p).Ranged id ↔ m.Ranged id ∨ False :=
    fun m p => (or_false (m.Ranged id)).symm ▸ Iff.rfl
  rw [applyTarget, foldl_iff (V := fun m => m.Ranged id) hbool, foldl_iff (V := fun m => m.Ranged id) hnumber,
    foldl_iff (V := fun m => m.Ranged id) fun m f => m.ranged_applyField id' id f]
  simp only [and_false, exists_false, or_false, AnalyzedTarget.Ranged, or_assoc]
  refine or_congr Iff.rfl ?_
  cases t.fields <;> cases t.numericPoints <;> simp

theorem hasTerm_applyTarget (m : MemIndex) (id : DocId) (t : AnalyzedTarget) :
    (m.applyTarget id t).HasTerm ↔ m.HasTerm ∨ ∃ field ∈ t.fields, field.terms ≠ [] := by
  have hpost : ∀ x (m : MemIndex) (w : AnalyzedTerm),
      (m.addPostingWeighted w.term x id w.positions w.weight).HasTerm ↔ m.HasTerm ∨ True := by
    intro x m w
    simp only [or_true, iff_true]
    refine ⟨⟨x, w.term⟩, ?_⟩
    rw [addPostingWeighted, get?_upsert, if_pos rfl]
    simp
  have hfield : ∀ (m : MemIndex) (f : AnalyzedField),
      (m.applyField id f).HasTerm ↔ m.HasTerm ∨ f.terms ≠ [] := by
    intro m f
    rw [applyField, foldl_iff (hpost f.xpath)]
    refine or_congr Iff.rfl ?_
    cases f.terms <;> simp
  have hnumber : ∀ (m : MemIndex) (p : NumericPoint), (m.addNumber id p).HasTerm ↔ m.HasTerm ∨ False :=
    fun m p => (or_false m.HasTerm).symm ▸ Iff.rfl
  have hbool : ∀ (m : MemIndex) (p : BoolPoint), (m.addBool id p).HasTerm ↔ m.HasTerm ∨ False :=
    fun m p => (or_false m.HasTerm).symm ▸ Iff.rfl
  rw [applyTarget, foldl_iff hbool, foldl_iff hnumber, foldl_iff hfield]
  simp

theorem hasNumber_applyTarget (m : MemIndex) (id : DocId) (t : AnalyzedTarget) :
    (m.applyTarget id t).HasNumber ↔ m.HasNumber ∨ t.numericPoints ≠ [] := by
  have hfield : ∀ (m : MemIndex) (f : AnalyzedField), (m.applyField id f).HasNumber ↔ m.HasNumber ∨ False := by
    intro m f
    have hpost : ∀ (m : MemIndex) (w : AnalyzedTerm),
        (m.addPostingWeighted w.term f.xpath id w.positions w.weight).HasNumber ↔ m.HasNumber ∨ False :=
      fun m w => (or_false m.HasNumber).symm ▸ Iff.rfl
    rw [applyField, foldl_iff hpost]
    simp [HasNumber]
  have hnumber : ∀ (m : MemIndex) (p : NumericPoint), (m.addNumber id p).HasNumber ↔ m.HasNumber ∨ True := by
    intro m p
    simp only [or_true, iff_true]
    refine ⟨p.xpath, ?_⟩
    rw [addNumber, NumericPoints.insert, get?_upsert, if_pos rfl]
    simp
  have hbool : ∀ (m : MemIndex) (p : BoolPoint), (m.addBool id p).HasNumber ↔ m.HasNumber ∨ False :=
    fun m p => (or_false m.HasNumber).symm ▸ Iff.rfl
  rw [applyTarget, foldl_iff hbool, foldl_iff hnumber, foldl_iff hfield]
  cases t.numericPoints <;> simp

variable {P : DocId × AnalyzedTarget → Prop}

theorem addAnalyzedDocument_iff (htarget : ∀ m id t, V (m.applyTarget id t) ↔ V m ∨ P (id, t))
    (htrack : ∀ (m : MemIndex) id, V (m.trackDocId id) ↔ V m)
    (hrow : ∀ (m : MemIndex) rows, V { m with arrayRowIndex := rows } ↔ V m)
    (m : MemIndex) (doc : AnalyzedDocument) :
    V (m.addAnalyzedDocument doc) ↔ V m ∨ ∃ target ∈ doc.targets, P target := by
  have hadd : ∀ (m : MemIndex) (row : AnalyzedArrayRow),
      V (m.addArrayRow doc.docId row) ↔ V m ∨ P (row.arrayRowId, row.target) := by
    intro m row
    rw [addArrayRow, htarget, hrow]
  rw [addAnalyzedDocument, foldl_iff hadd, htarget, htrack]
  simp [AnalyzedDocument.targets, or_assoc]

theorem ranged_mergeFrom (m n : MemIndex) (id : DocId) :
    (m.mergeFrom n).Ranged id ↔ m.Ranged id ∨ n.Ranged id := by
  have hlength : ∀ x, (m.mergeFrom n).docLengths.get? (toLex (id, x)) ≠ none ↔
      m.docLengths.get? (toLex (id, x)) ≠ none ∨ n.docLengths.get? (toLex (id, x)) ≠ none := by
    intro x
    rw [mergeFrom_docLengths, get?_mergeWith]
    cases n.docLengths.get? (toLex (id, x)) <;> simp
  have hnumbers : ∀ x, (m.mergeFrom n).numbers x id ≠ [] ↔ m.numbers x id ≠ [] ∨ n.numbers x id ≠ [] := by
    intro x
    rw [numbers_mergeFrom, ne_eq, append_eq_nil_iff, not_and_or]
  simp only [Ranged, hlength, hnumbers, exists_or]
  exact or_or_or_comm

theorem hasTerm_mergeFrom (m n : MemIndex) : (m.mergeFrom n).HasTerm ↔ m.HasTerm ∨ n.HasTerm := by
  have hkey : ∀ k, (m.mergeFrom n).terms.get? k ≠ none ↔ m.terms.get? k ≠ none ∨ n.terms.get? k ≠ none := by
    intro k
    rw [mergeFrom_terms, get?_mergeWith]
    cases n.terms.get? k <;> simp
  simp only [HasTerm, hkey, exists_or]

theorem hasNumber_mergeFrom (m n : MemIndex) : (m.mergeFrom n).HasNumber ↔ m.HasNumber ∨ n.HasNumber := by
  have hkey : ∀ x, (m.mergeFrom n).numericPoints.points.get? x ≠ none ↔
      m.numericPoints.points.get? x ≠ none ∨ n.numericPoints.points.get? x ≠ none := by
    intro x
    rw [mergeFrom_numericPoints, NumericPoints.merge, get?_mergeWith]
    cases n.numericPoints.points.get? x <;> simp
  simp only [HasNumber, hkey, exists_or]

variable {m : MemIndex} {docs : List AnalyzedDocument}

theorem Indexed.has_iff (hnew : ¬V MemIndex.new) (htarget : ∀ m id t, V (m.applyTarget id t) ↔ V m ∨ P (id, t))
    (htrack : ∀ (m : MemIndex) id, V (m.trackDocId id) ↔ V m)
    (hrow : ∀ (m : MemIndex) rows, V { m with arrayRowIndex := rows } ↔ V m)
    (hmerge : ∀ m n, V (m.mergeFrom n) ↔ V m ∨ V n)
    (h : Indexed m docs) : V m ↔ ∃ doc ∈ docs, ∃ target ∈ doc.targets, P target := by
  induction h with
  | new => simpa using hnew
  | @add m docs doc _ ih =>
    rw [addAnalyzedDocument_iff htarget htrack hrow, ih]
    simp only [mem_append, mem_singleton, or_and_right, exists_or, exists_eq_left]
  | @merge m n docs docs' _ _ ih ih' =>
    rw [hmerge, ih, ih']
    simp only [mem_append, or_and_right, exists_or]

theorem Indexed.ranged_iff (h : Indexed m docs) (id : DocId) :
    m.Ranged id ↔ RangedIn docs id := by
  refine h.has_iff (V := fun m => m.Ranged id) (P := fun target => target.1 = id ∧ target.2.Ranged) ?_
    (fun m id' t => m.ranged_applyTarget id' id t) (fun _ _ => Iff.rfl) (fun _ _ => Iff.rfl)
    fun m n => m.ranged_mergeFrom n id
  rintro (⟨x, hx⟩ | ⟨x, hx⟩)
  · exact hx rfl
  · exact hx rfl

theorem Indexed.hasTerm_iff (h : Indexed m docs) :
    m.HasTerm ↔ ∃ doc ∈ docs, ∃ target ∈ doc.targets, ∃ field ∈ target.2.fields, field.terms ≠ [] := by
  refine h.has_iff (V := HasTerm) (P := fun target => ∃ field ∈ target.2.fields, field.terms ≠ []) ?_
    hasTerm_applyTarget (fun _ _ => Iff.rfl) (fun _ _ => Iff.rfl) hasTerm_mergeFrom
  rintro ⟨k, hk⟩
  exact hk rfl

theorem Indexed.hasNumber_iff (h : Indexed m docs) :
    m.HasNumber ↔ ∃ doc ∈ docs, ∃ target ∈ doc.targets, target.2.numericPoints ≠ [] := by
  refine h.has_iff (V := HasNumber) (P := fun target => target.2.numericPoints ≠ []) ?_
    hasNumber_applyTarget (fun _ _ => Iff.rfl) (fun _ _ => Iff.rfl) hasNumber_mergeFrom
  rintro ⟨x, hx⟩
  exact hx rfl

end MemIndex

/-- A table with the documents it was made of. -/
structure Table where
  table : MemIndex
  docs : List AnalyzedDocument
  indexed : table.Indexed docs

namespace Segment

open List SortedMap NumericField

theorem foldl_extendRange_some (l : List DocId) (lo hi : DocId) : ∃ lo' hi',
    l.foldl extendRange (some (lo, hi)) = some (lo', hi') ∧ lo' ∈ lo :: l ∧ hi' ∈ hi :: l ∧
      (lo' ≤ lo ∧ hi ≤ hi') ∧ ∀ d ∈ l, lo' ≤ d ∧ d ≤ hi' := by
  induction l generalizing lo hi with
  | nil => exact ⟨lo, hi, rfl, by simp, by simp, ⟨le_rfl, le_rfl⟩, by simp⟩
  | cons d l ih =>
    obtain ⟨lo', hi', hfold, hlo, hhi, hends, hall⟩ := ih (min lo d) (max hi d)
    have hmin : min lo d = lo ∨ min lo d = d := min_choice lo d
    have hmax : max hi d = hi ∨ max hi d = d := max_choice hi d
    refine ⟨lo', hi', hfold, ?_, ?_, ⟨hends.1.trans (min_le_left lo d), (le_max_left hi d).trans hends.2⟩, ?_⟩
    · rcases mem_cons.mp hlo with heq | hmem
      · rcases hmin with h | h <;> simp [heq, h]
      · simp [hmem]
    · rcases mem_cons.mp hhi with heq | hmem
      · rcases hmax with h | h <;> simp [heq, h]
      · simp [hmem]
    · intro d' hd'
      rcases mem_cons.mp hd' with rfl | hd'
      · exact ⟨hends.1.trans (min_le_right lo d'), (le_max_right hi d').trans hends.2⟩
      · exact hall d' hd'

theorem within_foldl_extendRange (l : List DocId) (d : DocId) :
    (l.foldl extendRange none = none ↔ l = []) ∧
      (Within (l.foldl extendRange none) d ↔ (∃ a ∈ l, a ≤ d) ∧ ∃ b ∈ l, d ≤ b) := by
  cases l with
  | nil => simp [Within]
  | cons a l =>
    obtain ⟨lo, hi, hfold, hlo, hhi, hends, hall⟩ := foldl_extendRange_some l a a
    have hfold' : (a :: l).foldl extendRange none = some (lo, hi) := hfold
    have hbounds : ∀ b ∈ a :: l, lo ≤ b ∧ b ≤ hi := by
      intro b hb
      rcases mem_cons.mp hb with rfl | hb
      · exact hends
      · exact hall b hb
    rw [hfold']
    refine ⟨by simp, ?_⟩
    constructor
    · rintro ⟨lo', hi', heq, hle, hge⟩
      obtain ⟨rfl, rfl⟩ := Prod.mk.inj (Option.some_inj.mp heq)
      exact ⟨⟨lo, hlo, hle⟩, hi, hhi, hge⟩
    · rintro ⟨⟨b, hb, hle⟩, c, hc, hge⟩
      exact ⟨lo, hi, rfl, (hbounds b hb).1.trans hle, hge.trans (hbounds c hc).2⟩

def Ranged (s : Segment) (id : DocId) : Prop :=
  (∃ x, s.docLengths.get? (toLex (id, x)) ≠ none) ∨ ∃ x, s.numbers x id ≠ []

theorem within_computeDocIdRange (s : Segment) (d : DocId) :
    (computeDocIdRange s.docLengths s.numericFields = none ↔ ∀ id, ¬s.Ranged id) ∧
      (Within (computeDocIdRange s.docLengths s.numericFields) d ↔
        (∃ a, s.Ranged a ∧ a ≤ d) ∧ ∃ b, s.Ranged b ∧ d ≤ b) := by
  have hids : ∀ id, id ∈ (s.docLengths.entries.map fun e => (ofLex e.1).1) ++
      (s.numericFields.fields.entries.flatMap fun e => e.2.bkd.points.map Prod.snd) ↔ s.Ranged id := by
    intro id
    rw [mem_append, Ranged]
    refine or_congr ?_ ?_
    · constructor
      · intro h
        obtain ⟨e, he, rfl⟩ := mem_map.mp h
        refine ⟨(ofLex e.1).2, ?_⟩
        have hget : s.docLengths.get? e.1 = some e.2 := mem_entries.mp he
        rw [show toLex ((ofLex e.1).1, (ofLex e.1).2) = e.1 from rfl, hget]
        simp
      · rintro ⟨x, hx⟩
        obtain ⟨len, hlen⟩ := Option.ne_none_iff_exists'.mp hx
        exact mem_map.mpr ⟨(toLex (id, x), len), mem_entries.mpr hlen, rfl⟩
    · constructor
      · intro h
        obtain ⟨e, he, h⟩ := mem_flatMap.mp h
        obtain ⟨⟨packed, id'⟩, hpoint, rfl⟩ := mem_map.mp h
        refine ⟨e.1, ne_nil_of_mem (a := (id', packed)) ?_⟩
        have hget : s.numericFields.fields.get? e.1 = some e.2 := mem_entries.mp he
        rw [numbers, NumericFields.of, hget]
        exact mem_filter.mpr ⟨swap_mem_points.mp hpoint, by simp⟩
      · rintro ⟨x, hx⟩
        rw [numbers, NumericFields.of] at hx
        cases hget : s.numericFields.fields.get? x with
        | none => simp [hget] at hx
        | some f =>
          rw [hget] at hx
          obtain ⟨⟨id', packed⟩, he⟩ := exists_mem_of_ne_nil _ hx
          obtain ⟨hmem, hid⟩ := mem_filter.mp he
          obtain rfl : id' = id := of_decide_eq_true hid
          exact mem_flatMap.mpr ⟨(x, f), mem_entries.mpr hget,
            mem_map.mpr ⟨(packed, id'), swap_mem_points.mpr hmem, rfl⟩⟩
  obtain ⟨hnone, hwithin⟩ := within_foldl_extendRange ((s.docLengths.entries.map fun e => (ofLex e.1).1) ++
      (s.numericFields.fields.entries.flatMap fun e => e.2.bkd.points.map Prod.snd)) d
  rw [computeDocIdRange]
  simp only [hids] at hwithin
  refine ⟨hnone.trans ?_, hwithin⟩
  rw [eq_nil_iff_forall_not_mem]
  exact forall_congr' fun id => not_congr (hids id)

end Segment

/-! ### Freezing tables -/

namespace Table

open MemIndex List SortedMap Option

def frozen (tables : List Table) : Segment := freezeShared (tables.map table)

def allDocs (tables : List Table) : List AnalyzedDocument := tables.flatMap docs

theorem docLengths_frozen (generations : List MemIndex) (key : LengthKey) :
    (freezeShared generations).docLengths.get? key ≠ none ↔
      ∃ g ∈ generations, g.docLengths.get? key ≠ none := by
  refine ⟨docLengths_freezeShared, ?_⟩
  change _ → (frozenLengths generations).get? key ≠ none
  induction generations using reverseRecOn with
  | nil => simp
  | append_singleton gs g ih =>
    have hstep : frozenLengths (gs ++ [g]) =
        (frozenLengths gs).mergeWith (fun _ len => len) g.docLengths := by
      rw [frozenLengths, foldl_append]
      rfl
    rintro ⟨g', hg', hkey⟩
    rw [hstep, get?_mergeWith]
    cases hlen : g.docLengths.get? key with
    | some len => simp
    | none =>
      rcases mem_append.mp hg' with hg' | hg'
      · exact ih ⟨g', hg', hkey⟩
      · rw [mem_singleton.mp hg', hlen] at hkey
        exact absurd rfl hkey

theorem terms_frozen (generations : List MemIndex) (key : TermKey) :
    (freezeShared generations).terms.get? key ≠ none ↔
      ∃ g ∈ generations, g.terms.get? key ≠ none := by
  change (frozenTerms generations).get? key ≠ none ↔ _
  induction generations using reverseRecOn with
  | nil => simp [frozenTerms, empty, get?]
  | append_singleton gs g ih =>
    have hstep : frozenTerms (gs ++ [g]) =
        (frozenTerms gs).mergeWith appendList g.terms := by
      rw [frozenTerms, foldl_append]
      rfl
    rw [hstep, get?_mergeWith]
    simp only [mem_append, mem_singleton, or_and_right, exists_or, exists_eq_left, ← ih]
    cases g.terms.get? key <;> simp

theorem points_frozen (generations : List MemIndex) (x : XPathId) :
    (freezeShared generations).numericFields.fields.get? x ≠ none ↔
      ∃ g ∈ generations, g.numericPoints.points.get? x ≠ none := by
  change ((frozenPoints generations).points.map NumericField.ofPoints).get? x ≠ none ↔ _
  rw [get?_map, ne_eq, map_eq_none_iff]
  induction generations using reverseRecOn with
  | nil => simp [frozenPoints, NumericPoints.empty, empty, get?]
  | append_singleton gs g ih =>
    have hstep : frozenPoints (gs ++ [g]) = (frozenPoints gs).merge g.numericPoints := by
      rw [frozenPoints, foldl_append]
      rfl
    rw [hstep, NumericPoints.merge, get?_mergeWith]
    simp only [mem_append, mem_singleton, or_and_right, exists_or, exists_eq_left, ← ih]
    cases g.numericPoints.points.get? x <;> simp

theorem ranged_frozen (tables : List Table) (id : DocId) :
    (frozen tables).Ranged id ↔ RangedIn (allDocs tables) id := by
  have htable : (frozen tables).Ranged id ↔ ∃ t ∈ tables, t.table.Ranged id := by
    have hnumbers : ∀ x, (frozen tables).numbers x id ≠ [] ↔ ∃ t ∈ tables, t.table.numbers x id ≠ [] := by
      intro x
      rw [frozen, numbers_freezeShared]
      simp
    have hlengths : ∀ x, (frozen tables).docLengths.get? (toLex (id, x)) ≠ none ↔
        ∃ t ∈ tables, t.table.docLengths.get? (toLex (id, x)) ≠ none := by
      intro x
      rw [frozen, docLengths_frozen]
      simp
    simp only [Segment.Ranged, Ranged, hnumbers, hlengths]
    constructor
    · rintro (⟨x, t, ht, h⟩ | ⟨x, t, ht, h⟩)
      · exact ⟨t, ht, .inl ⟨x, h⟩⟩
      · exact ⟨t, ht, .inr ⟨x, h⟩⟩
    · rintro ⟨t, ht, ⟨x, h⟩ | ⟨x, h⟩⟩
      · exact .inl ⟨x, t, ht, h⟩
      · exact .inr ⟨x, t, ht, h⟩
  rw [htable, RangedIn, allDocs]
  constructor
  · rintro ⟨t, ht, h⟩
    obtain ⟨doc, hdoc, target, htarget, h⟩ := (t.indexed.ranged_iff id).mp h
    exact ⟨doc, mem_flatMap.mpr ⟨t, ht, hdoc⟩, target, htarget, h⟩
  · rintro ⟨doc, hdoc, target, htarget, h⟩
    obtain ⟨t, ht, hdoc⟩ := mem_flatMap.mp hdoc
    exact ⟨t, ht, (t.indexed.ranged_iff id).mpr ⟨doc, hdoc, target, htarget, h⟩⟩

theorem kept_frozen (tables : List Table) :
    ((frozen tables).terms.size = 0 ∧ (frozen tables).numericFields.fields.size = 0) ↔
      ¬KeptIn (allDocs tables) := by
  have hempty : ∀ {K V : Type} [LinearOrder K] (m : SortedMap K V), m.size = 0 ↔ ¬∃ k, m.get? k ≠ none := by
    intro K V _ m
    rw [size, length_eq_zero_iff, eq_nil_iff_forall_not_mem]
    constructor
    · rintro h ⟨k, hk⟩
      obtain ⟨v, hv⟩ := ne_none_iff_exists'.mp hk
      exact h (k, v) (mem_entries.mpr hv)
    · rintro h ⟨k, v⟩ he
      exact h ⟨k, by rw [mem_entries.mp he]; simp⟩
  have hterms : (∃ k, (frozen tables).terms.get? k ≠ none) ↔ ∃ t ∈ tables, t.table.HasTerm := by
    simp only [frozen, terms_frozen, HasTerm]
    constructor
    · rintro ⟨k, g, hg, hk⟩
      obtain ⟨t, ht, rfl⟩ := mem_map.mp hg
      exact ⟨t, ht, k, hk⟩
    · rintro ⟨t, ht, k, hk⟩
      exact ⟨k, t.table, mem_map_of_mem ht, hk⟩
  have hnumbers : (∃ x, (frozen tables).numericFields.fields.get? x ≠ none) ↔
      ∃ t ∈ tables, t.table.HasNumber := by
    simp only [frozen, points_frozen, HasNumber]
    constructor
    · rintro ⟨x, g, hg, hx⟩
      obtain ⟨t, ht, rfl⟩ := mem_map.mp hg
      exact ⟨t, ht, x, hx⟩
    · rintro ⟨t, ht, x, hx⟩
      exact ⟨x, t.table, mem_map_of_mem ht, hx⟩
  rw [hempty, hempty, ← not_or, hterms, hnumbers]
  refine not_congr ?_
  simp only [fun t : Table => t.indexed.hasTerm_iff, fun t : Table => t.indexed.hasNumber_iff, KeptIn,
    AnalyzedTarget.Kept]
  constructor
  · rintro (⟨t, ht, doc, hdoc, target, htarget, h⟩ | ⟨t, ht, doc, hdoc, target, htarget, h⟩)
    · exact ⟨doc, mem_flatMap.mpr ⟨t, ht, hdoc⟩, target, htarget, .inl h⟩
    · exact ⟨doc, mem_flatMap.mpr ⟨t, ht, hdoc⟩, target, htarget, .inr h⟩
  · rintro ⟨doc, hdoc, target, htarget, h⟩
    obtain ⟨t, ht, hdoc⟩ := mem_flatMap.mp hdoc
    rcases h with h | h
    · exact .inl ⟨t, ht, doc, hdoc, target, htarget, h⟩
    · exact .inr ⟨t, ht, doc, hdoc, target, htarget, h⟩

theorem docIdRange_frozen (tables : List Table) (d : DocId) :
    ((frozen tables).docIdRange = none ↔ ∀ id, ¬RangedIn (allDocs tables) id) ∧
      (Within (frozen tables).docIdRange d ↔ (∃ id, RangedIn (allDocs tables) id ∧ id ≤ d) ∧
        ∃ id, RangedIn (allDocs tables) id ∧ d ≤ id) := by
  obtain ⟨hnone, hwithin⟩ := Segment.within_computeDocIdRange (frozen tables) d
  simp only [ranged_frozen] at hnone hwithin
  exact ⟨hnone, hwithin⟩

theorem ranged_of_kept {docs : List AnalyzedDocument} (h : KeptIn docs) : ∃ id, RangedIn docs id := by
  obtain ⟨doc, hdoc, target, htarget, hkept⟩ := h
  refine ⟨target.1, doc, hdoc, target, htarget, rfl, ?_⟩
  rcases hkept with ⟨field, hfield, -⟩ | hnumber
  · exact .inl (ne_nil_of_mem hfield)
  · exact .inr hnumber

theorem docIdRange_openWritten (tables : List Table) : (frozen tables).openWritten.docIdRange =
    if (frozen tables).terms.size = 0 ∧ (frozen tables).numericFields.fields.size = 0 then none
    else (frozen tables).docIdRange := by
  change (if (frozen tables).terms.size = 0 ∧ (frozen tables).numericFields.fields.size = 0 then none
    else some (((frozen tables).docIdRange.getD (0, 0)).1, ((frozen tables).docIdRange.getD (0, 0)).2)) = _
  split_ifs with hempty
  · rfl
  · -- what is kept is in the range
    have hne : (frozen tables).docIdRange ≠ none := fun hnone => by
      rw [kept_frozen, not_not] at hempty
      obtain ⟨id, hid⟩ := ranged_of_kept hempty
      exact (docIdRange_frozen tables id).1.mp hnone id hid
    obtain ⟨range, hrange⟩ := ne_none_iff_exists'.mp hne
    rw [hrange]
    rfl

theorem docIdRange_iff (tables : List Table) :
    ((frozen tables).openWritten.docIdRange = (frozen tables).docIdRange ∧
      ∀ doc ∈ allDocs tables, Within (frozen tables).openWritten.docIdRange doc.docId) ↔
    Spanned (allDocs tables) := by
  rw [docIdRange_openWritten]
  constructor
  · rintro ⟨heq, hall⟩
    rw [heq] at hall
    refine ⟨fun hne => ?_, fun doc hdoc => (docIdRange_frozen tables doc.docId).2.mp (hall doc hdoc)⟩
    by_contra hkept
    rw [if_pos ((kept_frozen tables).mpr hkept)] at heq
    obtain ⟨doc, hdoc⟩ := exists_mem_of_ne_nil _ hne
    obtain ⟨lo, hi, hrange, -⟩ := hall doc hdoc
    exact absurd (heq.trans hrange) (by simp)
  · rintro ⟨hkept, hall⟩
    have heq : (if (frozen tables).terms.size = 0 ∧ (frozen tables).numericFields.fields.size = 0 then none
        else (frozen tables).docIdRange) = (frozen tables).docIdRange := by
      split_ifs with hempty
      · -- only without documents does the reader drop the range
        have hnil : allDocs tables = [] := by
          by_contra hne
          exact (kept_frozen tables).mp hempty (hkept hne)
        refine ((docIdRange_frozen tables 0).1.mpr ?_).symm
        rintro id ⟨doc, hdoc, -⟩
        rw [hnil] at hdoc
        exact absurd hdoc not_mem_nil
      · rfl
    rw [heq]
    exact ⟨rfl, fun doc hdoc => (docIdRange_frozen tables doc.docId).2.mpr (hall doc hdoc)⟩

end Table

def LsmIndex.nextBehind (n : DocId) : Option (DocId × DocId) → DocId
  | some (_, hi) => max n (hi + 1)
  | none => n

theorem LsmIndex.le_nextBehind (n : DocId) (range : Option (DocId × DocId)) : n ≤ nextBehind n range := by
  cases range with
  | none => exact le_rfl
  | some range => exact le_max_left _ _

theorem LsmIndex.lt_foldl_nextBehind {e : ℕ × Segment} {lo hi : DocId} (hrange : e.2.docIdRange = some (lo, hi))
    (l : List (ℕ × Segment)) (n : DocId) :
    n ≤ l.foldl (fun n e => nextBehind n e.2.docIdRange) n ∧
      (e ∈ l → hi + 1 ≤ l.foldl (fun n e => nextBehind n e.2.docIdRange) n) := by
  induction l generalizing n with
  | nil => exact ⟨le_rfl, fun h => absurd h List.not_mem_nil⟩
  | cons e' l ih =>
    rw [List.foldl_cons]
    refine ⟨(le_nextBehind n _).trans (ih _).1, fun hmem => ?_⟩
    rcases List.mem_cons.mp hmem with rfl | hmem
    · refine le_trans ?_ (ih _).1
      rw [hrange]
      exact le_max_right _ _
    · exact (ih _).2 hmem

theorem LsmIndex.le_highestKnownDocId {manifest : List (ℕ × Segment)} {deleted : DeleteSet} {d : DocId}
    (h : d ∈ deleted ∨ ∃ e ∈ manifest, Within e.2.docIdRange d) :
    d ≤ (LsmIndex.persistent manifest deleted).highestKnownDocId := by
  rw [highestKnownDocId]
  rcases h with hd | ⟨e, he, lo, hi, hrange, -, hle⟩
  · exact (Finset.le_sup (f := id) hd).trans (le_max_right _ _)
  · have hnext : hi + 1 ≤ (LsmIndex.persistent manifest deleted).nextDocId :=
      (lt_foldl_nextBehind hrange manifest 0).2 he
    refine le_trans ?_ (le_max_left _ _)
    exact hle.trans (Nat.le_sub_one_of_lt hnext)

/-- Every segment read back has its range, which holds all its documents, and the highest known id
after a restart is no lower than any of them or any deleted one, exactly when the documents of
every segment are spanned by text and numbers. -/
theorem Table.reopened_range_iff (segments : List (ℕ × List Table)) (deleted : DeleteSet) :
    ((∀ e ∈ segments, (frozen e.2).openWritten.docIdRange = (frozen e.2).docIdRange ∧
        ∀ doc ∈ allDocs e.2, Within (frozen e.2).openWritten.docIdRange doc.docId) ∧
      ∀ d, (d ∈ deleted ∨ ∃ e ∈ segments, ∃ doc ∈ allDocs e.2, doc.docId = d) →
        d ≤ (LsmIndex.persistent (segments.map fun e => (e.1, (frozen e.2).openWritten))
          deleted).highestKnownDocId) ↔
    ∀ e ∈ segments, Spanned (allDocs e.2) := by
  constructor
  · rintro ⟨hranges, -⟩ e he
    exact (docIdRange_iff e.2).mp (hranges e he)
  · intro h
    refine ⟨fun e he => (docIdRange_iff e.2).mpr (h e he), fun d hd => LsmIndex.le_highestKnownDocId ?_⟩
    rcases hd with hd | ⟨e, he, doc, hdoc, rfl⟩
    · exact .inl hd
    · exact .inr ⟨_, List.mem_map_of_mem he, ((docIdRange_iff e.2).mpr (h e he)).2 doc hdoc⟩

def Table.ofDocument (doc : AnalyzedDocument) : Table := ⟨_, _, MemIndex.Indexed.new.add doc⟩

/-- Document 5 with a boolean and nothing else, and document 5 with an empty text: the first is in
no range, also not after a restart, and the reader drops the range of the second. -/
theorem Table.reopened_range_bool :
    let bool := [Table.ofDocument ⟨5, ⟨[], [], [⟨1, true⟩]⟩, []⟩]
    let empty := [Table.ofDocument ⟨5, ⟨[⟨1, 0, []⟩], [], []⟩, []⟩]
    ((frozen bool).docIdRange = none ∧ (frozen bool).openWritten.docIdRange = none ∧
      (LsmIndex.persistent [(0, (frozen bool).openWritten)] ∅).highestKnownDocId = 0) ∧
    (frozen empty).docIdRange = some (5, 5) ∧ (frozen empty).openWritten.docIdRange = none := by
  decide +kernel
