/-
The ids a part of an index spans.

A table reports the first and the last document it was given, a segment the
first and the last id it has text or numbers under, array rows included.
-/
import Riets.CompactionMeaning
import Riets.DocRange
import Riets.LsmMoves
import Riets.LsmRun

open List SortedMap PostingList

def Between (P : DocId → Prop) (d : DocId) : Prop := (∃ a, P a ∧ a ≤ d) ∧ ∃ b, P b ∧ d ≤ b

namespace Between

variable {P Q : DocId → Prop} {d : DocId}

theorem of_self (h : P d) : Between P d := ⟨⟨d, h, le_rfl⟩, d, h, le_rfl⟩

theorem trans (h : Between P d) (hle : ∀ a, P a → Between Q a) : Between Q d := by
  obtain ⟨⟨a, ha, had⟩, b, hb, hdb⟩ := h
  obtain ⟨⟨a', ha', hle'⟩, -⟩ := hle a ha
  obtain ⟨-, b', hb', hge'⟩ := hle b hb
  exact ⟨⟨a', ha', hle'.trans had⟩, b', hb', hdb.trans hge'⟩

theorem mono (h : Between P d) (hle : ∀ a, P a → Q a) : Between Q d :=
  h.trans fun a ha => of_self (hle a ha)

end Between

/-- A term that occurs, or a number: what a document is found in a range by for good. -/
def AnalyzedTarget.Filed (t : AnalyzedTarget) : Prop :=
  (∃ field ∈ t.fields, ∃ term ∈ field.terms, term.positions ≠ []) ∨ t.numericPoints ≠ []

namespace MemIndex

open List

def Files (m : MemIndex) (d : DocId) : Prop := (∃ k, m.posting k d ≠ none) ∨ ∃ x, m.numbers x d ≠ []

def Ends (m : MemIndex) (id : DocId) : Prop := m.minDocId = some id ∨ m.maxDocId = some id

def Fits (m : MemIndex) : Prop := ∀ key, m.docLengths.get? key ≠ some u32Max

theorem files_addPostingWeighted (m : MemIndex) (term : String) (x : XPathId) (id d : DocId)
    (positions : List ℕ) (weight : ℕ) :
    (m.addPostingWeighted term x id positions weight).Files d ↔
      m.Files d ∨ (id = d ∧ positions ≠ []) := by
  have hkey : (∃ k, (m.addPostingWeighted term x id positions weight).posting k d ≠ none) ↔
      (∃ k, m.posting k d ≠ none) ∨ (id = d ∧ positions ≠ []) := by
    simp only [posting_addPostingWeighted, addOccurrences]
    constructor
    · rintro ⟨k, hk⟩
      split_ifs at hk with hsame hnil
      · exact .inl ⟨k, hk⟩
      · exact .inr ⟨hsame.2.symm, hnil⟩
      · exact .inl ⟨k, hk⟩
    · rintro (⟨k, hk⟩ | ⟨rfl, hne⟩)
      · refine ⟨k, ?_⟩
        split_ifs
        · exact hk
        · cases m.posting k d <;> simp
        · exact hk
      · refine ⟨⟨x, term⟩, ?_⟩
        rw [if_pos ⟨rfl, rfl⟩, if_neg hne]
        cases m.posting ⟨x, term⟩ id <;> simp
  have hnumber : (∃ y, (m.addPostingWeighted term x id positions weight).numbers y d ≠ []) ↔
      ∃ y, m.numbers y d ≠ [] := Iff.rfl
  rw [Files, hkey, hnumber, Files, or_right_comm]

theorem files_applyTarget (m : MemIndex) (id d : DocId) (t : AnalyzedTarget) :
    (m.applyTarget id t).Files d ↔ m.Files d ∨ (id = d ∧ t.Filed) := by
  have hfield : ∀ (m : MemIndex) (f : AnalyzedField), (m.applyField id f).Files d ↔
      m.Files d ∨ ∃ w ∈ f.terms, id = d ∧ w.positions ≠ [] := by
    intro m f
    rw [applyField, foldl_iff (V := fun m => m.Files d)
      fun m (w : AnalyzedTerm) => files_addPostingWeighted m w.term f.xpath id d w.positions w.weight]
    rfl
  have hnumber : ∀ (m : MemIndex) (p : NumericPoint),
      (m.addNumber id p).Files d ↔ m.Files d ∨ id = d := by
    intro m p
    have hkey : (∃ x, (m.addNumber id p).numbers x d ≠ []) ↔ (∃ x, m.numbers x d ≠ []) ∨ id = d := by
      simp only [addNumber, numbers, NumericPoints.of_insert]
      constructor
      · rintro ⟨x, hx⟩
        split_ifs at hx with heq
        · exact .inr heq.2
        · exact .inl ⟨x, by simpa using hx⟩
      · rintro (⟨x, hx⟩ | rfl)
        · exact ⟨x, fun hnil => hx (append_eq_nil_iff.mp hnil).1⟩
        · exact ⟨p.xpath, by simp⟩
    have hpost : (∃ k, (m.addNumber id p).posting k d ≠ none) ↔ ∃ k, m.posting k d ≠ none := Iff.rfl
    rw [Files, hkey, hpost, Files, or_assoc]
  have hbool : ∀ (m : MemIndex) (p : BoolPoint), (m.addBool id p).Files d ↔ m.Files d ∨ False :=
    fun m p => (or_false (m.Files d)).symm ▸ Iff.rfl
  rw [applyTarget, foldl_iff (V := fun m => m.Files d) hbool, foldl_iff (V := fun m => m.Files d) hnumber,
    foldl_iff (V := fun m => m.Files d) hfield]
  simp only [and_false, exists_false, or_false, AnalyzedTarget.Filed, or_assoc]
  refine or_congr Iff.rfl ?_
  cases t.numericPoints with
  | nil => simp; tauto
  | cons p ps => simp; tauto

theorem files_mergeFrom (m n : MemIndex) (d : DocId) :
    (m.mergeFrom n).Files d ↔ m.Files d ∨ n.Files d := by
  have hpost : ∀ k, (m.mergeFrom n).posting k d ≠ none ↔ m.posting k d ≠ none ∨ n.posting k d ≠ none := by
    intro k
    rw [posting_mergeFrom]
    cases m.posting k d <;> cases n.posting k d <;> simp [join]
  have hnumber : ∀ x, (m.mergeFrom n).numbers x d ≠ [] ↔ m.numbers x d ≠ [] ∨ n.numbers x d ≠ [] := by
    intro x
    rw [numbers_mergeFrom, ne_eq, append_eq_nil_iff, not_and_or]
  simp only [Files, hpost, hnumber, exists_or]
  exact or_or_or_comm

variable {m : MemIndex}

theorem Indexed.files_iff {docs : List AnalyzedDocument} (h : Indexed m docs) (d : DocId) :
    m.Files d ↔ ∃ doc ∈ docs, ∃ target ∈ doc.targets, target.1 = d ∧ target.2.Filed := by
  refine h.has_iff (V := fun m => m.Files d) (P := fun target => target.1 = d ∧ target.2.Filed) ?_
    (fun m id t => m.files_applyTarget id d t) (fun _ _ => Iff.rfl) (fun _ _ => Iff.rfl)
    fun m n => m.files_mergeFrom n d
  rintro (⟨k, hk⟩ | ⟨x, hx⟩)
  · exact hk rfl
  · exact hx rfl

/-! ### What a table is tracked by -/

theorem within_docIdRange {d : DocId} :
    Within m.docIdRange d ↔ (∃ lo, m.minDocId = some lo ∧ lo ≤ d) ∧ ∃ hi, m.maxDocId = some hi ∧ d ≤ hi := by
  rw [docIdRange]
  cases m.minDocId <;> cases m.maxDocId <;> simp [Within]

theorem within_trackDocId (m : MemIndex) (id d : DocId) :
    (Within m.docIdRange d → Within (m.trackDocId id).docIdRange d) ∧
      Within (m.trackDocId id).docIdRange id := by
  simp only [within_docIdRange, trackDocId, Option.some_inj, exists_eq_left']
  constructor
  · rintro ⟨⟨lo, hlo, hle⟩, hi, hhi, hge⟩
    rw [hlo, hhi]
    exact ⟨(min_le_left lo id).trans hle, hge.trans (le_max_left hi id)⟩
  · cases m.minDocId <;> cases m.maxDocId <;> simp

theorem within_trackBoth (m : MemIndex) {lo hi d : DocId} (hlo : lo ≤ d) (hhi : d ≤ hi) :
    Within ((m.trackDocId lo).trackDocId hi).docIdRange d := by
  obtain ⟨⟨a, ha, hale⟩, -⟩ :=
    within_docIdRange.mp ((within_trackDocId (m.trackDocId lo) hi lo).1 (within_trackDocId m lo lo).2)
  obtain ⟨-, b, hb, hble⟩ := within_docIdRange.mp (within_trackDocId (m.trackDocId lo) hi hi).2
  exact within_docIdRange.mpr ⟨⟨a, ha, hale.trans hlo⟩, b, hb, hhi.trans hble⟩

theorem ends_trackDocId {id e : DocId} (h : (m.trackDocId id).Ends e) : m.Ends e ∨ e = id := by
  rcases h with h | h
  · cases hlo : m.minDocId with
    | none => exact .inr (by simpa [trackDocId, hlo] using h.symm)
    | some lo =>
      obtain rfl : min lo id = e := by simpa [trackDocId, hlo] using h
      rcases min_choice lo id with hmin | hmin
      · exact .inl (.inl (hlo.trans (congrArg some hmin.symm)))
      · exact .inr hmin
  · cases hhi : m.maxDocId with
    | none => exact .inr (by simpa [trackDocId, hhi] using h.symm)
    | some hi =>
      obtain rfl : max hi id = e := by simpa [trackDocId, hhi] using h
      rcases max_choice hi id with hmax | hmax
      · exact .inl (.inr (hhi.trans (congrArg some hmax.symm)))
      · exact .inr hmax

variable {n : MemIndex}

theorem within_mergeFrom {d : DocId} (h : Within m.docIdRange d ∨ Within n.docIdRange d) :
    Within (m.mergeFrom n).docIdRange d := by
  rw [mergeFrom]
  cases hn : n.docIdRange with
  | none =>
    rcases h with h | h
    · exact h
    · rw [hn] at h
      simp [Within] at h
  | some range =>
    obtain ⟨lo, hi⟩ := range
    simp only
    rcases h with h | h
    · exact (within_trackDocId _ hi d).1 ((within_trackDocId _ lo d).1 h)
    · obtain ⟨lo', hi', heq, hlo, hhi⟩ := h
      obtain ⟨rfl, rfl⟩ := Prod.mk.inj (Option.some_inj.mp (hn.symm.trans heq))
      exact within_trackBoth _ hlo hhi

theorem ends_mergeFrom {e : DocId} (h : (m.mergeFrom n).Ends e) : m.Ends e ∨ n.Ends e := by
  rw [mergeFrom] at h
  cases hn : n.docIdRange with
  | none =>
    rw [hn] at h
    exact .inl h
  | some range =>
    obtain ⟨lo, hi⟩ := range
    rw [hn] at h
    have hends : n.minDocId = some lo ∧ n.maxDocId = some hi := by
      rw [docIdRange] at hn
      cases hlo : n.minDocId <;> cases hhi : n.maxDocId <;> simp_all
    rcases ends_trackDocId h with h | rfl
    · rcases ends_trackDocId h with h | rfl
      · exact .inl h
      · exact .inr (.inl hends.1)
    · exact .inr (.inr hends.2)

def SameRange (m n : MemIndex) : Prop := n.minDocId = m.minDocId ∧ n.maxDocId = m.maxDocId

theorem sameRange_applyTarget (id : DocId) (t : AnalyzedTarget) (h : m.SameRange n) :
    m.SameRange (n.applyTarget id t) := by
  have hfield : ∀ (n : MemIndex) field, m.SameRange n → m.SameRange (n.applyField id field) := by
    intro n field hn
    unfold applyField
    refine foldl_keeps (P := m.SameRange) ?_ _ hn
    exact fun _ _ h => h
  unfold applyTarget
  refine foldl_keeps (P := m.SameRange) ?_ _ (foldl_keeps (P := m.SameRange) ?_ _ (foldl_keeps hfield _ h))
  · exact fun _ _ h => h
  · exact fun _ _ h => h

theorem sameRange_addAnalyzedDocument (m : MemIndex) (doc : AnalyzedDocument) :
    (m.trackDocId doc.docId).SameRange (m.addAnalyzedDocument doc) := by
  unfold addAnalyzedDocument
  refine foldl_keeps ?_ _ (sameRange_applyTarget _ _ ⟨rfl, rfl⟩)
  exact fun n row hn => sameRange_applyTarget row.arrayRowId row.target hn

theorem range_ofDocuments (docs : List AnalyzedDocument) :
    (∀ e, (ofDocuments docs).Ends e → ∃ doc ∈ docs, doc.docId = e) ∧
      ∀ doc ∈ docs, Within (ofDocuments docs).docIdRange doc.docId := by
  induction docs using reverseRecOn with
  | nil =>
    refine ⟨fun e he => ?_, by simp⟩
    rcases he with he | he
    · cases he
    · cases he
  | append_singleton docs doc ih =>
    obtain ⟨hends, hwithin⟩ := ih
    have hstep : ofDocuments (docs ++ [doc]) = (ofDocuments docs).addAnalyzedDocument doc := by
      rw [ofDocuments, foldl_append]
      rfl
    obtain ⟨hmin, hmax⟩ := sameRange_addAnalyzedDocument (ofDocuments docs) doc
    have hrange : ((ofDocuments docs).addAnalyzedDocument doc).docIdRange =
        ((ofDocuments docs).trackDocId doc.docId).docIdRange := by rw [docIdRange, hmin, hmax, docIdRange]
    rw [hstep, hrange]
    constructor
    · intro e he
      rw [Ends, hmin, hmax] at he
      rcases ends_trackDocId he with he | rfl
      · obtain ⟨doc', hdoc', heq⟩ := hends e he
        exact ⟨doc', by simp [hdoc'], heq⟩
      · exact ⟨doc, by simp, rfl⟩
    · intro doc' hdoc'
      rcases mem_append.mp hdoc' with hdoc' | hdoc'
      · exact (within_trackDocId _ _ _).1 (hwithin doc' hdoc')
      · rw [mem_singleton.mp hdoc']
        exact (within_trackDocId _ _ 0).2

theorem fits_applyTarget (id : DocId) {t : AnalyzedTarget} (hm : m.Fits)
    (ht : ∀ field ∈ t.fields, field.docLen ≠ u32Max) : (m.applyTarget id t).Fits := by
  have hfield : ∀ m : MemIndex, m.Fits → ∀ field ∈ t.fields, (m.applyField id field).Fits := by
    intro m hm field hmem
    unfold applyField
    refine foldl_keeps (P := Fits) ?_ _ fun key => ?_
    · exact fun _ _ h => h
    · simp only [get?_insert]
      split_ifs
      · exact fun h => ht field hmem (Option.some_inj.mp h)
      · exact hm key
  unfold applyTarget
  refine foldl_keeps (P := Fits) ?_ _ (foldl_keeps (P := Fits) ?_ _ ?_)
  · exact fun _ _ h => h
  · exact fun _ _ h => h
  · exact foldlRecOn t.fields _ hm hfield

theorem fits_ofDocuments {docs : List AnalyzedDocument}
    (h : ∀ doc ∈ docs, ∀ target ∈ doc.targets, ∀ field ∈ target.2.fields, field.docLen ≠ u32Max) :
    (ofDocuments docs).Fits := by
  refine foldlRecOn docs _ (fun key h => by cases h) fun m hm doc hdoc => ?_
  refine foldlRecOn doc.arrayRows _ ?_ fun m hm row hrow => ?_
  · exact fits_applyTarget _ hm (h doc hdoc (doc.docId, doc.main) mem_cons_self)
  · exact fits_applyTarget _ hm
      (h doc hdoc (row.arrayRowId, row.target) (mem_cons_of_mem _ (mem_map_of_mem hrow)))

end MemIndex

/-! ### Segments -/

theorem foldl_or_eq {α β : Type*} (f : α → Option β) (l : List α) (o : Option β) :
    l.foldl (fun o a => (f a).or o) o = (l.reverse.findSome? f).or o := by
  induction l generalizing o with
  | nil => simp
  | cons a l ih =>
    rw [foldl_cons, ih, reverse_cons, findSome?_append, Option.or_assoc]
    congr 1
    cases h : f a <;> simp [h]

theorem foldl_or_spec {α β : Type*} (f : α → Option β) (l : List α) :
    (∀ b, l.foldl (fun o a => (f a).or o) none = some b → ∃ a ∈ l, f a = some b) ∧
      (l.foldl (fun o a => (f a).or o) none ≠ none ↔ ∃ a ∈ l, f a ≠ none) := by
  rw [foldl_or_eq, Option.or_none]
  constructor
  · intro b hb
    obtain ⟨a, ha, hab⟩ := exists_of_findSome?_eq_some hb
    exact ⟨a, mem_reverse.mp ha, hab⟩
  · rw [ne_eq, findSome?_eq_none_iff]
    simp

namespace Segment

open Option

variable {s : Segment} {d : DocId}

def Files (s : Segment) (d : DocId) : Prop := (∃ k, s.posting k d ≠ none) ∨ ∃ x, s.numbers x d ≠ []

def HasEntry (s : Segment) : Prop :=
  (∃ k, s.terms.get? k ≠ none) ∨ ∃ x, s.numericFields.fields.get? x ≠ none

def Ends (s : Segment) (id : DocId) : Prop :=
  ∃ lo hi, s.docIdRange = some (lo, hi) ∧ (id = lo ∨ id = hi)

theorem hasEntry_of_files (h : s.Files d) : s.HasEntry := by
  rcases h with ⟨k, hk⟩ | ⟨x, hx⟩
  · refine .inl ⟨k, fun hnone => hk ?_⟩
    rw [posting, hnone]
    rfl
  · refine .inr ⟨x, fun hnone => hx ?_⟩
    rw [numbers, NumericFields.of, hnone]
    rfl

theorem range_computed (h : s.docIdRange = computeDocIdRange s.docLengths s.numericFields) :
    (∀ id, s.Ends id → s.Ranged id) ∧ ∀ id, s.Ranged id → Within s.docIdRange id := by
  have hwithin : ∀ id, Within s.docIdRange id ↔ (∃ a, s.Ranged a ∧ a ≤ id) ∧ ∃ b, s.Ranged b ∧ id ≤ b := by
    intro id
    rw [h]
    exact (s.within_computeDocIdRange id).2
  have hall : ∀ id, s.Ranged id → Within s.docIdRange id := fun id hid =>
    (hwithin id).mpr ⟨⟨id, hid, le_rfl⟩, id, hid, le_rfl⟩
  refine ⟨?_, hall⟩
  rintro id ⟨lo, hi, hrange, hend⟩
  have hle : lo ≤ hi := by
    cases hs : s.docIdRange with
    | none => simp [hs] at hrange
    | some range =>
      obtain ⟨a, ha, -⟩ : ∃ a, s.Ranged a ∧ True := by
        by_contra hno
        have hnone := (s.within_computeDocIdRange 0).1.mpr fun a ha => hno ⟨a, ha, trivial⟩
        rw [← h, hs] at hnone
        cases hnone
      obtain ⟨lo', hi', heq, hlo, hhi⟩ := hall a ha
      obtain ⟨rfl, rfl⟩ := Prod.mk.inj (some_inj.mp (hrange.symm.trans heq))
      exact hlo.trans hhi
  -- an end is within the range, and what bounds it there is in the range too
  have hbound : ∀ a, s.Ranged a → lo ≤ a ∧ a ≤ hi := by
    intro a ha
    obtain ⟨lo', hi', heq, hbounds⟩ := hall a ha
    obtain ⟨rfl, rfl⟩ := Prod.mk.inj (some_inj.mp (hrange.symm.trans heq))
    exact hbounds
  rcases hend with rfl | rfl
  · obtain ⟨⟨a, ha, hale⟩, -⟩ := (hwithin id).mp ⟨id, hi, hrange, le_rfl, hle⟩
    rwa [← le_antisymm hale (hbound a ha).1]
  · obtain ⟨-, b, hb, hble⟩ := (hwithin id).mp ⟨lo, id, hrange, hle, le_rfl⟩
    rwa [le_antisymm hble (hbound b hb).2]

theorem size_eq_zero_iff {K V : Type*} [LinearOrder K] (m : SortedMap K V) :
    m.size = 0 ↔ ∀ k, m.get? k = none := by
  rw [size, length_eq_zero_iff, eq_nil_iff_forall_not_mem]
  constructor
  · intro h k
    by_contra hne
    obtain ⟨v, hv⟩ := ne_none_iff_exists'.mp hne
    exact h (k, v) (mem_entries.mpr hv)
  · rintro h ⟨k, v⟩ he
    rw [mem_entries, h k] at he
    cases he

theorem openLengths_eq {m : SortedMap LengthKey ℕ} (h : ∀ key, m.get? key ≠ some u32Max) :
    openLengths m = m := by
  refine ext_get? fun key => ?_
  have hget := get?_openLengths m (ofLex key).1 (ofLex key).2
  rw [show toLex ((ofLex key).1, (ofLex key).2) = key from rfl] at hget
  rw [hget]
  cases hlen : m.get? key with
  | none => rfl
  | some len =>
    have hne : len ≠ u32Max := fun heq => h key (heq ▸ hlen)
    simp [Option.filter, hne]

theorem range_opened (f : SegmentFile) (hfits : ∀ key, f.docLengths.get? key ≠ some u32Max)
    (hrange : (f.minDocId, f.maxDocId) = (computeDocIdRange f.docLengths f.numericFields).getD (0, 0))
    (hentries : f.open.HasEntry → ∃ id, f.open.Ranged id) :
    (∀ id, f.open.Ends id → f.open.Ranged id) ∧
      ∀ id, f.open.HasEntry → f.open.Ranged id → Within f.open.docIdRange id := by
  have hlengths : f.open.docLengths = f.docLengths := openLengths_eq hfits
  have hempty : (f.terms.size = 0 ∧ f.numericFields.fields.size = 0) ↔ ¬f.open.HasEntry := by
    rw [size_eq_zero_iff, size_eq_zero_iff, HasEntry, not_or, not_exists, not_exists]
    simp only [not_not]
    rfl
  by_cases hentry : f.open.HasEntry
  · -- some id starts a range, so the file keeps the computed one
    have hopened : f.open.docIdRange = computeDocIdRange f.open.docLengths f.open.numericFields := by
      obtain ⟨id, hid⟩ := hentries hentry
      have hne : computeDocIdRange f.open.docLengths f.open.numericFields ≠ none :=
        fun hnone => (f.open.within_computeDocIdRange 0).1.mp hnone id hid
      obtain ⟨range, hcomputed⟩ := ne_none_iff_exists'.mp hne
      have hfile : f.open.docIdRange = some (f.minDocId, f.maxDocId) :=
        if_neg fun h => (hempty.mp h) hentry
      rw [hfile, hrange, ← hlengths]
      change some ((computeDocIdRange f.open.docLengths f.open.numericFields).getD (0, 0)) = _
      rw [hcomputed]
      rfl
    exact ⟨(range_computed hopened).1, fun id _ => (range_computed hopened).2 id⟩
  · have hfile : f.open.docIdRange = none := if_pos (hempty.mpr hentry)
    refine ⟨?_, fun id h => absurd h hentry⟩
    rintro id ⟨lo, hi, heq, -⟩
    rw [hfile] at heq
    cases heq

end Segment

theorem MemIndex.get?_frozenLengths (generations : List MemIndex) (key : LengthKey) :
    (∀ len, (frozenLengths generations).get? key = some len →
      ∃ g ∈ generations, g.docLengths.get? key = some len) ∧
    ((frozenLengths generations).get? key ≠ none ↔ ∃ g ∈ generations, g.docLengths.get? key ≠ none) := by
  have hfold : (frozenLengths generations).get? key =
      generations.foldl (fun o g => (g.docLengths.get? key).or o) none := by
    rw [frozenLengths]
    induction generations using reverseRecOn with
    | nil => rfl
    | append_singleton gs g ih =>
      rw [foldl_append, foldl_append, foldl_cons, foldl_nil, foldl_cons,
        foldl_nil, get?_mergeWith, ih]
      cases g.docLengths.get? key <;> rfl
  rw [hfold]
  exact foldl_or_spec _ _

theorem Compaction.get?_mergedLengths_spec (deleted : DeleteSet) (opened : List Segment) (d : DocId)
    (x : XPathId) :
    (∀ len, (mergedLengths deleted opened).get? (toLex (d, x)) = some len →
      ∃ s ∈ opened, s.docLen d x = some len) ∧
    ((mergedLengths deleted opened).get? (toLex (d, x)) ≠ none ↔
      d ∉ deleted ∧ ∃ s ∈ opened, s.docLen d x ≠ none) := by
  obtain ⟨hsome, hnone⟩ := foldl_or_spec (fun s : Segment => s.docLen d x) opened
  rw [get?_mergedLengths]
  split_ifs with hd
  · simp [hd]
  · exact ⟨hsome, by simpa [hd] using hnone⟩

theorem exists_or_exists_mem {α β γ : Type*} {l : List α} {P : α → β → Prop} {Q : α → γ → Prop} :
    ((∃ k, ∃ a ∈ l, P a k) ∨ ∃ x, ∃ a ∈ l, Q a x) ↔ ∃ a ∈ l, (∃ k, P a k) ∨ ∃ x, Q a x := by
  constructor
  · rintro (⟨k, a, ha, h⟩ | ⟨x, a, ha, h⟩)
    · exact ⟨a, ha, .inl ⟨k, h⟩⟩
    · exact ⟨a, ha, .inr ⟨x, h⟩⟩
  · rintro ⟨a, ha, ⟨k, h⟩ | ⟨x, h⟩⟩
    · exact .inl ⟨k, a, ha, h⟩
    · exact .inr ⟨x, a, ha, h⟩

theorem MemIndex.indexed_ofDocuments (docs : List AnalyzedDocument) :
    (ofDocuments docs).Indexed docs := by
  induction docs using reverseRecOn with
  | nil => exact .new
  | append_singleton docs doc ih =>
    rw [ofDocuments, foldl_append]
    exact ih.add doc

theorem MemIndex.files_freezeShared (generations : List MemIndex) (d : DocId) :
    (freezeShared generations).Files d ↔ ∃ g ∈ generations, g.Files d := by
  have hpost : ∀ k, (freezeShared generations).posting k d ≠ none ↔
      ∃ g ∈ generations, g.posting k d ≠ none := by
    intro k
    rw [posting_freezeShared, joinAll_ne_none]
    simp
  have hnumber : ∀ x, (freezeShared generations).numbers x d ≠ [] ↔
      ∃ g ∈ generations, g.numbers x d ≠ [] := by
    intro x
    rw [numbers_freezeShared]
    simp
  simp only [Segment.Files, Files, hpost, hnumber]
  exact exists_or_exists_mem

theorem MemIndex.ranged_freezeShared (generations : List MemIndex) (d : DocId) :
    (freezeShared generations).Ranged d ↔ ∃ g ∈ generations, g.Ranged d := by
  have hlength : ∀ x, (freezeShared generations).docLengths.get? (toLex (d, x)) ≠ none ↔
      ∃ g ∈ generations, g.docLengths.get? (toLex (d, x)) ≠ none :=
    fun x => (get?_frozenLengths generations (toLex (d, x))).2
  have hnumber : ∀ x, (freezeShared generations).numbers x d ≠ [] ↔
      ∃ g ∈ generations, g.numbers x d ≠ [] := by
    intro x
    rw [numbers_freezeShared]
    simp
  simp only [Segment.Ranged, Ranged, hlength, hnumber]
  exact exists_or_exists_mem

theorem Compaction.files_compacted (deleted : DeleteSet) (opened : List Segment) (d : DocId) :
    (compacted deleted opened).Files d ↔ d ∉ deleted ∧ ∃ s ∈ opened, s.Files d := by
  by_cases hd : d ∈ deleted
  · simp [Segment.Files, posting_compacted, numbers_compacted, hd]
  · have hpost : ∀ k, (compacted deleted opened).posting k d ≠ none ↔ ∃ s ∈ opened, s.posting k d ≠ none := by
      intro k
      rw [posting_compacted, if_neg hd, joinAll_ne_none]
      simp
    have hnumber : ∀ x, (compacted deleted opened).numbers x d ≠ [] ↔ ∃ s ∈ opened, s.numbers x d ≠ [] := by
      intro x
      rw [numbers_compacted, if_neg hd]
      simp
    simp only [Segment.Files, hpost, hnumber, hd, not_false_eq_true, true_and]
    exact exists_or_exists_mem

theorem Compaction.mergedPoints_filled (deleted : DeleteSet) (opened : List Segment) (x : XPathId)
    (h : (mergedPoints deleted opened).points.get? x ≠ none) :
    ∃ d, ((mergedPoints deleted opened).at_ x).of d ≠ [] := by
  obtain ⟨P, hP⟩ : ∃ P : NumericPoints → Prop,
    P = fun n => ∀ x, n.points.get? x ≠ none → ∃ d, (n.at_ x).of d ≠ [] := ⟨_, rfl⟩
  have hinsert : ∀ n y value id, P n → P (n.insert y value id) := by
    intro n y value id hn
    subst hP
    intro x hx
    simp only [NumericPoints.of_insert]
    by_cases hxy : x = y
    · exact ⟨id, by simp [hxy]⟩
    · rw [NumericPoints.insert, get?_upsert, if_neg hxy] at hx
      obtain ⟨d, hd⟩ := hn x hx
      exact ⟨d, fun hnil => hd (append_eq_nil_iff.mp hnil).1⟩
  have hfield : ∀ n y field, P n → P (addField deleted n y field) := by
    intro n y field hn
    refine foldlRecOn field.docValues.entries _ hn fun n hn e _ => ?_
    split_ifs
    · exact hn
    · exact hinsert _ _ _ _ hn
  have hall : P (mergedPoints deleted opened) := by
    refine foldlRecOn opened _ ?_ fun n hn s _ => ?_
    · subst hP
      exact fun x hx => absurd rfl hx
    · exact foldlRecOn s.numericFields.fields.entries _ hn fun n hn e _ => hfield _ _ _ hn
  subst hP
  exact hall x h

theorem Compaction.files_of_hasEntry (deleted : DeleteSet) (opened : List Segment)
    (h : (compacted deleted opened).HasEntry) : ∃ d, (compacted deleted opened).Files d := by
  obtain ⟨file, -, hopened, hterms, -, hnumeric, -⟩ := compacted_spec deleted opened
  rw [hopened] at h ⊢
  rcases h with ⟨k, hk⟩ | ⟨x, hx⟩
  · obtain ⟨list, hlist⟩ := Option.ne_none_iff_exists'.mp hk
    have hmem : (k, list) ∈ file.terms.entries := mem_entries.mpr hlist
    rw [hterms, mergedTerms_eq deleted le_rfl] at hmem
    obtain ⟨group, -, hemit⟩ := mem_filterMap.mp hmem
    have hne : list.items ≠ [] := by
      simp only [emit] at hemit
      split_ifs at hemit with hnil
      rw [← (Prod.mk.inj (Option.some_inj.mp hemit)).2]
      exact hnil
    obtain ⟨p, hp⟩ := exists_mem_of_ne_nil _ hne
    refine ⟨p.docId, .inl ⟨k, ?_⟩⟩
    have hid : p.docId ∈ list.ids := mem_map_of_mem hp
    rw [Segment.posting, hlist]
    exact mem_ids.mp hid
  · have hpoints : (mergedPoints deleted opened).points.get? x ≠ none := by
      intro hnone
      change file.numericFields.fields.get? x ≠ none at hx
      rw [hnumeric] at hx
      refine hx ?_
      change ((mergedPoints deleted opened).points.map NumericField.ofPoints).get? x = none
      rw [get?_map, hnone]
      rfl
    obtain ⟨d, hd⟩ := mergedPoints_filled deleted opened x hpoints
    refine ⟨d, .inr ⟨x, ?_⟩⟩
    change file.numericFields.of x d ≠ []
    rw [hnumeric, NumericPoints.of_build]
    simpa using hd

theorem Compaction.range_compactSegments {deleted : DeleteSet} {opened : List Segment}
    {file : Segment.SegmentFile} (h : compactSegments opened deleted = some file) :
    (file.minDocId, file.maxDocId) =
      (Segment.computeDocIdRange file.docLengths file.numericFields).getD (0, 0) := by
  rw [compactSegments, writeMergedSegment] at h
  split_ifs at h
  rw [← Option.some_inj.mp h]

/-! ### Parts -/

namespace Reader

open MemIndex Compaction Segment List

def docIdRange (r : Reader) : Option (DocId × DocId) :=
  match r with
  | mem m => m.docIdRange
  | seg s => s.docIdRange

def Ranged (r : Reader) (id : DocId) : Prop :=
  match r with
  | mem m => m.Ranged id
  | seg s => s.Ranged id

def Files (r : Reader) (d : DocId) : Prop :=
  match r with
  | mem m => m.Files d
  | seg s => s.Files d

def HasEntry (r : Reader) : Prop :=
  match r with
  | mem m => m.HasTerm ∨ m.HasNumber
  | seg s => s.HasEntry

def Held (r : Reader) (id : DocId) : Prop :=
  match r with
  | mem m => m.Ends id ∨ m.Ranged id
  | seg s => s.Ends id ∨ s.Ranged id

/-- The id is in the range and stays there whatever the part becomes. -/
def Anchors (r : Reader) (d : DocId) : Prop := r.Files d ∧ Within r.docIdRange d

/-- Whatever is filed has a length or is a number, and no length stands for a missing one. -/
structure Sound (r : Reader) : Prop where
  files : ∀ d, r.Files d → r.Ranged d
  entries : r.HasEntry → ∃ id, r.Ranged id
  fits : ∀ d x, r.docLen d x ≠ some u32Max

theorem held_of_range {r : Reader} {lo hi : DocId} (h : r.docIdRange = some (lo, hi)) : r.Held lo ∧ r.Held hi := by
  cases r with
  | mem m =>
    change m.docIdRange = some (lo, hi) at h
    rw [MemIndex.docIdRange] at h
    cases hlo : m.minDocId with
    | none => simp [hlo] at h
    | some a =>
      cases hhi : m.maxDocId with
      | none => simp [hlo, hhi] at h
      | some b =>
        obtain ⟨rfl, rfl⟩ : a = lo ∧ b = hi := by simpa [hlo, hhi] using h
        exact ⟨.inl (.inl hlo), .inl (.inr hhi)⟩
  | seg s => exact ⟨.inl ⟨lo, hi, h, .inl rfl⟩, .inl ⟨lo, hi, h, .inr rfl⟩⟩

theorem held_of_ranged {r : Reader} {id : DocId} (h : r.Ranged id) : r.Held id := by
  cases r with
  | mem m => exact .inr h
  | seg s => exact .inr h

variable {deleted : DeleteSet} {r : Reader} {group : List Reader} {d : DocId}

theorem sound_ofDocuments {docs : List AnalyzedDocument}
    (h : ∀ doc ∈ docs, ∀ target ∈ doc.targets, ∀ field ∈ target.2.fields, field.docLen ≠ u32Max) :
    Sound (.mem (ofDocuments docs)) := by
  have hindexed := indexed_ofDocuments docs
  refine ⟨fun d hd => ?_, fun hentry => ?_, fun d x => fits_ofDocuments h (toLex (d, x))⟩
  · obtain ⟨doc, hdoc, target, htarget, heq, hfiled⟩ := (hindexed.files_iff d).mp hd
    refine (hindexed.ranged_iff d).mpr ⟨doc, hdoc, target, htarget, heq, ?_⟩
    rcases hfiled with ⟨field, hfield, -⟩ | hnumber
    · exact .inl (ne_nil_of_mem hfield)
    · exact .inr hnumber
  · have hkept : KeptIn docs := by
      rcases hentry with hterm | hnumber
      · obtain ⟨doc, hdoc, target, htarget, hterm⟩ := hindexed.hasTerm_iff.mp hterm
        exact ⟨doc, hdoc, target, htarget, .inl hterm⟩
      · obtain ⟨doc, hdoc, target, htarget, hnumber⟩ := hindexed.hasNumber_iff.mp hnumber
        exact ⟨doc, hdoc, target, htarget, .inr hnumber⟩
    obtain ⟨id, hid⟩ := Table.ranged_of_kept hkept
    exact ⟨id, (hindexed.ranged_iff id).mpr hid⟩

theorem Makes.files_iff (h : Makes deleted r group) (d : DocId) :
    r.Files d ↔ d ∉ deleted ∧ ∃ g ∈ group, g.Files d := by
  cases h with
  | new =>
    simp only [not_mem_nil, false_and, exists_false, and_false, iff_false]
    rintro (⟨k, hk⟩ | ⟨x, hx⟩)
    · exact hk rfl
    · exact hx rfl
  | mergeFrom m n => simpa [Files] using m.files_mergeFrom n d
  | freezeShared generations => simpa [Files] using files_freezeShared generations d
  | write job =>
    change (MemIndex.freezeShared job.generations).Files d ↔ _
    simpa [Files] using files_freezeShared job.generations d
  | compacted deleted opened => simpa [Files] using files_compacted deleted opened d

theorem Makes.docLen_mem (h : Makes deleted r group) {x : XPathId} {len : ℕ}
    (hlen : r.docLen d x = some len) : ∃ g ∈ group, g.docLen d x = some len := by
  cases h with
  | new => cases hlen
  | mergeFrom m n =>
    rw [docLen, mergeFrom_docLengths, get?_mergeWith] at hlen
    cases hn : n.docLengths.get? (toLex (d, x)) with
    | none =>
      rw [hn] at hlen
      exact ⟨.mem m, by simp, hlen⟩
    | some len' =>
      rw [hn] at hlen
      exact ⟨.mem n, by simp, hn.trans hlen⟩
  | freezeShared generations =>
    obtain ⟨g, hg, hlen⟩ := (get?_frozenLengths generations (toLex (d, x))).1 len hlen
    exact ⟨.mem g, mem_map_of_mem hg, hlen⟩
  | write job =>
    have hfrozen := get?_openLengths (frozenLengths job.generations) d x
    obtain ⟨g, hg, hlen⟩ := (get?_frozenLengths job.generations (toLex (d, x))).1 len
      (Option.filter_eq_some_iff.mp (hfrozen.symm.trans hlen)).1
    exact ⟨.mem g, mem_map_of_mem hg, hlen⟩
  | compacted deleted opened =>
    change (Compaction.compacted deleted opened).docLengths.get? (toLex (d, x)) = some len at hlen
    rw [docLengths_compacted, get?_openLengths] at hlen
    obtain ⟨s, hs, hlen⟩ := (get?_mergedLengths_spec deleted opened d x).1 len
      (Option.filter_eq_some_iff.mp hlen).1
    exact ⟨.seg s, mem_map_of_mem hs, hlen⟩

section Fits

variable (hfits : ∀ g ∈ group, ∀ d x, g.docLen d x ≠ some u32Max)
include hfits

theorem Makes.fits (h : Makes deleted r group) (d : DocId) (x : XPathId) : r.docLen d x ≠ some u32Max := by
  intro hlen
  obtain ⟨g, hg, hlen⟩ := h.docLen_mem hlen
  exact hfits g hg d x hlen

theorem Makes.ranged_iff (h : Makes deleted r group) (d : DocId) :
    r.Ranged d ↔ d ∉ deleted ∧ ∃ g ∈ group, g.Ranged d := by
  cases h with
  | new =>
    simp only [not_mem_nil, false_and, exists_false, and_false, iff_false]
    rintro (⟨x, hx⟩ | ⟨x, hx⟩)
    · exact hx rfl
    · exact hx rfl
  | mergeFrom m n => simpa [Ranged] using m.ranged_mergeFrom n d
  | freezeShared generations => simpa [Ranged] using ranged_freezeShared generations d
  | write job =>
    have hlengths : openLengths (frozenLengths job.generations) =
        frozenLengths job.generations := by
      refine openLengths_eq fun key hlen => ?_
      obtain ⟨g, hg, hlen⟩ := (get?_frozenLengths job.generations key).1 u32Max hlen
      exact hfits (.mem g) (mem_map_of_mem hg) (ofLex key).1 (ofLex key).2 hlen
    have hranged : job.write.Ranged d ↔ (MemIndex.freezeShared job.generations).Ranged d := by
      have hopened : job.write.docLengths = openLengths (frozenLengths job.generations) := rfl
      rw [Segment.Ranged, hopened, hlengths]
      rfl
    refine hranged.trans ?_
    simpa [Ranged] using ranged_freezeShared job.generations d
  | compacted deleted opened =>
    have hlengths : (Compaction.compacted deleted opened).docLengths = mergedLengths deleted opened := by
      rw [docLengths_compacted]
      refine openLengths_eq fun key hlen => ?_
      obtain ⟨s, hs, hlen⟩ :=
        (get?_mergedLengths_spec deleted opened (ofLex key).1 (ofLex key).2).1 u32Max hlen
      exact hfits (.seg s) (mem_map_of_mem hs) (ofLex key).1 (ofLex key).2 hlen
    change (Compaction.compacted deleted opened).Ranged d ↔ _
    simp only [Segment.Ranged, hlengths, (get?_mergedLengths_spec deleted opened d _).2,
      numbers_compacted]
    by_cases hd : d ∈ deleted
    · simp [hd]
    · simp only [hd, not_false_eq_true, true_and, if_false, ne_eq, flatMap_eq_nil_iff, not_forall]
      simp only [exists_prop]
      exact exists_or_exists_mem.trans (by simp [Ranged, Segment.Ranged, Segment.docLen])

end Fits

section Sound

variable (hsound : ∀ g ∈ group, g.Sound)
include hsound

theorem Makes.entries (h : Makes deleted r group) (hentry : r.HasEntry) : ∃ id, r.Ranged id := by
  have hfits : ∀ g ∈ group, ∀ d x, g.docLen d x ≠ some u32Max := fun g hg => (hsound g hg).fits
  -- a table takes over the entries of its parts, a compaction keeps those with a posting
  have hmove : (∃ g ∈ group, g.HasEntry) → deleted = ∅ → ∃ id, r.Ranged id := by
    rintro ⟨g, hg, hentry⟩ rfl
    obtain ⟨id, hid⟩ := (hsound g hg).entries hentry
    exact ⟨id, (h.ranged_iff hfits id).mpr ⟨Finset.notMem_empty id, g, hg, hid⟩⟩
  have hfrozen : ∀ generations : List MemIndex, (MemIndex.freezeShared generations).HasEntry →
      ∃ g ∈ generations.map mem, g.HasEntry := by
    rintro generations (⟨k, hk⟩ | ⟨x, hx⟩)
    · obtain ⟨g, hg, hk⟩ := (Table.terms_frozen generations k).mp hk
      exact ⟨.mem g, mem_map_of_mem hg, .inl ⟨k, hk⟩⟩
    · obtain ⟨g, hg, hx⟩ := (Table.points_frozen generations x).mp hx
      exact ⟨.mem g, mem_map_of_mem hg, .inr ⟨x, hx⟩⟩
  cases h with
  | new =>
    rcases hentry with ⟨k, hk⟩ | ⟨x, hx⟩
    · exact absurd rfl hk
    · exact absurd rfl hx
  | mergeFrom m n =>
    refine hmove ?_ rfl
    rw [HasEntry, hasTerm_mergeFrom, hasNumber_mergeFrom] at hentry
    rcases hentry with (h | h) | h | h
    · exact ⟨.mem m, by simp, .inl h⟩
    · exact ⟨.mem n, by simp, .inl h⟩
    · exact ⟨.mem m, by simp, .inr h⟩
    · exact ⟨.mem n, by simp, .inr h⟩
  | freezeShared generations => exact hmove (hfrozen generations hentry) rfl
  | write job => exact hmove (hfrozen job.generations hentry) rfl
  | compacted deleted opened =>
    obtain ⟨d, hd⟩ := files_of_hasEntry deleted opened hentry
    have hmakes := Makes.compacted deleted opened
    obtain ⟨hlive, g, hg, hfiles⟩ := (hmakes.files_iff d).mp hd
    exact ⟨d, (hmakes.ranged_iff hfits d).mpr ⟨hlive, g, hg, (hsound g hg).files d hfiles⟩⟩

theorem Makes.sound (h : Makes deleted r group) : r.Sound where
  files d hd := by
    obtain ⟨hlive, g, hg, hfiles⟩ := (h.files_iff d).mp hd
    exact (h.ranged_iff (fun g hg => (hsound g hg).fits) d).mpr ⟨hlive, g, hg, (hsound g hg).files d hfiles⟩
  entries := h.entries hsound
  fits := h.fits fun g hg => (hsound g hg).fits

theorem Makes.range {s : Segment} (h : Makes deleted (.seg s) group) :
    (∀ id, s.Ends id → s.Ranged id) ∧ ∀ id, s.HasEntry → s.Ranged id → Within s.docIdRange id := by
  have hentries := h.entries hsound
  cases h with
  | freezeShared generations =>
    have hrange := range_computed (s := MemIndex.freezeShared generations) rfl
    exact ⟨hrange.1, fun id _ => hrange.2 id⟩
  | write job =>
    refine range_opened (MemIndex.freezeShared job.generations).write (fun key hlen => ?_) rfl hentries
    obtain ⟨g, hg, hlen⟩ := (get?_frozenLengths job.generations key).1 u32Max hlen
    exact (hsound (.mem g) (mem_map_of_mem hg)).fits (ofLex key).1 (ofLex key).2 hlen
  | compacted deleted opened =>
    obtain ⟨file, hfile, hopened, -, hlengths, -⟩ := compacted_spec deleted opened
    rw [hopened] at hentries ⊢
    refine range_opened file (fun key hlen => ?_) (range_compactSegments hfile) hentries
    rw [hlengths] at hlen
    obtain ⟨s, hs, hlen⟩ :=
      (get?_mergedLengths_spec deleted opened (ofLex key).1 (ofLex key).2).1 u32Max hlen
    exact (hsound (.seg s) (mem_map_of_mem hs)).fits (ofLex key).1 (ofLex key).2 hlen

theorem Makes.held (h : Makes deleted r group) {id : DocId} (hheld : r.Held id) :
    id ∉ deleted ∧ ∃ g ∈ group, g.Held id := by
  have hranged : r.Ranged id → id ∉ deleted ∧ ∃ g ∈ group, g.Held id := by
    intro hid
    obtain ⟨hlive, g, hg, hid⟩ := (h.ranged_iff (fun g hg => (hsound g hg).fits) id).mp hid
    exact ⟨hlive, g, hg, held_of_ranged hid⟩
  cases r with
  | mem m =>
    rcases hheld with hends | hid
    · cases h with
      | new => rcases hends with hend | hend <;> cases hend
      | mergeFrom m n =>
        rcases ends_mergeFrom hends with h | h
        · exact ⟨Finset.notMem_empty id, .mem m, by simp, .inl h⟩
        · exact ⟨Finset.notMem_empty id, .mem n, by simp, .inl h⟩
    · exact hranged hid
  | seg s =>
    rcases hheld with hends | hid
    · exact hranged ((h.range hsound).1 id hends)
    · exact hranged hid

theorem Makes.anchors (h : Makes deleted r group) (hlive : d ∉ deleted) {g : Reader} (hg : g ∈ group)
    (hanchors : g.Anchors d) : r.Anchors d := by
  have hfiles : r.Files d := (h.files_iff d).mpr ⟨hlive, g, hg, hanchors.1⟩
  refine ⟨hfiles, ?_⟩
  cases r with
  | mem m =>
    cases h with
    | new => cases hg
    | mergeFrom m n =>
      refine within_mergeFrom ?_
      rcases mem_cons.mp hg with rfl | hg
      · exact .inl hanchors.2
      · obtain rfl := mem_singleton.mp hg
        exact .inr hanchors.2
  | seg s =>
    exact (h.range hsound).2 d (hasEntry_of_files hfiles) ((h.sound hsound).files d hfiles)

end Sound

end Reader
