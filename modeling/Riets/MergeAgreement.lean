/-
Merged tables, frozen tables, and one table of all documents.

Documents arrive in batches.  Each batch becomes a table of its own; the tables are merged
into the active one, or frozen into a segment.  Adding a document is a list of writes
(`AnalyzedDocument.writes`), and an answer of the table is followed through one write at a
time: most answers gather what the writes bring, and the entries of a text field under an id
come from one document.
-/
import Riets.Batches
import Riets.FieldLengths
import Riets.NumericOrder

open List Option

/-! ### Writes -/

/-- One change that adding a document makes. -/
inductive IndexWrite where
  | range (docId : DocId)
  | row (row : ArrayRowId) (docId : DocId) (parent : Option ArrayRowId)
  | length (id : DocId) (xpath : XPathId) (len : ℕ)
  | posting (id : DocId) (xpath : XPathId) (term : AnalyzedTerm)
  | number (id : DocId) (point : NumericPoint)
  | bool (id : DocId) (point : BoolPoint)
  deriving DecidableEq, Repr

def MemIndex.fileLength (m : MemIndex) (id : DocId) (x : XPathId) (len : ℕ) : MemIndex :=
  m.applyField id ⟨x, len, []⟩

/-- The table after one change. -/
def MemIndex.write (m : MemIndex) : IndexWrite → MemIndex
  | .range docId => m.trackDocId docId
  | .row row docId parent => { m with arrayRowIndex := m.arrayRowIndex.pushRow row docId parent }
  | .length id x len => m.fileLength id x len
  | .posting id x term => m.addPostingWeighted term.term x id term.positions term.weight
  | .number id point => m.addNumber id point
  | .bool id point => m.addBool id point

def AnalyzedField.writes (field : AnalyzedField) (id : DocId) : List IndexWrite :=
  .length id field.xpath field.docLen :: field.terms.map (.posting id field.xpath)

def AnalyzedTarget.writes (t : AnalyzedTarget) (id : DocId) : List IndexWrite :=
  (t.fields.flatMap fun field => field.writes id) ++ t.numericPoints.map (.number id) ++
    t.boolPoints.map (.bool id)

/-- The changes of a document, in order. -/
def AnalyzedDocument.writes (doc : AnalyzedDocument) : List IndexWrite :=
  .range doc.docId :: doc.main.writes doc.docId ++ doc.arrayRows.flatMap fun row =>
    .row row.arrayRowId doc.docId row.parent :: row.target.writes row.arrayRowId

/-- The change files a text under the id in the field. -/
def IndexWrite.FilesText (x : XPathId) (d : DocId) : IndexWrite → Prop
  | .length id x' _ | .posting id x' _ => id = d ∧ x' = x
  | _ => False

def AnalyzedDocument.FilesText (doc : AnalyzedDocument) (x : XPathId) (d : DocId) : Prop :=
  ∃ t ∈ doc.targets, t.1 = d ∧ ∃ field ∈ t.2.fields, field.xpath = x

/-- No two documents file a text of field `x` under the same id. -/
def TextApart (x : XPathId) (docs : List AnalyzedDocument) : Prop :=
  docs.Pairwise fun a b => ∀ d, a.FilesText x d → ¬b.FilesText x d

namespace MemIndex

open List

theorem applyField_eq (m : MemIndex) (id : DocId) (field : AnalyzedField) :
    m.applyField id field = (field.writes id).foldl write m := by
  rw [AnalyzedField.writes, foldl_cons, foldl_map]
  rfl

theorem applyTarget_eq (m : MemIndex) (id : DocId) (t : AnalyzedTarget) :
    m.applyTarget id t = (t.writes id).foldl write m := by
  rw [AnalyzedTarget.writes, foldl_append, foldl_append, foldl_map, foldl_map,
    foldl_flatMap]
  simp only [← applyField_eq]
  rfl

theorem addAnalyzedDocument_eq (m : MemIndex) (doc : AnalyzedDocument) :
    m.addAnalyzedDocument doc = doc.writes.foldl write m := by
  rw [AnalyzedDocument.writes, foldl_append, foldl_cons, foldl_flatMap, ← applyTarget_eq]
  simp only [foldl_cons, ← applyTarget_eq]
  rfl

end MemIndex

theorem AnalyzedTarget.exists_field {t : AnalyzedTarget} {id : DocId} {w : IndexWrite} (hw : w ∈ t.writes id)
    {x : XPathId} {d : DocId} (h : w.FilesText x d) : id = d ∧ ∃ field ∈ t.fields, field.xpath = x := by
  rw [AnalyzedTarget.writes, mem_append, mem_append, mem_flatMap] at hw
  rcases hw with (⟨field, hfield, hw⟩ | hw) | hw
  · rw [AnalyzedField.writes, List.mem_cons, List.mem_map] at hw
    rcases hw with rfl | ⟨term, -, rfl⟩
    · exact ⟨h.1, field, hfield, h.2⟩
    · exact ⟨h.1, field, hfield, h.2⟩
  · obtain ⟨point, -, rfl⟩ := mem_map.mp hw
    exact h.elim
  · obtain ⟨point, -, rfl⟩ := mem_map.mp hw
    exact h.elim

theorem AnalyzedDocument.filesText_of_mem {doc : AnalyzedDocument} {w : IndexWrite} (hw : w ∈ doc.writes)
    {x : XPathId} {d : DocId} (h : w.FilesText x d) : doc.FilesText x d := by
  rw [AnalyzedDocument.writes, mem_append, mem_cons, mem_flatMap] at hw
  rcases hw with (rfl | hw) | ⟨row, hrow, hw⟩
  · exact h.elim
  · exact ⟨_, mem_cons_self, AnalyzedTarget.exists_field hw h⟩
  · rcases mem_cons.mp hw with rfl | hw
    · exact h.elim
    · exact ⟨_, mem_cons_of_mem _ (mem_map_of_mem hrow), AnalyzedTarget.exists_field hw h⟩

/-! ### Weight bounds -/

namespace PostingList

/-- The maximal weight is the weight of a posting. -/
def Exact (list : PostingList) : Prop := list.maxWeight = weightBound list.items

theorem weightBound_le {items : List Posting} {w : ℕ} : weightBound items ≤ w ↔ ∀ p ∈ items, p.weight ≤ w := by
  constructor
  · intro h p hp
    exact ((Keyed.le_foldl_max (items.map Posting.weight) 0).2 p.weight (mem_map_of_mem hp)).trans h
  · intro h
    rw [weightBound]
    refine foldlRecOn (motive := fun bound => bound ≤ w) (items.map Posting.weight) max (Nat.zero_le w) ?_
    intro bound hbound weight hweight
    obtain ⟨p, hp, rfl⟩ := mem_map.mp hweight
    exact max_le hbound (h p hp)

theorem exact_iff {list : PostingList} :
    list.Exact ↔ ∀ w, list.maxWeight ≤ w ↔ ∀ d, ∀ p ∈ list.find d, p.weight ≤ w := by
  have hfind : ∀ w, weightBound list.items ≤ w ↔ ∀ d, ∀ p ∈ list.find d, p.weight ≤ w := by
    intro w
    rw [weightBound_le]
    constructor
    · intro h d p hp
      exact h p (Keyed.find_mem hp)
    · intro h p hp
      exact h p.docId p ((Keyed.mem_iff_find list.ascending).mp hp)
  constructor
  · intro h w
    rw [h, hfind]
  · intro h
    refine eq_of_forall_ge_iff fun w => ?_
    rw [h, hfind]

theorem exact_new : new.Exact := rfl

theorem Exact.insertPosting {list : PostingList} (h : list.Exact) (id : DocId) (positions : List ℕ)
    (weight : ℕ) : (list.insertPosting id positions weight).Exact := by
  by_cases hpositions : positions = []
  · rw [PostingList.insertPosting, if_pos hpositions]
    exact h
  · rw [exact_iff] at h ⊢
    intro w
    have hbound : (list.insertPosting id positions weight).maxWeight = max list.maxWeight weight := by
      rw [PostingList.insertPosting, if_neg hpositions]
    have hown := find_insertPosting_self list id positions weight
    rw [if_neg hpositions] at hown
    rw [hbound, max_le_iff, h]
    constructor
    · rintro ⟨hlist, hweight⟩ d p hp
      by_cases hd : d = id
      · subst hd
        rw [hown] at hp
        cases hold : list.find d with
        | none =>
          rw [hold] at hp
          obtain rfl := mem_some_iff.mp hp
          exact hweight
        | some old =>
          rw [hold] at hp
          obtain rfl := mem_some_iff.mp hp
          exact max_le (hlist d old hold) hweight
      · rw [find_insertPosting list id positions weight d hd] at hp
        exact hlist d p hp
    · intro hall
      have hat := hall id
      rw [hown] at hat
      refine ⟨fun d p hp => ?_, ?_⟩
      · by_cases hd : d = id
        · subst hd
          rw [mem_def.mp hp] at hat
          exact (le_max_left _ _).trans (hat _ rfl)
        · exact hall d p (by rw [find_insertPosting list id positions weight d hd]; exact hp)
      · cases hold : list.find id with
        | none =>
          rw [hold] at hat
          exact hat _ rfl
        | some old =>
          rw [hold] at hat
          exact (le_max_right _ _).trans (hat _ rfl)

theorem weightBound_append (a b : List Posting) : weightBound (a ++ b) = max (weightBound a) (weightBound b) := by
  refine eq_of_forall_ge_iff fun w => ?_
  rw [max_le_iff, weightBound_le, weightBound_le, weightBound_le, forall_mem_append]

theorem Exact.append {list other : PostingList} (h : list.Exact) (ho : other.Exact) :
    (list.append other).Exact := by
  rw [PostingList.append]
  split
  · exact h
  · split
    · exact ho
    · split_ifs
      · rw [Exact, weightBound_append, ← h, ← ho]
      · rfl

theorem Exact.ext {a b : PostingList} (ha : a.Exact) (hb : b.Exact) (h : ∀ d, a.find d = b.find d) : a = b := by
  have hitems : a.items = b.items := ext_items h
  have hbound : a.maxWeight = b.maxWeight := by rw [ha, hb, hitems]
  cases a with
  | mk items maxWeight ascending =>
    cases b with
    | mk items' maxWeight' ascending' =>
      obtain rfl : items = items' := hitems
      obtain rfl : maxWeight = maxWeight' := hbound
      rfl

end PostingList

namespace MemIndex

def ExactTerms (m : MemIndex) : Prop := ∀ k list, m.terms.get? k = some list → list.Exact

theorem exactTerms_write {m : MemIndex} (h : m.ExactTerms) (w : IndexWrite) : (m.write w).ExactTerms := by
  cases w with
  | posting id x term =>
    intro k list hlist
    rw [write, addPostingWeighted, SortedMap.get?_upsert] at hlist
    split_ifs at hlist with hk
    · obtain rfl := some_inj.mp hlist
      refine PostingList.Exact.insertPosting ?_ id term.positions term.weight
      cases hold : m.terms.get? ⟨x, term.term⟩ with
      | none => exact PostingList.exact_new
      | some old => exact h _ old hold
    · exact h k list hlist
  | range docId => exact h
  | row row docId parent => exact h
  | length id x len => exact h
  | number id point => exact h
  | bool id point => exact h

theorem exactTerms_ofDocuments (docs : List AnalyzedDocument) : (ofDocuments docs).ExactTerms := by
  refine foldl_keeps (P := ExactTerms) (fun m doc hm => ?_) docs ?_
  · rw [addAnalyzedDocument_eq]
    exact foldl_keeps (P := ExactTerms) (fun m w hm => exactTerms_write hm w) doc.writes hm
  · intro k list hlist
    cases hlist

theorem exactTerms_mergeFrom {m n : MemIndex} (hm : m.ExactTerms) (hn : n.ExactTerms) :
    (m.mergeFrom n).ExactTerms := by
  intro k list hlist
  rw [mergeFrom_terms, SortedMap.get?_mergeWith] at hlist
  cases hown : n.terms.get? k with
  | none =>
    rw [hown] at hlist
    exact hm k list hlist
  | some newer =>
    rw [hown] at hlist
    obtain rfl := some_inj.mp hlist
    cases hold : m.terms.get? k with
    | none => exact hn k newer hown
    | some old => exact (hm k old hold).append (hn k newer hown)

end MemIndex

/-! ### Texts -/

/-- The postings and the length under one id in one field. -/
abbrev TextAt := (String → Option Posting) × Option ℕ

/-- Postings join, and the newer length counts. -/
def joinText (a b : TextAt) : TextAt := (fun term => PostingList.join (a.1 term) (b.1 term), b.2.or a.2)

def noText : TextAt := (fun _ => none, none)

instance : Std.LawfulIdentity joinText noText where
  left_id a := by
    show ((fun term => a.1 term, a.2.or none) : TextAt) = a
    rw [or_none]
  right_id a := by
    refine Prod.ext (funext fun term => ?_) rfl
    exact PostingList.join_none_right (a.1 term)

namespace MemIndex

open SortedMap Batches AnalyzedDocument List

variable {x : XPathId} {d : DocId}

def textAt (x : XPathId) (d : DocId) (m : MemIndex) : TextAt :=
  (fun term => m.posting ⟨x, term⟩ d, m.docLengths.get? (toLex (d, x)))

theorem textAt_write_congr (w : IndexWrite) {m n : MemIndex} (h : m.textAt x d = n.textAt x d) :
    (m.write w).textAt x d = (n.write w).textAt x d := by
  have hposting : ∀ term, m.posting ⟨x, term⟩ d = n.posting ⟨x, term⟩ d :=
    fun term => congrFun (congrArg Prod.fst h) term
  have hlength : m.docLengths.get? (toLex (d, x)) = n.docLengths.get? (toLex (d, x)) := congrArg Prod.snd h
  cases w with
  | length id x' len =>
    refine Prod.ext (funext hposting) ?_
    show (m.docLengths.insert (toLex (id, x')) len).get? (toLex (d, x)) =
      (n.docLengths.insert (toLex (id, x')) len).get? (toLex (d, x))
    rw [get?_insert, get?_insert, hlength]
  | posting id x' t =>
    refine Prod.ext (funext fun term => ?_) hlength
    show (m.addPostingWeighted t.term x' id t.positions t.weight).posting ⟨x, term⟩ d =
      (n.addPostingWeighted t.term x' id t.positions t.weight).posting ⟨x, term⟩ d
    rw [posting_addPostingWeighted, posting_addPostingWeighted, hposting]
  | range docId => exact h
  | row row docId parent => exact h
  | number id point => exact h
  | bool id point => exact h

theorem textAt_write_of_not {w : IndexWrite} (h : ¬w.FilesText x d) (m : MemIndex) :
    (m.write w).textAt x d = m.textAt x d := by
  cases w with
  | length id x' len =>
    have hkey : ¬toLex (d, x) = toLex (id, x') := by
      intro heq
      obtain ⟨hid, hx⟩ := Prod.mk.inj (toLex.injective heq)
      exact h ⟨hid.symm, hx.symm⟩
    refine Prod.ext rfl ?_
    show (m.docLengths.insert (toLex (id, x')) len).get? (toLex (d, x)) = m.docLengths.get? (toLex (d, x))
    rw [get?_insert, if_neg hkey]
  | posting id x' t =>
    refine Prod.ext (funext fun term => ?_) rfl
    show (m.addPostingWeighted t.term x' id t.positions t.weight).posting ⟨x, term⟩ d = m.posting ⟨x, term⟩ d
    rw [posting_addPostingWeighted, if_neg]
    rintro ⟨hkey, hid⟩
    exact h ⟨hid.symm, (TermKey.mk.inj hkey).1.symm⟩
  | range docId => rfl
  | row row docId parent => rfl
  | number id point => rfl
  | bool id point => rfl

variable {docs : List AnalyzedDocument}

theorem joins_textAt (h : TextApart x docs) (d : DocId) :
    Batches.Joins joinText (textAt x d) ofDocuments docs := by
  have hapart : docs.Pairwise fun a b => a.FilesText x d → ¬b.FilesText x d := h.imp fun hab => hab d
  refine Joins.of_apart (e := noText) rfl ?_ ?_ hapart
  · intro doc m n hmn
    rw [addAnalyzedDocument_eq, addAnalyzedDocument_eq]
    exact foldl_answer_congr (fun w _ _ => textAt_write_congr w) doc.writes hmn
  · intro doc m hnot
    rw [addAnalyzedDocument_eq]
    refine foldl_answer_eq doc.writes (fun w hw m => ?_) m
    exact textAt_write_of_not (fun htext => hnot (filesText_of_mem hw htext)) m

theorem textAt_mergeFrom (m n : MemIndex) : (m.mergeFrom n).textAt x d = joinText (m.textAt x d) (n.textAt x d) := by
  refine Prod.ext (funext fun term => posting_mergeFrom m n ⟨x, term⟩ d) ?_
  show (m.mergeFrom n).docLengths.get? (toLex (d, x)) =
    (n.docLengths.get? (toLex (d, x))).or (m.docLengths.get? (toLex (d, x)))
  rw [mergeFrom_docLengths, get?_mergeWith]
  cases n.docLengths.get? (toLex (d, x)) with
  | none => rfl
  | some len => rfl

theorem tallied_write {m : MemIndex} (h : (Reader.mem m).Tallied x) (w : IndexWrite) :
    (Reader.mem (m.write w)).Tallied x := by
  cases w with
  | length id x' len =>
    have hbefore := perm_otherLengths m.docLengths id x
    have hother : (otherLengths (m.fileLength id x' len).docLengths id x).Perm (otherLengths m.docLengths id x) :=
      perm_otherLengths_congr fun d hd => (SameAt.applyField (.inl hd) m).length
    have hafter := (perm_otherLengths (m.fileLength id x' len).docLengths id x).trans (hother.append_right _)
    have hcounts : CountsOver (tally (otherLengths m.docLengths id x)) id x m := by
      rw [CountsOver, h, Reader.lengths, tally_perm hbefore, tally_append, tally_ownEntry]
    have hcounts' := (length_applyField hcounts ⟨x', len, []⟩).2
    show (Reader.mem (m.fileLength id x' len)).Tallied x
    rw [fileLength] at hafter ⊢
    rw [Reader.Tallied, hcounts', Reader.lengths, tally_perm hafter, tally_append, tally_ownEntry]
  | range docId => exact h
  | row row docId parent => exact h
  | posting id x' term => exact h
  | number id point => exact h
  | bool id point => exact h

theorem tallied_documents (docs : List AnalyzedDocument) (x : XPathId) : (Reader.mem (ofDocuments docs)).Tallied x := by
  refine foldl_keeps (P := fun m => (Reader.mem m).Tallied x) (fun m doc hm => ?_) docs rfl
  rw [addAnalyzedDocument_eq]
  exact foldl_keeps (P := fun m => (Reader.mem m).Tallied x) (fun m w hm => tallied_write hm w) doc.writes hm

theorem textAt_eq_noText (h : ∀ doc ∈ docs, ¬doc.FilesText x d) :
    (ofDocuments docs).textAt x d = noText := by
  refine @foldl_answer_eq _ _ _ (textAt x d) _ docs (fun doc hdoc m => ?_) new
  rw [addAnalyzedDocument_eq]
  refine foldl_answer_eq doc.writes (fun w hw m => ?_) m
  exact textAt_write_of_not (fun htext => h doc hdoc (filesText_of_mem hw htext)) m

theorem joins_stats (h : TextApart x docs) :
    Batches.Joins FieldStats.add (fun m => (Reader.mem m).stats x) ofDocuments docs := by
  intro l l' hle
  have hcross := (pairwise_append.mp (h.sublist hle.sublist)).2.2
  have hapart : Reader.ApartAt x (.mem (ofDocuments l)) (.mem (ofDocuments l')) := by
    intro d
    by_cases htext : ∃ doc ∈ l, doc.FilesText x d
    · obtain ⟨doc, hdoc, htext⟩ := htext
      exact .inr (congrArg Prod.snd (textAt_eq_noText fun doc' hdoc' => hcross doc hdoc doc' hdoc' d htext))
    · exact .inl (congrArg Prod.snd (textAt_eq_noText fun doc hdoc ht => htext ⟨doc, hdoc, ht⟩))
  have hjoin : ∀ d, (ofDocuments (l ++ l')).docLengths.get? (toLex (d, x)) =
      ((ofDocuments l').docLengths.get? (toLex (d, x))).or ((ofDocuments l).docLengths.get? (toLex (d, x))) :=
    fun d => congrArg Prod.snd (joins_textAt h d l l' hle)
  have hgroup : Reader.Apart x [.mem (ofDocuments l), .mem (ofDocuments l')] := pairwise_pair.mpr hapart
  have hperm : (lengthsAt (ofDocuments (l ++ l')).docLengths x).Perm
      ([Reader.mem (ofDocuments l), .mem (ofDocuments l')].flatMap fun g => lengthsAt g.lengths x) := by
    refine hgroup.perm_lengthsAt fun d len => ?_
    rw [hjoin]
    rcases hapart d with hnone | hnone <;> rw [Reader.docLen] at hnone <;> simp [Reader.docLen, hnone]
  show (Reader.mem (ofDocuments (l ++ l'))).stats x =
    ((Reader.mem (ofDocuments l)).stats x).add ((Reader.mem (ofDocuments l')).stats x)
  rw [flatMap_cons, flatMap_singleton] at hperm
  rw [tallied_documents, tallied_documents l, tallied_documents l', ← tally_append]
  exact tally_perm hperm

end MemIndex

/-! ### Numbers -/

def IndexWrite.points : IndexWrite → List FiledPoint
  | .number id point => [⟨point.xpath, id, point.value⟩]
  | _ => []

def AnalyzedDocument.filedPoints (doc : AnalyzedDocument) : List FiledPoint := doc.writes.flatMap IndexWrite.points

/-- All numbers filed under the id in the field are the same. -/
def OneValueAt (points : List FiledPoint) (x : XPathId) (d : DocId) : Prop :=
  ∀ p ∈ points, ∀ q ∈ points, p.xpath = x → q.xpath = x → p.docId = d → q.docId = d → p.value = q.value

def Reader.numericValue (r : Reader) (x : XPathId) (d : DocId) : Option NumericValue :=
  match r with
  | mem m => m.numericPoints.get x d
  | seg s => s.numericValue x d

namespace MemIndex

open AnalyzedDocument List

theorem madeOf_writes {m : MemIndex} {points : List FiledPoint} (h : m.numericPoints.MadeOf points)
    (writes : List IndexWrite) :
    (writes.foldl write m).numericPoints.MadeOf (points ++ writes.flatMap IndexWrite.points) := by
  induction writes generalizing m points with
  | nil =>
    rw [flatMap_nil, append_nil]
    exact h
  | cons w writes ih =>
    rw [foldl_cons, flatMap_cons, ← append_assoc]
    refine ih ?_
    have hnone : m.numericPoints.MadeOf (points ++ []) := by
      rw [append_nil]
      exact h
    cases w with
    | number id point => exact .insert ⟨point.xpath, id, point.value⟩ h
    | range docId => exact hnone
    | row row docId parent => exact hnone
    | length id x len => exact hnone
    | posting id x term => exact hnone
    | bool id point => exact hnone

theorem madeOf_ofDocuments (docs : List AnalyzedDocument) :
    (ofDocuments docs).numericPoints.MadeOf (docs.flatMap filedPoints) := by
  induction docs using reverseRecOn with
  | nil => exact .empty
  | append_singleton docs doc ih =>
    rw [ofDocuments, foldl_append, flatMap_append, flatMap_singleton]
    show ((ofDocuments docs).addAnalyzedDocument doc).numericPoints.MadeOf _
    rw [addAnalyzedDocument_eq]
    exact madeOf_writes ih doc.writes

theorem madeOf_mergeBatches (first : List AnalyzedDocument) (batches : List (List AnalyzedDocument)) :
    (Batches.mergeBatches mergeFrom ofDocuments first batches).numericPoints.MadeOf
      ((first ++ batches.flatten).flatMap filedPoints) := by
  refine @Batches.mergeBatches_induction _ _ mergeFrom ofDocuments
    (fun m docs => m.numericPoints.MadeOf (docs.flatMap filedPoints)) madeOf_ofDocuments ?_
    first batches
  intro m docs docs' h
  rw [mergeFrom_numericPoints, flatMap_append]
  exact h.merge (madeOf_ofDocuments docs')

end MemIndex

theorem NumericPoints.MadeOf.get_congr {n n' : NumericPoints} {points : List FiledPoint} (h : n.MadeOf points)
    (h' : n'.MadeOf points) (x : XPathId) (d : DocId) : n.get x d = n'.get x d := by
  rw [get_eq, get_eq, h.of_eq, h'.of_eq]

theorem NumericPoints.MadeOf.build_get_of_oneValue {n : NumericPoints} {points : List FiledPoint} {x : XPathId}
    {k : NumericKind} {d : DocId} (h : n.MadeOf points)
    (hk : ∀ p ∈ points, p.xpath = x → p.value.kind = k) (hone : OneValueAt points x d) :
    n.build.get x d = n.get x d := by
  rw [h.build_get_eq hk, get_eq]
  have hvalue : ∀ e ∈ (n.at_ x).of d, (⟨x, d, e.2⟩ : FiledPoint) ∈ points := by
    intro e he
    have hd : e.1 = d := by simpa using (mem_filter.mp he).2
    obtain ⟨d', v⟩ := e
    obtain rfl : d' = d := hd
    exact h.mem_of_iff.mp he
  cases hof : (n.at_ x).of d with
  | nil => rfl
  | cons e rest =>
    rw [hof] at hvalue
    obtain ⟨last, hlast⟩ : ∃ last, (e :: rest).getLast? = some last := by
      rw [getLast?_eq_some_getLast (cons_ne_nil e rest)]
      exact ⟨_, rfl⟩
    rw [hlast, head?_cons, map_some, map_some]
    have hmem : last ∈ e :: rest := mem_of_getLast? hlast
    exact congrArg some (hone _ (hvalue last hmem) _ (hvalue e mem_cons_self) rfl rfl rfl rfl)

/-! ### Answers that gather -/

namespace MemIndex

open Batches SortedMap

variable {M : Type*}

variable {batches : List (List AnalyzedDocument)} {docs first : List AnalyzedDocument}

theorem merged_of_contributes (op : M → M → M) {e : M} (answer : MemIndex → M) [Std.Associative op]
    [Std.LawfulIdentity op e] (hnew : answer new = e) (hwrite : ∀ w, Contributes op answer fun m => m.write w)
    (hmerge : ∀ m n, answer (m.mergeFrom n) = op (answer m) (answer n)) (h : first ++ batches.flatten = docs) :
    answer (mergeBatches mergeFrom ofDocuments first batches) = answer (ofDocuments docs) := by
  have hdoc : ∀ doc : AnalyzedDocument, Contributes op answer fun m => m.addAnalyzedDocument doc := by
    intro doc
    simp only [addAnalyzedDocument_eq]
    exact Contributes.foldl hwrite doc.writes
  exact (Joins.of_contributes hnew hdoc docs).merged hmerge h

theorem merged_isSome
    (h : first ++ batches.flatten = docs) (k : TermKey) :
    ((mergeBatches mergeFrom ofDocuments first batches).terms.get? k).isSome =
      ((ofDocuments docs).terms.get? k).isSome := by
  refine merged_of_contributes (fun a b : Bool => a || b) (fun m => (m.terms.get? k).isSome) rfl
    (fun w => ?_) (fun m n => ?_) h
  · cases w with
    | posting id x term =>
      refine ⟨decide (k = ⟨x, term.term⟩), fun m => ?_⟩
      show ((m.addPostingWeighted term.term x id term.positions term.weight).terms.get? k).isSome = _
      rw [addPostingWeighted, get?_upsert]
      by_cases hk : k = ⟨x, term.term⟩ <;> simp [hk]
    | range docId => exact .of_eq fun _ => rfl
    | row row docId parent => exact .of_eq fun _ => rfl
    | length id x len => exact .of_eq fun _ => rfl
    | number id point => exact .of_eq fun _ => rfl
    | bool id point => exact .of_eq fun _ => rfl
  · rw [mergeFrom_terms, get?_mergeWith]
    cases n.terms.get? k <;> simp

theorem boolTrueIds_addBool (m : MemIndex) (id : DocId) (point : BoolPoint) (x : XPathId) :
    (m.addBool id point).boolTrueIds x =
      m.boolTrueIds x ∪ if x = point.xpath ∧ point.value then {id} else ∅ := by
  rw [boolTrueIds, boolTrueIds, addBool, get?_upsert]
  by_cases hx : x = point.xpath
  · subst hx
    cases m.boolFields.get? point.xpath <;> cases point.value <;> simp [BoolField.insert, default]
  · simp [hx]

theorem boolFalseIds_addBool (m : MemIndex) (id : DocId) (point : BoolPoint) (x : XPathId) :
    (m.addBool id point).boolFalseIds x =
      m.boolFalseIds x ∪ if x = point.xpath ∧ point.value = false then {id} else ∅ := by
  rw [boolFalseIds, boolFalseIds, addBool, get?_upsert]
  by_cases hx : x = point.xpath
  · subst hx
    cases m.boolFields.get? point.xpath <;> cases point.value <;> simp [BoolField.insert, default]
  · simp [hx]

instance : Std.LawfulIdentity (fun s t : Finset DocId => s ∪ t) ∅ where
  left_id := Finset.empty_union
  right_id := Finset.union_empty

theorem merged_boolTrueIds
    (h : first ++ batches.flatten = docs) (x : XPathId) :
    (mergeBatches mergeFrom ofDocuments first batches).boolTrueIds x = (ofDocuments docs).boolTrueIds x := by
  refine merged_of_contributes (fun s t => s ∪ t) (fun m => m.boolTrueIds x) (e := ∅) rfl (fun w => ?_)
    (fun m n => boolTrueIds_mergeFrom m n x) h
  cases w with
  | bool id point => exact ⟨_, fun m => boolTrueIds_addBool m id point x⟩
  | range docId => exact .of_eq fun _ => rfl
  | row row docId parent => exact .of_eq fun _ => rfl
  | length id x len => exact .of_eq fun _ => rfl
  | posting id x term => exact .of_eq fun _ => rfl
  | number id point => exact .of_eq fun _ => rfl

theorem merged_boolFalseIds
    (h : first ++ batches.flatten = docs) (x : XPathId) :
    (mergeBatches mergeFrom ofDocuments first batches).boolFalseIds x = (ofDocuments docs).boolFalseIds x := by
  refine merged_of_contributes (fun s t => s ∪ t) (fun m => m.boolFalseIds x) (e := ∅) rfl (fun w => ?_)
    (fun m n => boolFalseIds_mergeFrom m n x) h
  cases w with
  | bool id point => exact ⟨_, fun m => boolFalseIds_addBool m id point x⟩
  | range docId => exact .of_eq fun _ => rfl
  | row row docId parent => exact .of_eq fun _ => rfl
  | length id x len => exact .of_eq fun _ => rfl
  | posting id x term => exact .of_eq fun _ => rfl
  | number id point => exact .of_eq fun _ => rfl

end MemIndex

namespace MemIndex

/-- The segment of a single table. -/
def freeze (m : MemIndex) : Segment :=
  Segment.new m.terms m.docLengths m.fieldStats m.numericPoints.build m.boolFields m.arrayRowIndex

theorem foldl_part {V : Type*} (part : MemIndex → V) {f : V → MemIndex → V}
    (h : ∀ m n, part (m.mergeFrom n) = f (part m) n) (generations : List MemIndex) :
    generations.foldl f (part new) = part (generations.foldl mergeFrom new) :=
  foldl_hom part fun m n => (h m n).symm

theorem freezeShared_eq (generations : List MemIndex) :
    freezeShared generations = (generations.foldl mergeFrom new).freeze := by
  have hterms : frozenTerms generations = (generations.foldl mergeFrom new).terms :=
    foldl_part terms mergeFrom_terms generations
  have hlengths : frozenLengths generations = (generations.foldl mergeFrom new).docLengths :=
    foldl_part docLengths mergeFrom_docLengths generations
  have hstats : frozenStats generations = (generations.foldl mergeFrom new).fieldStats :=
    foldl_part fieldStats mergeFrom_fieldStats generations
  have hpoints : frozenPoints generations = (generations.foldl mergeFrom new).numericPoints :=
    foldl_part numericPoints mergeFrom_numericPoints generations
  have hbools : frozenBools generations = (generations.foldl mergeFrom new).boolFields :=
    foldl_part boolFields mergeFrom_boolFields generations
  have hrows : frozenRows generations = (generations.foldl mergeFrom new).arrayRowIndex :=
    foldl_part arrayRowIndex mergeFrom_arrayRowIndex generations
  rw [freezeShared, hterms, hlengths, hstats, hpoints, hbools, hrows]
  rfl

theorem freezeShared_batches (batches : List (List AnalyzedDocument)) :
    freezeShared (batches.map ofDocuments) = (Batches.mergeBatches mergeFrom ofDocuments [] batches).freeze := by
  rw [freezeShared_eq, foldl_map]
  rfl

end MemIndex

/-! ### Agreement -/

/-- Both answer the same about the texts of a field. -/
structure SameTexts (x : XPathId) (r r' : Reader) : Prop where
  lookup : ∀ term, r.lookup term x = r'.lookup term x
  docLen : ∀ d, r.docLen d x = r'.docLen d x
  stats : r.stats x = r'.stats x

/-- Both answer the same about the booleans of a field. -/
structure SameBools (x : XPathId) (r r' : Reader) : Prop where
  trueIds : r.boolTrueIds x = r'.boolTrueIds x
  falseIds : r.boolFalseIds x = r'.boolFalseIds x

namespace MemIndex

open Batches AnalyzedDocument List Option Reader

variable {docs first : List AnalyzedDocument} {batches : List (List AnalyzedDocument)} {x : XPathId}

theorem exactTerms_mergeBatches (first : List AnalyzedDocument) (batches : List (List AnalyzedDocument)) :
    (mergeBatches mergeFrom ofDocuments first batches).ExactTerms :=
  @mergeBatches_induction _ _ mergeFrom ofDocuments (fun m _ => m.ExactTerms) exactTerms_ofDocuments
    (fun _ _ docs h => exactTerms_mergeFrom h (exactTerms_ofDocuments docs)) first batches

theorem ExactTerms.lookupTerm_eq {m n : MemIndex} (hm : m.ExactTerms) (hn : n.ExactTerms) {term : String}
    (hsome : (m.terms.get? ⟨x, term⟩).isSome = (n.terms.get? ⟨x, term⟩).isSome)
    (hposting : ∀ d, m.posting ⟨x, term⟩ d = n.posting ⟨x, term⟩ d) : m.lookupTerm term x = n.lookupTerm term x := by
  simp only [posting] at hposting
  rw [lookupTerm, lookupTerm]
  cases hlist : m.terms.get? ⟨x, term⟩ with
  | none =>
    rw [hlist] at hsome
    exact (isSome_eq_false_iff.mp hsome.symm |> isNone_iff_eq_none.mp).symm
  | some list =>
    rw [hlist] at hsome hposting
    obtain ⟨list', hlist'⟩ := isSome_iff_exists.mp hsome.symm
    rw [hlist'] at hposting ⊢
    exact congrArg some ((hm _ list hlist).ext (hn _ list' hlist') hposting)

theorem merged_texts (hapart : TextApart x docs) (h : first ++ batches.flatten = docs) :
    SameTexts x (.mem (mergeBatches mergeFrom ofDocuments first batches)) (.mem (ofDocuments docs)) ∧
      ∀ term, (mergeBatches mergeFrom ofDocuments first batches).lookupTerm term x =
        (ofDocuments docs).lookupTerm term x := by
  have htext : ∀ d, (mergeBatches mergeFrom ofDocuments first batches).textAt x d =
      (ofDocuments docs).textAt x d := fun d => (joins_textAt hapart d).merged textAt_mergeFrom h
  have hlookup : ∀ term, (mergeBatches mergeFrom ofDocuments first batches).lookupTerm term x =
      (ofDocuments docs).lookupTerm term x := by
    intro term
    refine (exactTerms_mergeBatches first batches).lookupTerm_eq (exactTerms_ofDocuments docs)
      (merged_isSome h ⟨x, term⟩) fun d => ?_
    exact congrFun (congrArg Prod.fst (htext d)) term
  refine ⟨⟨fun term => ?_, fun d => congrArg Prod.snd (htext d), ?_⟩, hlookup⟩
  · rw [Reader.lookup, Reader.lookup, lookupOrEmpty, lookupOrEmpty, hlookup]
  · exact (joins_stats hapart).merged (fun m n => stats_mergeFrom m n x) h

/-- Whichever way the documents are cut, the merged tables of the pieces answer as one table of
all documents does; and so does the segment frozen from them, about a number as far as the field
has numbers of one kind and the id one of them. -/
theorem batches_agree (docs : List AnalyzedDocument) (x : XPathId) :
    (∀ (first : List AnalyzedDocument) (batches : List (List AnalyzedDocument)), first ++ batches.flatten = docs →
      let merged := mergeBatches mergeFrom ofDocuments first batches
      (TextApart x docs → SameTexts x (.mem merged) (.mem (ofDocuments docs)) ∧
        ∀ term, merged.lookupTerm term x = (ofDocuments docs).lookupTerm term x) ∧
      (∀ lo hi, (Reader.mem merged).numericRange x lo hi = (Reader.mem (ofDocuments docs)).numericRange x lo hi) ∧
      (∀ d, (Reader.mem merged).numericValue x d = (Reader.mem (ofDocuments docs)).numericValue x d) ∧
      SameBools x (.mem merged) (.mem (ofDocuments docs))) ∧
    ∀ batches : List (List AnalyzedDocument), batches.flatten = docs →
      let frozen := freezeShared (batches.map ofDocuments)
      let points := docs.flatMap filedPoints
      (TextApart x docs → SameTexts x (.seg frozen) (.mem (ofDocuments docs))) ∧
      (∀ k : NumericKind, (∀ p ∈ points, p.xpath = x → p.value.kind = k) →
        (∀ lo hi : Option NumericBound, (∀ b ∈ lo, b.value.kind = k) → (∀ b ∈ hi, b.value.kind = k) →
          (seg frozen).numericRange x lo hi = (Reader.mem (ofDocuments docs)).numericRange x lo hi) ∧
        ∀ d, OneValueAt points x d →
          (seg frozen).numericValue x d = (Reader.mem (ofDocuments docs)).numericValue x d) ∧
      SameBools x (.seg frozen) (.mem (ofDocuments docs)) := by
  have hpoints := madeOf_ofDocuments docs
  constructor
  · intro first batches h merged
    have hmerged : merged.numericPoints.MadeOf (docs.flatMap filedPoints) := by
      rw [← h]
      exact madeOf_mergeBatches first batches
    refine ⟨fun hapart => merged_texts hapart h, fun lo hi => ?_, fun d => hmerged.get_congr hpoints x d, ?_⟩
    · have hrange : merged.numericPoints.range x lo hi = (ofDocuments docs).numericPoints.range x lo hi :=
        (hmerged.range_eq x lo hi).trans (hpoints.range_eq x lo hi).symm
      exact congrArg Segment.idPostings hrange
    · exact ⟨merged_boolTrueIds h x, merged_boolFalseIds h x⟩
  · intro batches h frozen points
    have hfrozen : frozen = (mergeBatches mergeFrom ofDocuments [] batches).freeze :=
      freezeShared_batches batches
    have hcut : [] ++ batches.flatten = docs := h
    have hmerged := madeOf_mergeBatches [] batches
    rw [hcut] at hmerged
    rw [hfrozen]
    refine ⟨fun hapart => ?_, fun k hk => ⟨fun lo hi hlo hhi => ?_, fun d hone => ?_⟩, ?_⟩
    · obtain ⟨⟨hlookup, hlength, hstats⟩, -⟩ := merged_texts hapart hcut
      exact ⟨hlookup, hlength, hstats⟩
    · have hrange := (hmerged.build_range_eq hk hlo hhi).trans
        ((hmerged.range_eq x lo hi).trans (hpoints.range_eq x lo hi).symm)
      exact congrArg Segment.idPostings hrange
    · exact (hmerged.build_get_of_oneValue hk hone).trans (hmerged.get_congr hpoints x d)
    · exact ⟨merged_boolTrueIds hcut x, merged_boolFalseIds hcut x⟩

def oneWord : AnalyzedTarget := ⟨[⟨0, 1, [⟨"red", [0], 1⟩]⟩], [], []⟩

def numbersOnly (id : DocId) (values : List NumericValue) : AnalyzedDocument :=
  ⟨id, ⟨[], values.map fun v => ⟨0, v⟩, []⟩, []⟩

/-- Two documents with a row each, in two batches. -/
theorem batches_agree_two :
    let docs : List AnalyzedDocument := [⟨1, oneWord, [⟨2, none, oneWord⟩]⟩, ⟨3, oneWord, [⟨4, none, oneWord⟩]⟩]
    SameTexts 0 (.mem (mergeBatches mergeFrom ofDocuments [] [docs.take 1, docs.drop 1]))
        (.mem (ofDocuments docs)) ∧
      SameTexts 0 (.seg (freezeShared ([docs.take 1, docs.drop 1].map ofDocuments))) (.mem (ofDocuments docs)) := by
  intro docs
  have hapart : TextApart 0 docs := by
    refine pairwise_pair.mpr ?_
    rintro d ⟨t, ht, hid, -⟩ ⟨t', ht', hid', -⟩
    simp only [targets, map_cons, map_nil, mem_cons, not_mem_nil,
      or_false] at ht ht'
    rcases ht with rfl | rfl <;> rcases ht' with rfl | rfl <;> exact absurd (hid.trans hid'.symm) (by decide)
  obtain ⟨hmerged, hfrozen⟩ := batches_agree docs 0
  exact ⟨((hmerged [] [docs.take 1, docs.drop 1] rfl).1 hapart).1,
    (hfrozen [docs.take 1, docs.drop 1] rfl).1 hapart⟩

/-- Of two values of a document a table gives the first, a segment the last; a segment reads a
float in a field of integers as an integer; and a row that has the id of a later document is
counted twice. -/
theorem batches_disagree :
    (seg (freezeShared [ofDocuments [numbersOnly 1 [.int 1, .int 2]]])).numericValue 0 1 ≠
        (Reader.mem (ofDocuments [numbersOnly 1 [.int 1, .int 2]])).numericValue 0 1 ∧
      (let docs := [numbersOnly 1 [.int 1], numbersOnly 2 [.float 2]]
       docs.Pairwise (fun a b => a.docId < b.docId) ∧
        (seg (freezeShared [ofDocuments docs])).numericValue 0 2 ≠
          (Reader.mem (ofDocuments docs)).numericValue 0 2) ∧
      let docs : List AnalyzedDocument := [⟨1, oneWord, [⟨2, none, oneWord⟩]⟩, ⟨2, oneWord, []⟩]
      docs.Pairwise (fun a b => a.docId < b.docId) ∧
        ((Reader.mem (mergeBatches mergeFrom ofDocuments [] [docs.take 1, docs.drop 1])).stats 0).docCount ≠
          ((Reader.mem (ofDocuments docs)).stats 0).docCount := by
  refine ⟨by decide, ⟨by decide, by decide⟩, by decide, by decide⟩

end MemIndex
