/-
The lengths of a field over the parts of an index.

Every part counts the lengths it has in a field and adds them up.  As long as no
two parts have a length under the same id, and none is the one that stands for a
missing length, all of these agree.
-/
import Riets.IdSpan
import Riets.NoLoss

open List SortedMap IndexAction

def lengthsAt (lengths : SortedMap LengthKey ℕ) (x : XPathId) : List (LengthKey × ℕ) :=
  lengths.entries.filter fun e => (ofLex e.1).2 = x

theorem mem_lengthsAt {lengths : SortedMap LengthKey ℕ} {x : XPathId} {e : LengthKey × ℕ} :
    e ∈ lengthsAt lengths x ↔ ∃ d, e.1 = toLex (d, x) ∧ lengths.get? (toLex (d, x)) = some e.2 := by
  rw [lengthsAt, mem_filter, decide_eq_true_eq]
  constructor
  · rintro ⟨hmem, rfl⟩
    exact ⟨(ofLex e.1).1, rfl, mem_entries.mp hmem⟩
  · rintro ⟨d, hkey, hget⟩
    rw [← hkey] at hget
    exact ⟨mem_entries.mpr hget, by rw [hkey]; rfl⟩

theorem nodup_lengthsAt (lengths : SortedMap LengthKey ℕ) (x : XPathId) : (lengthsAt lengths x).Nodup :=
  (Compaction.nodup_entries lengths).sublist filter_sublist

def tally (lengths : List (LengthKey × ℕ)) : FieldStats := ⟨lengths.length, (lengths.map Prod.snd).sum⟩

theorem tally_append (a b : List (LengthKey × ℕ)) : tally (a ++ b) = (tally a).add (tally b) := by
  simp [tally, FieldStats.add]

theorem tally_perm {a b : List (LengthKey × ℕ)} (h : a.Perm b) : tally a = tally b := by
  rw [tally, tally, h.length_eq, (h.map Prod.snd).sum_eq]

theorem MemIndex.mergeFrom_fieldStats (m n : MemIndex) : (m.mergeFrom n).fieldStats =
    m.fieldStats.mergeWith (fun o s => (o.getD default).add s) n.fieldStats := by
  rw [mergeFrom]
  cases n.docIdRange <;> rfl

namespace Reader

open List MemIndex Compaction

def lengths (r : Reader) : SortedMap LengthKey ℕ :=
  match r with
  | mem m => m.docLengths
  | seg s => s.docLengths

def stats (r : Reader) (x : XPathId) : FieldStats :=
  match r with
  | mem m => (m.fieldStats.get? x).getD default
  | seg s => (s.fieldStats.get? x).getD default

theorem docLen_eq (r : Reader) (d : DocId) (x : XPathId) : r.docLen d x = r.lengths.get? (toLex (d, x)) := by
  cases r with
  | mem m => rfl
  | seg s => rfl

def Fits (r : Reader) : Prop := ∀ d x, r.docLen d x ≠ some u32Max

/-- No length of field `x` is the one that stands for a missing length. -/
def FitsAt (x : XPathId) (r : Reader) : Prop := ∀ d, r.docLen d x ≠ some u32Max

def Tallied (r : Reader) (x : XPathId) : Prop := r.stats x = tally (lengthsAt r.lengths x)

/-- The parts have no length of field `x` under the same id. -/
def ApartAt (x : XPathId) (a b : Reader) : Prop := ∀ d, a.docLen d x = none ∨ b.docLen d x = none

instance (x : XPathId) : Std.Symm (ApartAt x) := ⟨fun _ _ h d => (h d).symm⟩

/-- No two of the parts have a length of field `x` under the same id. -/
def Apart (x : XPathId) (group : List Reader) : Prop := group.Pairwise (ApartAt x)

variable {r : Reader} {group : List Reader} {x : XPathId}

variable {d : DocId}

theorem Apart.docLen_unique (h : Apart x group) {a b : Reader} (ha : a ∈ group) (hb : b ∈ group)
    {len len' : ℕ} (hlen : a.docLen d x = some len) (hlen' : b.docLen d x = some len') : len = len' := by
  by_cases hab : a = b
  · subst hab
    exact Option.some_inj.mp (hlen.symm.trans hlen')
  · rcases h.forall ha hb hab d with hnone | hnone
    · exact absurd (hlen.symm.trans hnone) (by simp)
    · exact absurd (hlen'.symm.trans hnone) (by simp)

theorem Apart.offers_iff (h : Apart x group) {o : Option ℕ}
    (hsome : ∀ len, o = some len → ∃ g ∈ group, g.docLen d x = some len)
    (hnone : o ≠ none ↔ ∃ g ∈ group, g.docLen d x ≠ none) (len : ℕ) :
    o = some len ↔ ∃ g ∈ group, g.docLen d x = some len := by
  refine ⟨hsome len, ?_⟩
  rintro ⟨g, hg, hlen⟩
  obtain ⟨len', rfl⟩ := Option.ne_none_iff_exists'.mp (hnone.mpr ⟨g, hg, by simp [hlen]⟩)
  obtain ⟨g', hg', hlen'⟩ := hsome len' rfl
  rw [h.docLen_unique hg' hg hlen' hlen]

theorem Apart.nodup_lengths (h : Apart x group) : (group.flatMap fun g => lengthsAt g.lengths x).Nodup := by
  refine nodup_flatMap.mpr ⟨fun g _ => nodup_lengthsAt g.lengths x, h.imp fun {a b} hab => ?_⟩
  intro e ha hb
  obtain ⟨d, hkey, hlen⟩ := mem_lengthsAt.mp ha
  obtain ⟨d', hkey', hlen'⟩ := mem_lengthsAt.mp hb
  obtain rfl : d = d' := (Prod.mk.inj (toLex.injective (hkey.symm.trans hkey'))).1
  rcases hab d with hnone | hnone
  · rw [docLen_eq, hlen] at hnone
    cases hnone
  · rw [docLen_eq, hlen'] at hnone
    cases hnone

theorem mem_lengths {e : LengthKey × ℕ} : (e ∈ group.flatMap fun g => lengthsAt g.lengths x) ↔
    ∃ d, e.1 = toLex (d, x) ∧ ∃ g ∈ group, g.docLen d x = some e.2 := by
  simp only [mem_flatMap, mem_lengthsAt, docLen_eq]
  constructor
  · rintro ⟨g, hg, d, hkey, hlen⟩
    exact ⟨d, hkey, g, hg, hlen⟩
  · rintro ⟨d, hkey, g, hg, hlen⟩
    exact ⟨g, hg, d, hkey, hlen⟩

variable {lengths : SortedMap LengthKey ℕ}

theorem Apart.perm_lengthsAt (h : Apart x group)
    (hiff : ∀ d len, lengths.get? (toLex (d, x)) = some len ↔ ∃ g ∈ group, g.docLen d x = some len) :
    (lengthsAt lengths x).Perm (group.flatMap fun g => lengthsAt g.lengths x) := by
  refine (perm_ext_iff_of_nodup (nodup_lengthsAt lengths x) h.nodup_lengths).mpr fun e => ?_
  rw [mem_lengthsAt, mem_lengths]
  exact exists_congr fun d => and_congr_right fun _ => hiff d e.2

/-! ### What is made of parts -/

theorem openLengths_kept
    (hfits : lengths.get? (toLex (d, x)) ≠ some u32Max) (hlen : lengths.get? (toLex (d, x)) ≠ none) :
    (Segment.openLengths lengths).get? (toLex (d, x)) ≠ none := by
  rw [Segment.get?_openLengths]
  obtain ⟨len, hlen⟩ := Option.ne_none_iff_exists'.mp hlen
  have hne : len ≠ u32Max := fun heq => hfits (heq ▸ hlen)
  simp [hlen, Option.filter, hne]

theorem kept_mergeFrom (m n : MemIndex) (hlen : ∃ g ∈ [mem m, mem n], g.docLen d x ≠ none) :
    (mem (m.mergeFrom n)).docLen d x ≠ none := by
  rw [docLen, mergeFrom_docLengths, get?_mergeWith]
  cases hn : n.docLengths.get? (toLex (d, x)) with
  | none => simpa [docLen, hn] using hlen
  | some len' => simp

theorem kept_frozen (generations : List MemIndex)
    (hlen : ∃ g ∈ generations.map mem, g.docLen d x ≠ none) :
    (frozenLengths generations).get? (toLex (d, x)) ≠ none := by
  refine (get?_frozenLengths generations (toLex (d, x))).2.mpr ?_
  obtain ⟨-, ⟨g, hg, rfl⟩, hne⟩ := by simpa only [mem_map] using hlen
  exact ⟨g, hg, hne⟩

theorem Makes.lengths_kept {deleted : DeleteSet} (h : Makes deleted r group) (hfits : ∀ g ∈ group, g.FitsAt x)
    (hd : d ∉ deleted) (hlen : ∃ g ∈ group, g.docLen d x ≠ none) : r.docLen d x ≠ none := by
  cases h with
  | new => simp at hlen
  | mergeFrom m n => exact kept_mergeFrom m n hlen
  | freezeShared generations => exact kept_frozen generations hlen
  | write job =>
    refine openLengths_kept (fun hmax => ?_) (kept_frozen job.generations hlen)
    obtain ⟨g, hg, hlen⟩ := (get?_frozenLengths job.generations (toLex (d, x))).1 u32Max hmax
    exact hfits (mem g) (mem_map_of_mem hg) d hlen
  | compacted _ opened =>
    rw [docLen, Segment.docLen, docLengths_compacted]
    refine openLengths_kept (fun hmax => ?_) ?_
    · obtain ⟨s, hs, hlen⟩ := (get?_mergedLengths_spec deleted opened d x).1 u32Max hmax
      exact hfits (seg s) (mem_map_of_mem hs) d hlen
    · refine (get?_mergedLengths_spec deleted opened d x).2.mpr ⟨hd, ?_⟩
      obtain ⟨-, ⟨s, hs, rfl⟩, hne⟩ := by simpa only [mem_map] using hlen
      exact ⟨s, hs, hne⟩

theorem Makes.perm_of_kept {deleted : DeleteSet} (h : Makes deleted r group) (hapart : Apart x group)
    (hkept : ∀ d, (∃ g ∈ group, g.docLen d x ≠ none) → r.docLen d x ≠ none) :
    (lengthsAt r.lengths x).Perm (group.flatMap fun g => lengthsAt g.lengths x) := by
  refine hapart.perm_lengthsAt fun d len => ?_
  rw [← docLen_eq]
  refine hapart.offers_iff (fun len hlen => h.docLen_mem hlen) ⟨fun hne => ?_, hkept d⟩ len
  obtain ⟨len', hlen'⟩ := Option.ne_none_iff_exists'.mp hne
  obtain ⟨g, hg, hlen⟩ := h.docLen_mem hlen'
  exact ⟨g, hg, by simp [hlen]⟩

theorem Makes.perm_lengths (h : Makes ∅ r group) (hapart : Apart x group) (hfits : ∀ g ∈ group, g.FitsAt x) :
    (lengthsAt r.lengths x).Perm (group.flatMap fun g => lengthsAt g.lengths x) :=
  h.perm_of_kept hapart fun _ => h.lengths_kept hfits (Finset.notMem_empty _)

theorem stats_mergeWith (m n : SortedMap XPathId FieldStats) (x : XPathId) :
    ((m.mergeWith (fun o s => (o.getD default).add s) n).get? x).getD default =
      ((m.get? x).getD default).add ((n.get? x).getD default) := by
  rw [get?_mergeWith]
  cases n.get? x with
  | none => rfl
  | some s => rfl

theorem stats_mergeFrom (m n : MemIndex) (x : XPathId) :
    (mem (m.mergeFrom n)).stats x = ((mem m).stats x).add ((mem n).stats x) := by
  rw [stats, mergeFrom_fieldStats, stats_mergeWith]
  rfl

theorem stats_freezeShared (generations : List MemIndex) (x : XPathId) :
    (seg (freezeShared generations)).stats x =
      generations.foldl (fun acc g => acc.add ((mem g).stats x)) default := by
  change ((frozenStats generations).get? x).getD default = _
  rw [frozenStats]
  induction generations using reverseRecOn with
  | nil => rfl
  | append_singleton gs g ih =>
    rw [foldl_append, foldl_append, ← ih]
    exact stats_mergeWith _ _ x

theorem tally_flatMap (generations : List MemIndex) (x : XPathId)
    (hg : ∀ g ∈ generations.map mem, g.Tallied x) :
    generations.foldl (fun acc g => acc.add ((mem g).stats x)) default =
      tally ((generations.map mem).flatMap fun g => lengthsAt g.lengths x) := by
  induction generations using reverseRecOn with
  | nil => rfl
  | append_singleton gs g ih =>
    rw [map_append, flatMap_append, tally_append, foldl_append,
      ih fun g' hg' => hg g' (by rw [map_append]; exact mem_append_left _ hg')]
    rw [map_singleton, flatMap_singleton]
    exact congrArg (FieldStats.add _) (hg (mem g) (by simp))

theorem Makes.tallied {deleted : DeleteSet} (h : Makes deleted r group) (hapart : Apart x group)
    (hg : ∀ g ∈ group, g.Tallied x) : r.Tallied x := by
  cases h with
  | new => rfl
  | mergeFrom m n =>
    have hstats := stats_mergeFrom m n x
    have hperm := Makes.perm_of_kept (.mergeFrom m n) hapart fun _ => kept_mergeFrom m n
    rw [flatMap_cons, flatMap_singleton] at hperm
    rw [Tallied, hstats, tally_perm hperm, tally_append, hg (mem m) (by simp), hg (mem n) (by simp)]
  | freezeShared generations =>
    have hperm := Makes.perm_of_kept (.freezeShared generations) hapart fun _ => kept_frozen generations
    rw [Tallied, stats_freezeShared, tally_flatMap generations x hg, tally_perm hperm]
  | write job =>
    -- the lengths are counted anew when the file is opened
    exact buildFieldStats_get? _ x
  | compacted _ opened => exact stats_compacted deleted

/-- Parts that are apart in field `x`, with lengths that fit, and that report them. -/
structure Counted (x : XPathId) (l : List Reader) : Prop where
  apart : Apart x l
  fits : ∀ r ∈ l, r.Fits
  tallied : ∀ r ∈ l, r.Tallied x

def allLengths (x : XPathId) (l : List Reader) : List (LengthKey × ℕ) := l.flatMap fun r => lengthsAt r.lengths x

section Regroup

variable {deleted : DeleteSet} {l l' : List Reader} (h : Regroup (Makes deleted) l l')
include h

theorem Apart.regroup (hl : Apart x l) : Apart x l' := by
  induction h with
  | perm hperm => exact hperm.pairwise hl fun h d => (h d).symm
  | @gather a group rest hmakes =>
    obtain ⟨-, hrest, hcross⟩ := pairwise_append.mp hl
    refine pairwise_cons.mpr ⟨fun b hb d => ?_, hrest⟩
    by_cases hlen : a.docLen d x = none
    · exact .inl hlen
    · obtain ⟨len, hlen⟩ := Option.ne_none_iff_exists'.mp hlen
      obtain ⟨g, hg, hlen⟩ := hmakes.docLen_mem hlen
      exact .inr ((hcross g hg b hb d).resolve_left (by simp [hlen]))
  | trans _ _ ih ih' => exact ih' (ih hl)

theorem docLen_mem_regroup (hr : r ∈ l') {len : ℕ} (hlen : r.docLen d x = some len) :
    ∃ g ∈ l, g.docLen d x = some len := by
  have hall := h.all_of_all (P := fun r => ∀ d len, r.docLen d x = some len → ∃ g ∈ l, g.docLen d x = some len)
    (fun r group hmakes hgroup d len hlen => ?_) (fun r hr d len hlen => ⟨r, hr, hlen⟩)
  · exact hall r hr d len hlen
  · obtain ⟨g, hg, hlen⟩ := hmakes.docLen_mem hlen
    exact hgroup g hg d len hlen

theorem tallied_regroup (hapart : Apart x l) (hl : ∀ r ∈ l, r.Tallied x) : ∀ r ∈ l', r.Tallied x := by
  induction h with
  | perm hperm => exact fun r hr => hl r (hperm.mem_iff.mpr hr)
  | gather rest hmakes =>
    intro r hr
    rcases mem_cons.mp hr with rfl | hr
    · exact hmakes.tallied (pairwise_append.mp hapart).1 fun g hg => hl g (mem_append_left _ hg)
    · exact hl r (mem_append_right _ hr)
  | trans h _ ih ih' => exact ih' (hapart.regroup h) (ih hapart hl)

theorem Counted.kept (hl : Counted x l) : Counted x l' where
  apart := hl.apart.regroup h
  fits r hr d x hlen := by
    obtain ⟨g, hg, hlen⟩ := docLen_mem_regroup h hr hlen
    exact hl.fits g hg d x hlen
  tallied := tallied_regroup h hl.apart hl.tallied

end Regroup

theorem Counted.regroup {l l' : List Reader} (h : Regroup (Makes ∅) l l') (hl : Counted x l) :
    Counted x l' ∧ (allLengths x l').Perm (allLengths x l) := by
  refine ⟨hl.kept h, ?_⟩
  induction h with
  | perm hperm => exact hperm.symm.flatMap_right _
  | gather rest hmakes =>
    have hfits := fun g hg d => hl.fits g (mem_append_left rest hg) d x
    rw [allLengths, allLengths, flatMap_cons, flatMap_append]
    exact (hmakes.perm_lengths (pairwise_append.mp hl.apart).1 hfits).append_right _
  | trans h _ ih ih' => exact (ih' (hl.kept h)).trans (ih hl)

end Reader

/-! ### A table of documents -/

def AnalyzedTarget.length? (t : AnalyzedTarget) (x : XPathId) : Option ℕ :=
  t.fields.foldl (fun old field => if field.xpath = x then some field.docLen else old) none

def targetLengths (x : XPathId) (targets : List (DocId × AnalyzedTarget)) : List (LengthKey × ℕ) :=
  targets.filterMap fun t => (t.2.length? x).map fun len => (toLex (t.1, x), len)

def FieldStats.one : Option ℕ → FieldStats
  | none => ⟨0, 0⟩
  | some len => ⟨1, len⟩

namespace MemIndex

open List Option

structure SameText (m n : MemIndex) : Prop where
  terms : m.terms = n.terms
  docLengths : m.docLengths = n.docLengths
  fieldStats : m.fieldStats = n.fieldStats

theorem SameText.foldl {α : Type*} {f : MemIndex → α → MemIndex}
    (hf : ∀ a m n, SameText m n → SameText (f m a) (f n a)) (l : List α) {m n : MemIndex} (h : SameText m n) :
    SameText (l.foldl f m) (l.foldl f n) := by
  induction l generalizing m n with
  | nil => exact h
  | cons a l ih => exact ih (hf a m n h)

theorem SameText.applyTarget {m n : MemIndex} (h : SameText m n) (id : DocId) (t : AnalyzedTarget) :
    SameText (m.applyTarget id t) (n.applyTarget id t) := by
  have hterm : ∀ x (t : AnalyzedTerm) m n, SameText m n →
      SameText (m.addPostingWeighted t.term x id t.positions t.weight)
        (n.addPostingWeighted t.term x id t.positions t.weight) := by
    intro x t m n h
    refine ⟨?_, h.docLengths, h.fieldStats⟩
    simp only [addPostingWeighted, h.terms]
  have hfield : ∀ (field : AnalyzedField) m n, SameText m n →
      SameText (m.applyField id field) (n.applyField id field) := by
    intro field m n h
    unfold applyField
    refine SameText.foldl (fun t => hterm field.xpath t) field.terms ⟨h.terms, ?_, ?_⟩
    · simp only [h.docLengths]
    · simp only [h.docLengths, h.fieldStats]
  refine SameText.foldl (f := fun m p => m.addBool id p) (fun _ _ _ h => ⟨h.1, h.2, h.3⟩) t.boolPoints ?_
  refine SameText.foldl (f := fun m p => m.addNumber id p) (fun _ _ _ h => ⟨h.1, h.2, h.3⟩) t.numericPoints ?_
  exact SameText.foldl (f := fun m field => m.applyField id field) hfield t.fields h

def applyTargets (m : MemIndex) (targets : List (DocId × AnalyzedTarget)) : MemIndex :=
  targets.foldl (fun m t => m.applyTarget t.1 t.2) m

theorem sameText_addAnalyzedDocument {m n : MemIndex} (h : SameText m n) (doc : AnalyzedDocument) :
    SameText (m.addAnalyzedDocument doc) (n.applyTargets doc.targets) := by
  have hmain : SameText ((m.trackDocId doc.docId).applyTarget doc.docId doc.main)
      (n.applyTarget doc.docId doc.main) :=
    SameText.applyTarget (m := m.trackDocId doc.docId) ⟨h.1, h.2, h.3⟩ doc.docId doc.main
  rw [addAnalyzedDocument, applyTargets, AnalyzedDocument.targets, foldl_cons, foldl_map]
  have hrows : ∀ (rows : List AnalyzedArrayRow) {m n : MemIndex}, SameText m n →
      SameText (rows.foldl (fun m row => m.addArrayRow doc.docId row) m)
        (rows.foldl (fun m row => m.applyTarget row.arrayRowId row.target) n) := by
    intro rows
    induction rows with
    | nil => exact fun h => h
    | cons row rows ih =>
      intro m n h
      refine ih (SameText.applyTarget (m := { m with
        arrayRowIndex := m.arrayRowIndex.pushRow row.arrayRowId doc.docId row.parent })
        ⟨h.1, h.2, h.3⟩ row.arrayRowId row.target)
  exact hrows doc.arrayRows hmain

theorem sameText_ofDocuments (docs : List AnalyzedDocument) :
    SameText (ofDocuments docs) (new.applyTargets (docs.flatMap AnalyzedDocument.targets)) := by
  induction docs using reverseRecOn with
  | nil => exact ⟨rfl, rfl, rfl⟩
  | append_singleton docs doc ih =>
    rw [ofDocuments, foldl_append, flatMap_append, applyTargets, foldl_append]
    rw [flatMap_singleton]
    exact sameText_addAnalyzedDocument ih doc

section Lengths

variable {m : MemIndex} {id : DocId} {x : XPathId} {base : FieldStats}

/-- The counts are those of the other ids and what is filed under `id`. -/
def CountsOver (base : FieldStats) (id : DocId) (x : XPathId) (m : MemIndex) : Prop :=
  (Reader.mem m).stats x = base.add (.one (m.docLengths.get? (toLex (id, x))))

theorem length_applyField (h : CountsOver base id x m) (field : AnalyzedField) :
    (m.applyField id field).docLengths.get? (toLex (id, x)) =
        (if field.xpath = x then some field.docLen else m.docLengths.get? (toLex (id, x))) ∧
      CountsOver base id x (m.applyField id field) := by
  -- the terms of the field change neither lengths nor counts
  obtain ⟨hlengths, hstats⟩ : (m.applyField id field).docLengths =
        (m.applyField id ⟨field.xpath, field.docLen, []⟩).docLengths ∧
      (m.applyField id field).fieldStats = (m.applyField id ⟨field.xpath, field.docLen, []⟩).fieldStats := by
    unfold applyField
    refine foldl_keeps (P := fun m' => m'.docLengths = _ ∧ m'.fieldStats = _) ?_ _ ⟨rfl, rfl⟩
    exact fun _ _ h => h
  rw [CountsOver, Reader.stats, hlengths, hstats]
  simp only [applyField, foldl_nil]
  rw [get?_insert, get?_upsert]
  by_cases hx : field.xpath = x
  · subst hx
    rw [if_pos rfl, if_pos rfl, if_pos rfl]
    refine ⟨rfl, ?_⟩
    rw [CountsOver, Reader.stats] at h
    cases hlen : m.docLengths.get? (toLex (id, field.xpath)) with
    | none =>
      rw [hlen] at h
      simp only [getD_some, h, FieldStats.add, FieldStats.one]
      rfl
    | some oldLen =>
      rw [hlen] at h
      simp only [getD_some, h, FieldStats.add, FieldStats.one]
      refine congrArg (FieldStats.mk _) ?_
      omega
  · have hkey : ¬toLex (id, x) = toLex (id, field.xpath) := fun heq =>
      hx (Prod.mk.inj (toLex.injective heq)).2.symm
    rw [if_neg hx, if_neg hkey, if_neg (Ne.symm hx)]
    exact ⟨rfl, h⟩

theorem length_applyTarget (h : CountsOver base id x m) (t : AnalyzedTarget) :
    (m.applyTarget id t).docLengths.get? (toLex (id, x)) = (t.length? x).or (m.docLengths.get? (toLex (id, x))) ∧
      CountsOver base id x (m.applyTarget id t) := by
  have hfields : ∀ (fields : List AnalyzedField) (m : MemIndex) (old : Option ℕ), CountsOver base id x m →
      (fields.foldl (fun m field => m.applyField id field) m).docLengths.get? (toLex (id, x)) =
          (fields.foldl (fun old field => if field.xpath = x then some field.docLen else old) none).or
            (m.docLengths.get? (toLex (id, x))) ∧
        CountsOver base id x (fields.foldl (fun m field => m.applyField id field) m) := by
    intro fields
    induction fields using reverseRecOn with
    | nil => exact fun m old h => ⟨rfl, h⟩
    | append_singleton fields field ih =>
      intro m old h
      obtain ⟨hlen, hcounts⟩ := ih m old h
      obtain ⟨hlen', hcounts'⟩ := length_applyField hcounts field
      rw [foldl_append, foldl_append]
      refine ⟨hlen'.trans ?_, hcounts'⟩
      rw [foldl_cons, foldl_nil]
      split_ifs
      · rfl
      · exact hlen
  have hall := hfields t.fields m none h
  refine foldl_keeps (P := fun m' => m'.docLengths.get? (toLex (id, x)) =
    (t.length? x).or (m.docLengths.get? (toLex (id, x))) ∧ CountsOver base id x m')
    (f := fun m p => m.addBool id p) (fun _ _ h => h) t.boolPoints ?_
  exact foldl_keeps (P := fun m' => m'.docLengths.get? (toLex (id, x)) =
    (t.length? x).or (m.docLengths.get? (toLex (id, x))) ∧ CountsOver base id x m')
    (f := fun m p => m.addNumber id p) (fun _ _ h => h) t.numericPoints hall

def otherLengths (lengths : SortedMap LengthKey ℕ) (id : DocId) (x : XPathId) : List (LengthKey × ℕ) :=
  (lengthsAt lengths x).filter fun e => e.1 ≠ toLex (id, x)

def ownEntry (id : DocId) (x : XPathId) (length : Option ℕ) : List (LengthKey × ℕ) :=
  (length.map fun len => (toLex (id, x), len)).toList

theorem tally_ownEntry (length : Option ℕ) : tally (ownEntry id x length) = .one length := by
  cases length with
  | none => rfl
  | some len => rfl

theorem perm_otherLengths (lengths : SortedMap LengthKey ℕ) (id : DocId) (x : XPathId) :
    (lengthsAt lengths x).Perm
      (otherLengths lengths id x ++ ownEntry id x (lengths.get? (toLex (id, x)))) := by
  have hother : (otherLengths lengths id x).Nodup := (nodup_lengthsAt lengths x).filter _
  refine (perm_ext_iff_of_nodup (nodup_lengthsAt lengths x) ?_).mpr fun e => ?_
  · refine nodup_append.mpr ⟨hother, ?_, fun a ha b hb hab => ?_⟩
    · cases lengths.get? (toLex (id, x)) <;> simp [ownEntry]
    · subst hab
      have hne := of_decide_eq_true (mem_filter.mp ha).2
      cases hlen : lengths.get? (toLex (id, x)) with
      | none => simp [hlen, ownEntry] at hb
      | some len =>
        rw [hlen] at hb
        exact hne (congrArg Prod.fst (mem_singleton.mp hb))
  · rw [mem_append, otherLengths, mem_filter, decide_eq_true_eq]
    constructor
    · intro he
      by_cases hkey : e.1 = toLex (id, x)
      · obtain ⟨d, hd, hlen⟩ := mem_lengthsAt.mp he
        rw [← hd, hkey] at hlen
        refine .inr ?_
        rw [hlen]
        exact mem_singleton.mpr (Prod.ext hkey rfl)
      · exact .inl ⟨he, hkey⟩
    · rintro (⟨he, -⟩ | he)
      · exact he
      · cases hlen : lengths.get? (toLex (id, x)) with
        | none => simp [hlen, ownEntry] at he
        | some len =>
          rw [hlen] at he
          obtain rfl := mem_singleton.mp he
          exact mem_lengthsAt.mpr ⟨id, rfl, hlen⟩

theorem perm_otherLengths_congr {lengths lengths' : SortedMap LengthKey ℕ}
    (h : ∀ d, d ≠ id → lengths.get? (toLex (d, x)) = lengths'.get? (toLex (d, x))) :
    (otherLengths lengths id x).Perm (otherLengths lengths' id x) := by
  refine (perm_ext_iff_of_nodup ((nodup_lengthsAt lengths x).filter _)
    ((nodup_lengthsAt lengths' x).filter _)).mpr fun e => ?_
  simp only [mem_filter, mem_lengthsAt, decide_eq_true_eq]
  have hmem : ∀ d, e.1 = toLex (d, x) → e.1 ≠ toLex (id, x) →
      lengths.get? (toLex (d, x)) = lengths'.get? (toLex (d, x)) :=
    fun d hd hne => h d fun heq => hne (hd.trans (by rw [heq]))
  constructor
  · rintro ⟨⟨d, hd, hlen⟩, hne⟩
    exact ⟨⟨d, hd, (hmem d hd hne).symm.trans hlen⟩, hne⟩
  · rintro ⟨⟨d, hd, hlen⟩, hne⟩
    exact ⟨⟨d, hd, (hmem d hd hne).trans hlen⟩, hne⟩

theorem tallied_applyTarget (h : (Reader.mem m).Tallied x) (t : AnalyzedTarget)
    (hnone : t.length? x ≠ none → m.docLengths.get? (toLex (id, x)) = none) :
    (Reader.mem (m.applyTarget id t)).Tallied x ∧
      (lengthsAt (m.applyTarget id t).docLengths x).Perm
        (lengthsAt m.docLengths x ++ targetLengths x [(id, t)]) := by
  have hother : (otherLengths (m.applyTarget id t).docLengths id x).Perm (otherLengths m.docLengths id x) :=
    perm_otherLengths_congr fun d hd => (SameAt.applyTarget (.inl hd) m).length
  have hbefore := perm_otherLengths m.docLengths id x
  have hafter := (perm_otherLengths (m.applyTarget id t).docLengths id x).trans (hother.append_right _)
  have hcounts : CountsOver (tally (otherLengths m.docLengths id x)) id x m := by
    rw [CountsOver, h, Reader.lengths, tally_perm hbefore, tally_append, tally_ownEntry]
  obtain ⟨hlen, hcounts'⟩ := length_applyTarget hcounts t
  constructor
  · rw [Reader.Tallied, hcounts', Reader.lengths, tally_perm hafter, tally_append, tally_ownEntry]
  · have htarget : targetLengths x [(id, t)] = ownEntry id x (t.length? x) := by
      rw [targetLengths, filterMap_cons, filterMap_nil]
      cases t.length? x <;> rfl
    refine hafter.trans ?_
    rw [hlen, htarget]
    cases hown : t.length? x with
    | none =>
      rw [none_or, show ownEntry id x none = [] from rfl, append_nil]
      exact hbefore.symm
    | some len =>
      rw [hnone (by simp [hown]), ownEntry, map_none, toList_none, append_nil] at hbefore
      exact hbefore.symm.append_right _

end Lengths

end MemIndex

def Separate (targets : List (DocId × AnalyzedTarget)) : Prop :=
  targets.Pairwise fun a b => a.1 = b.1 → ∀ x, a.2.Touches x → ¬b.2.Touches x

def SeparateAt (x : XPathId) (targets : List (DocId × AnalyzedTarget)) : Prop :=
  targets.Pairwise fun a b => a.1 = b.1 → a.2.length? x = none ∨ b.2.length? x = none

theorem AnalyzedTarget.touches_of_length {t : AnalyzedTarget} {x : XPathId} (h : t.length? x ≠ none) :
    t.Touches x := by
  by_contra hnot
  refine h (foldlRecOn (motive := fun length => length = none) t.fields _ rfl fun old hold field hfield => ?_)
  rw [if_neg fun hx => hnot (.inl ⟨field, hfield, hx⟩)]
  exact hold

variable {targets : List (DocId × AnalyzedTarget)}

theorem Separate.at (h : Separate targets) (x : XPathId) :
    SeparateAt x targets := by
  refine h.imp fun hsep hid => ?_
  by_contra hboth
  rw [not_or] at hboth
  exact hsep hid x (AnalyzedTarget.touches_of_length hboth.1) (AnalyzedTarget.touches_of_length hboth.2)

theorem mem_targetLengths {x : XPathId} {e : LengthKey × ℕ} :
    e ∈ targetLengths x targets ↔ ∃ t ∈ targets, e.1 = toLex (t.1, x) ∧ t.2.length? x = some e.2 := by
  rw [targetLengths, mem_filterMap]
  refine exists_congr fun t => and_congr_right fun _ => ?_
  rw [Option.map_eq_some_iff]
  constructor
  · rintro ⟨len, hlen, rfl⟩
    exact ⟨rfl, hlen⟩
  · rintro ⟨hkey, hlen⟩
    exact ⟨e.2, hlen, Prod.ext hkey.symm rfl⟩

namespace MemIndex

open List

theorem tallied_applyTargets {x : XPathId} (h : SeparateAt x targets) :
    (Reader.mem (new.applyTargets targets)).Tallied x ∧
      (lengthsAt (new.applyTargets targets).docLengths x).Perm (targetLengths x targets) := by
  induction targets using reverseRecOn with
  | nil => exact ⟨rfl, Perm.refl _⟩
  | append_singleton targets t ih =>
    obtain ⟨hbefore, -, hcross⟩ := pairwise_append.mp h
    obtain ⟨htallied, hperm⟩ := ih hbefore
    have hnone : t.2.length? x ≠ none →
        (new.applyTargets targets).docLengths.get? (toLex (t.1, x)) = none := by
      intro hown
      by_contra hne
      -- an earlier target has a length under the same id
      obtain ⟨len, hlen⟩ := Option.ne_none_iff_exists'.mp hne
      have hmem : (toLex (t.1, x), len) ∈ targetLengths x targets :=
        hperm.mem_iff.mp (mem_lengthsAt.mpr ⟨t.1, rfl, hlen⟩)
      obtain ⟨t', ht', hkey, hlen'⟩ := mem_targetLengths.mp hmem
      have hid : t'.1 = t.1 := (Prod.mk.inj (toLex.injective hkey)).1.symm
      rcases hcross t' ht' t (mem_singleton_self t) hid with hnone | hnone
      · rw [hlen'] at hnone
        cases hnone
      · exact hown hnone
    obtain ⟨htallied', hperm'⟩ := tallied_applyTarget htallied t.2 hnone
    rw [applyTargets, foldl_append, targetLengths, filterMap_append]
    exact ⟨htallied', hperm'.trans (hperm.append_right _)⟩

theorem tallied_ofDocuments {docs : List AnalyzedDocument} {x : XPathId}
    (h : SeparateAt x (docs.flatMap AnalyzedDocument.targets)) :
    (Reader.mem (ofDocuments docs)).Tallied x ∧
      (lengthsAt (ofDocuments docs).docLengths x).Perm
        (targetLengths x (docs.flatMap AnalyzedDocument.targets)) := by
  have hsame := sameText_ofDocuments docs
  obtain ⟨htallied, hperm⟩ := tallied_applyTargets h
  rw [Reader.Tallied, Reader.stats, Reader.lengths, hsame.docLengths, hsame.fieldStats]
  exact ⟨htallied, hperm⟩

end MemIndex

namespace World

open List Reader AnalyzedTarget

variable {w : World} {x : XPathId}

def Clean (w : World) : Prop := ∀ d, w.Kept d

theorem counted_step (h : Inv w) (hclean : w.Clean) {a : IndexAction}
    (hcounted : Reader.Counted x (IndexAction.added a ++ w.index.readers)) :
    Reader.Counted x (w.step a).index.readers ∧
      (allLengths x (w.step a).index.readers).Perm
        (allLengths x (IndexAction.added a ++ w.index.readers)) := by
  obtain ⟨deleted, hdeleted, hregroup⟩ := step_makesIn h a
  have hnone : deleted = ∅ := by
    rcases hdeleted with rfl | ⟨job, hjob, -, rfl⟩
    · rfl
    · exact Finset.eq_empty_of_forall_notMem fun d => (hclean d).2 job (mem_append_right _ hjob)
  subst hnone
  exact hcounted.regroup (hregroup.mono fun _ _ hmakes => hmakes.1)

theorem counted_run {as : List IndexAction} (hw : Fresh w) (hstart : w.index.readers = [.mem MemIndex.new])
    (hlive : w.index.deleted = ∅) (hdel : ∀ d ok, .deleteDocument d ok ∉ as)
    (hsep : Separate ((as.flatMap documents).flatMap AnalyzedDocument.targets))
    (hfits : ∀ doc ∈ as.flatMap documents, ∀ target ∈ doc.targets,
      ∀ field ∈ target.2.fields, field.docLen ≠ u32Max) :
    Reader.Counted x (w.run as).index.readers ∧
      (allLengths x (w.run as).index.readers).Perm
        (targetLengths x ((as.flatMap documents).flatMap AnalyzedDocument.targets)) := by
  induction as using reverseRecOn with
  | nil =>
    rw [show (w.run []) = w from rfl, hstart]
    refine ⟨⟨pairwise_singleton _ _, fun r hr d x hlen => ?_, fun r hr => ?_⟩, Perm.refl _⟩
    · obtain rfl := mem_singleton.mp hr
      cases hlen
    · obtain rfl := mem_singleton.mp hr
      rfl
  | append_singleton as a ih =>
    have hdel' : ∀ d ok, .deleteDocument d ok ∉ as := fun d ok hmem => hdel d ok (mem_append_left _ hmem)
    rw [flatMap_append, flatMap_singleton] at hsep hfits
    rw [flatMap_append] at hsep
    obtain ⟨hsep, hsep', hcross⟩ := pairwise_append.mp hsep
    obtain ⟨hcounted, hperm⟩ := ih hdel' hsep fun doc hdoc => hfits doc (mem_append_left _ hdoc)
    have hclean : (w.run as).Clean := fun d => kept_run hw (by simp [hlive]) (hdel' d)
    obtain ⟨htable, hlengths⟩ : Reader.Counted x (IndexAction.added a ++ (w.run as).index.readers) ∧
        (allLengths x (IndexAction.added a)).Perm
          (targetLengths x (a.documents.flatMap AnalyzedDocument.targets)) := by
      cases a with
      | mergeIntoMemtable docs =>
        obtain ⟨htallied, htable⟩ := MemIndex.tallied_ofDocuments (Separate.at hsep' x)
        have hown : allLengths x [.mem (MemIndex.ofDocuments docs)] =
            lengthsAt (MemIndex.ofDocuments docs).docLengths x := flatMap_singleton ..
        refine ⟨⟨pairwise_cons.mpr ⟨fun r hr d => ?_, hcounted.apart⟩, fun r hr => ?_, fun r hr => ?_⟩, ?_⟩
        · -- an id with a length in both would be filed twice
          by_contra hboth
          rw [not_or] at hboth
          obtain ⟨len, hlen⟩ := Option.ne_none_iff_exists'.mp hboth.1
          obtain ⟨len', hlen'⟩ := Option.ne_none_iff_exists'.mp hboth.2
          rw [docLen_eq] at hlen'
          obtain ⟨t, ht, hkey, hlength⟩ := mem_targetLengths.mp
            (htable.mem_iff.mp ((mem_lengthsAt (e := (toLex (d, x), len))).mpr ⟨d, rfl, hlen⟩))
          obtain ⟨t', ht', hkey', hlength'⟩ := mem_targetLengths.mp
            (hperm.mem_iff.mp (mem_flatMap.mpr
              ⟨r, hr, (mem_lengthsAt (e := (toLex (d, x), len'))).mpr ⟨d, rfl, hlen'⟩⟩))
          have hid : t'.1 = t.1 := (Prod.mk.inj (toLex.injective (hkey'.symm.trans hkey))).1
          exact hcross t' ht' t ht hid x (touches_of_length (by simp [hlength']))
            (touches_of_length (by simp [hlength]))
        · rcases mem_cons.mp hr with rfl | hr
          · exact fun d x => MemIndex.fits_ofDocuments (fun doc hdoc => hfits doc (mem_append_right _ hdoc)) _
          · exact hcounted.fits r hr
        · rcases mem_cons.mp hr with rfl | hr
          · exact htallied
          · exact hcounted.tallied r hr
        · rw [IndexAction.added, hown]
          exact htable
      | _ => exact ⟨hcounted, Perm.refl _⟩
    obtain ⟨hstep, hsteps⟩ := counted_step (inv_run hw.inv as) hclean htable
    rw [run_append]
    refine ⟨hstep, hsteps.trans ?_⟩
    rw [flatMap_append, flatMap_singleton, flatMap_append, targetLengths, filterMap_append,
      allLengths, flatMap_append]
    exact perm_append_comm.trans (hperm.append hlengths)

end World
