/-
Looking a length up in the parts that may have it.

A snapshot passes over a part whose range does not hold the id it looks for.  A
segment works its range out from the ids it has lengths under, so nothing is
missed there.  A sealed table keeps the range of its documents alone: the lengths
it has under array rows that lie outside of it are passed over.
-/
import Riets.SnapshotStats

open AnalyzedDocument

namespace IndexSnapshot

/-- The newest part that has a length for the id, whatever the ranges say. -/
def searchedLen (s : IndexSnapshot) (d : DocId) (x : XPathId) : Option ℕ :=
  ((Reader.mem s.mem).docLen d x).or (s.segments.reverse.findSome? fun r => r.docLen d x)

end IndexSnapshot

namespace Reader

open List MemIndex Segment Option Compaction

variable {r : Reader} {group : List Reader} {deleted : DeleteSet} {d : DocId} {x : XPathId}

def Admits (r : Reader) (d : DocId) : Prop := ∀ lo hi, r.docIdRange = some (lo, hi) → lo ≤ d ∧ d ≤ hi

/-- The range rules out no id with a length in field `x`. -/
def Spanning (x : XPathId) (r : Reader) : Prop := ∀ d, r.docLen d x ≠ none → r.Admits d

theorem admits_of_within (h : Within r.docIdRange d) : r.Admits d := by
  intro lo hi hrange
  obtain ⟨lo', hi', hrange', hlo, hhi⟩ := h
  obtain ⟨rfl, rfl⟩ : lo = lo' ∧ hi = hi' := by simpa [hrange'] using hrange.symm
  exact ⟨hlo, hhi⟩

theorem within_computed {s : Segment} (h : s.docLengths.get? (toLex (d, x)) ≠ none) :
    Within (computeDocIdRange s.docLengths s.numericFields) d := by
  have hranged : s.Ranged d := .inl ⟨x, h⟩
  exact (s.within_computeDocIdRange d).2.mpr ⟨⟨d, hranged, le_rfl⟩, d, hranged, le_rfl⟩

theorem spanning_open (f : SegmentFile)
    (hrange : (f.minDocId, f.maxDocId) = (computeDocIdRange f.docLengths f.numericFields).getD (0, 0)) :
    (seg f.open).Spanning x := by
  intro d hlen lo hi hopened
  have hfile : f.docLengths.get? (toLex (d, x)) ≠ none := get?_of_openLengths hlen
  obtain ⟨lo', hi', hcomputed, hlo, hhi⟩ := within_computed (s := { f.open with docLengths := f.docLengths }) hfile
  change computeDocIdRange f.docLengths f.numericFields = some (lo', hi') at hcomputed
  rw [hcomputed, getD_some] at hrange
  have hkept : some (f.minDocId, f.maxDocId) = some (lo, hi) := by
    change (if f.terms.size = 0 ∧ f.numericFields.fields.size = 0 then none
      else some (f.minDocId, f.maxDocId)) = some (lo, hi) at hopened
    split_ifs at hopened
    exact hopened
  rw [hrange] at hkept
  obtain ⟨rfl, rfl⟩ := Prod.mk.inj (some_inj.mp hkept)
  exact ⟨hlo, hhi⟩

theorem Makes.spanning {s : Segment} (h : Makes deleted (.seg s) group) : (seg s).Spanning x := by
  cases h with
  | freezeShared generations => exact fun d hlen => admits_of_within (within_computed hlen)
  | write job => exact spanning_open (MemIndex.freezeShared job.generations).write rfl
  | compacted deleted opened =>
    obtain ⟨file, hfile, hopened, -⟩ := compacted_spec deleted opened
    rw [hopened]
    exact spanning_open file (range_compactSegments hfile)

/-! ### Where the lengths of a field are -/

/-- A row of the documents that has a length in field `x`, under id `d`. -/
def RowLength (x : XPathId) (docs : List AnalyzedDocument) (d : DocId) : Prop :=
  ∃ doc ∈ docs, ∃ row ∈ doc.arrayRows, row.arrayRowId = d ∧ row.target.length? x ≠ none

theorem RowLength.mono {docs docs' : List AnalyzedDocument} (hdocs : ∀ doc ∈ docs, doc ∈ docs')
    (h : RowLength x docs d) : RowLength x docs' d := by
  obtain ⟨doc, hdoc, hrow⟩ := h
  exact ⟨doc, hdocs doc hdoc, hrow⟩

/-- The range rules out no id with a length, but for rows in a table. -/
def SpansDocs (x : XPathId) (docs : List AnalyzedDocument) : Reader → Prop
  | mem g => ∀ d, (mem g).docLen d x ≠ none → Within g.docIdRange d ∨ RowLength x docs d
  | seg s => (seg s).Spanning x

theorem SpansDocs.mono {docs docs' : List AnalyzedDocument} (hdocs : ∀ doc ∈ docs, doc ∈ docs')
    (h : SpansDocs x docs r) : SpansDocs x docs' r := by
  cases r with
  | mem g => exact fun d hlen => (h d hlen).imp_right fun hrow => hrow.mono hdocs
  | seg s => exact h

theorem Makes.spansDocs {docs : List AnalyzedDocument} (h : Makes deleted r group)
    (hg : ∀ g ∈ group, SpansDocs x docs g) : SpansDocs x docs r := by
  cases r with
  | seg s => exact h.spanning
  | mem g =>
    intro d hlen
    cases h with
    | new => exact absurd rfl hlen
    | mergeFrom m n =>
      rcases docLengths_mergeFrom hlen with hm | hn
      · exact (hg (mem m) (by simp) d hm).imp_left fun hwithin => within_mergeFrom (.inl hwithin)
      · exact (hg (mem n) (by simp) d hn).imp_left fun hwithin => within_mergeFrom (.inr hwithin)

/-- The parts have lengths in field `x` that the documents gave, each under an id of its own, and
their ranges rule out none of them, but for rows in tables. -/
structure Filed (x : XPathId) (parts : List Reader) (docs : List AnalyzedDocument) : Prop where
  separate : SeparateAt x (docs.flatMap targets)
  apart : Apart x parts
  given : ∀ r ∈ parts, ∀ d len, r.docLen d x = some len →
    (toLex (d, x), len) ∈ targetLengths x (docs.flatMap targets)
  spans : ∀ r ∈ parts, SpansDocs x docs r

namespace Filed

variable {parts parts' : List Reader} {docs : List AnalyzedDocument}

theorem regroup (h : Filed x parts docs) (hregroup : Regroup (Makes deleted) parts parts') :
    Filed x parts' docs where
  separate := h.separate
  apart := h.apart.regroup hregroup
  given r hr d len hlen := by
    obtain ⟨g, hg, hlen⟩ := docLen_mem_regroup hregroup hr hlen
    exact h.given g hg d len hlen
  spans := hregroup.all_of_all (fun _ _ hmakes hgroup => hmakes.spansDocs hgroup) h.spans

theorem ofDocuments (h : SeparateAt x (docs.flatMap targets)) :
    Filed x [mem (ofDocuments docs)] docs := by
  have hgiven : ∀ d len, (mem (MemIndex.ofDocuments docs)).docLen d x = some len →
      (toLex (d, x), len) ∈ targetLengths x (docs.flatMap targets) := fun d len hlen =>
    (tallied_ofDocuments h).2.mem_iff.mp (mem_lengthsAt.mpr ⟨d, rfl, hlen⟩)
  refine ⟨h, pairwise_singleton _ _, fun r hr => ?_, fun r hr => ?_⟩
  · obtain rfl := mem_singleton.mp hr
    exact hgiven
  · obtain rfl := mem_singleton.mp hr
    intro d hne
    obtain ⟨len, hlen⟩ := ne_none_iff_exists'.mp hne
    obtain ⟨t, ht, hkey, hlength⟩ := mem_targetLengths.mp (hgiven d len hlen)
    obtain rfl : d = t.1 := (Prod.mk.inj (toLex.injective hkey)).1
    obtain ⟨doc, hdoc, ht⟩ := mem_flatMap.mp ht
    rcases mem_cons.mp ht with rfl | ht
    · exact .inl ((range_ofDocuments docs).2 doc hdoc)
    · obtain ⟨row, hrow, rfl⟩ := mem_map.mp ht
      exact .inr ⟨doc, hdoc, row, hrow, rfl, by simp [hlength]⟩

theorem append {docs' : List AnalyzedDocument} (h : Filed x parts docs) (h' : Filed x parts' docs')
    (hsep : SeparateAt x ((docs ++ docs').flatMap targets)) :
    Filed x (parts' ++ parts) (docs ++ docs') := by
  have hmem : ∀ {e}, e ∈ targetLengths x ((docs ++ docs').flatMap targets) ↔
      e ∈ targetLengths x (docs.flatMap targets) ∨
        e ∈ targetLengths x (docs'.flatMap targets) := by
    intro e
    rw [flatMap_append, targetLengths, filterMap_append, mem_append]
    rfl
  refine ⟨hsep, pairwise_append.mpr ⟨h'.apart, h.apart, fun a ha b hb d => ?_⟩, fun r hr d len hlen => ?_,
    fun r hr => ?_⟩
  · -- an id with a length in both would be filed twice
    by_contra hboth
    rw [not_or] at hboth
    obtain ⟨len, hlen⟩ := ne_none_iff_exists'.mp hboth.1
    obtain ⟨len', hlen'⟩ := ne_none_iff_exists'.mp hboth.2
    obtain ⟨t, ht, hkey, hlength⟩ := mem_targetLengths.mp (h'.given a ha d len hlen)
    obtain ⟨t', ht', hkey', hlength'⟩ := mem_targetLengths.mp (h.given b hb d len' hlen')
    have hid : t'.1 = t.1 := (Prod.mk.inj (toLex.injective (hkey'.symm.trans hkey))).1
    rw [flatMap_append] at hsep
    rcases (pairwise_append.mp hsep).2.2 t' ht' t ht hid with hnone | hnone
    · rw [hlength'] at hnone
      cases hnone
    · rw [hlength] at hnone
      cases hnone
  · rcases mem_append.mp hr with hr | hr
    · exact hmem.mpr (.inr (h'.given r hr d len hlen))
    · exact hmem.mpr (.inl (h.given r hr d len hlen))
  · rcases mem_append.mp hr with hr | hr
    · exact (h'.spans r hr).mono fun doc hdoc => mem_append_right _ hdoc
    · exact (h.spans r hr).mono fun doc hdoc => mem_append_left _ hdoc

theorem some_parts {docs' : List AnalyzedDocument} (h : Filed x parts docs) (hparts : parts'.Subperm parts)
    (hsegs : ∀ r ∈ parts', ∃ s, r = seg s) (hdocs : docs'.Sublist docs)
    (hlost : ∀ doc ∈ docs, doc ∉ docs' → ∀ t ∈ doc.targets, ∀ r ∈ parts', r.docLen t.1 x = none) :
    Filed x parts' docs' := by
  obtain ⟨kept, hperm, hsub⟩ := hparts
  have hmem : ∀ r ∈ parts', r ∈ parts := fun r hr => hsub.subset (hperm.mem_iff.mpr hr)
  refine ⟨h.separate.sublist (hdocs.flatMap _), hperm.pairwise (h.apart.sublist hsub) fun hab d => (hab d).symm,
    fun r hr d len hlen => ?_, fun r hr => ?_⟩
  · obtain ⟨t, ht, hkey, hlength⟩ := mem_targetLengths.mp (h.given r (hmem r hr) d len hlen)
    obtain ⟨doc, hdoc, ht⟩ := mem_flatMap.mp ht
    have hkept : doc ∈ docs' := by
      by_contra hnot
      have hnone := hlost doc hdoc hnot t ht r hr
      rw [← (Prod.mk.inj (toLex.injective hkey)).1, hlen] at hnone
      cases hnone
    exact mem_targetLengths.mpr ⟨t, mem_flatMap.mpr ⟨doc, hkept, ht⟩, hkey, hlength⟩
  · obtain ⟨s, rfl⟩ := hsegs r hr
    exact h.spans (seg s) (hmem _ hr)

end Filed

end Reader

namespace World

open List Reader

/-- What an index reaches, with the documents that were added to it.  It is opened again with some of
its segments and any tombstones, and then without documents that the segments have nothing of.
`Ok` holds of the documents whenever some are added. -/
inductive Holding (Ok : List AnalyzedDocument → Prop) : World → List AnalyzedDocument → Prop
  | inMemory : Holding Ok inMemory []
  | created : Holding Ok (start [] ∅) []
  | step {w : World} {docs : List AnalyzedDocument} (a : IndexAction) : Holding Ok w docs →
      Ok (docs ++ a.documents) → Holding Ok (w.step a) (docs ++ a.documents)
  | reopened {w : World} {docs docs' : List AnalyzedDocument} (manifest : List (ℕ × Segment)) (deleted : DeleteSet) :
      Holding Ok w docs → (manifest.map Prod.fst).Nodup →
      (manifest.map fun e => seg e.2).Subperm w.index.readers → docs'.Sublist docs →
      (∀ doc ∈ docs, doc ∉ docs' → ∀ t ∈ doc.targets, ∀ e ∈ manifest, ∀ x, e.2.docLen t.1 x = none) →
      Holding Ok (start manifest deleted) docs'

variable {Ok : List AnalyzedDocument → Prop} {w : World} {docs : List AnalyzedDocument} {x : XPathId}

theorem Holding.inv (h : Holding Ok w docs) : Inv w := by
  induction h with
  | inMemory => exact Fresh.inMemory.inv
  | created => exact (Fresh.opened [] ∅ nodup_nil).inv
  | step a _ _ ih => exact inv_step ih a
  | reopened manifest deleted _ hnodup _ _ _ _ => exact (Fresh.opened manifest deleted hnodup).inv

theorem readers_start (manifest : List (ℕ × Segment)) (deleted : DeleteSet) :
    (start manifest deleted).index.readers = .mem MemIndex.new :: manifest.map fun e => seg e.2 := by
  change mem MemIndex.new :: (manifest.map Prod.snd).map seg = _
  rw [map_map]
  rfl

theorem filed_new {parts : List Reader} (h : Reader.Filed x parts docs) :
    Reader.Filed x (.mem MemIndex.new :: parts) docs where
  separate := h.separate
  apart := pairwise_cons.mpr ⟨fun _ _ _ => .inl rfl, h.apart⟩
  given r hr := by
    rcases mem_cons.mp hr with rfl | hr
    · intro d len hlen
      cases hlen
    · exact h.given r hr
  spans r hr := by
    rcases mem_cons.mp hr with rfl | hr
    · exact fun d hne => absurd rfl hne
    · exact h.spans r hr

theorem filed_added (h : Reader.Filed x w.index.readers docs) (a : IndexAction)
    (hsep : SeparateAt x ((docs ++ a.documents).flatMap targets)) :
    Reader.Filed x (IndexAction.added a ++ w.index.readers) (docs ++ a.documents) := by
  cases a with
  | mergeIntoMemtable new =>
    have hnew : SeparateAt x (new.flatMap targets) := by
      rw [flatMap_append] at hsep
      exact (pairwise_append.mp hsep).2.1
    exact h.append (Filed.ofDocuments hnew) hsep
  | _ => exact (append_nil docs).symm ▸ h

theorem filed_step (hinv : Inv w) (h : Reader.Filed x w.index.readers docs) (a : IndexAction)
    (hsep : SeparateAt x ((docs ++ a.documents).flatMap targets)) :
    Reader.Filed x (w.step a).index.readers (docs ++ a.documents) := by
  obtain ⟨deleted, -, hregroup⟩ := step_makesIn hinv a
  exact (filed_added h a hsep).regroup (hregroup.mono fun _ _ hmakes => hmakes.1)

theorem Holding.filed (hok : ∀ docs, Ok docs → SeparateAt x (docs.flatMap targets))
    (h : Holding Ok w docs) : Reader.Filed x w.index.readers docs := by
  have hempty : Reader.Filed x [] [] :=
    ⟨Pairwise.nil, Pairwise.nil, fun _ hr => (not_mem_nil hr).elim,
      fun _ hr => (not_mem_nil hr).elim⟩
  induction h with
  | inMemory => exact filed_new hempty
  | created => exact filed_new hempty
  | step a hholding hsep ih => exact filed_step hholding.inv ih a (hok _ hsep)
  | reopened manifest deleted _ _ hsegs hdocs hlost ih =>
    rw [readers_start]
    refine filed_new (ih.some_parts hsegs (fun r hr => ?_) hdocs fun doc hdoc hnot t ht r hr => ?_)
    · obtain ⟨e, -, rfl⟩ := mem_map.mp hr
      exact ⟨e.2, rfl⟩
    · obtain ⟨e, he, rfl⟩ := mem_map.mp hr
      exact hlost doc hdoc hnot t ht e he x

theorem filed_shown (hinv : Inv w) (h : Reader.Filed x w.index.readers docs) {s : IndexSnapshot} (hs : w.Shows s) :
    Reader.Filed x s.readers docs := by
  rcases hs with rfl | ⟨busy, rfl⟩
  · exact h
  · have hdocs : docs ++ (IndexAction.publishSnapshot busy).documents = docs := append_nil docs
    have hstep := filed_step hinv h (.publishSnapshot busy) (hdocs.symm ▸ h.separate)
    rw [hdocs] at hstep
    obtain ⟨hsep, hapart, hgiven, hspans⟩ := hstep
    exact filed_new ⟨hsep, (pairwise_cons.mp hapart).2, fun r hr => hgiven r (mem_cons_of_mem _ hr),
      fun r hr => hspans r (mem_cons_of_mem _ hr)⟩

end World

/-! ### Passing over parts -/

namespace IndexSnapshot

open List

variable {s : IndexSnapshot} {docs : List AnalyzedDocument} {d : DocId} {x : XPathId}

def lenInRange (r : Reader) (d : DocId) (x : XPathId) : Option ℕ :=
  match r.docIdRange with
  | some (lo, hi) => if d < lo ∨ hi < d then none else r.docLen d x
  | none => r.docLen d x

theorem lenInRange_of_admits {r : Reader} (h : r.Admits d) : lenInRange r d x = r.docLen d x := by
  unfold lenInRange
  split
  case h_1 lo hi hrange =>
    obtain ⟨hlo, hhi⟩ := h lo hi hrange
    rw [if_neg (by rw [not_or, not_lt, not_lt]; exact ⟨hlo, hhi⟩)]
  case h_2 => rfl

theorem lenInRange_of_not_admits {r : Reader} (h : ¬r.Admits d) : lenInRange r d x = none := by
  unfold lenInRange
  split
  case h_1 lo hi hrange =>
    refine if_pos ?_
    by_contra hin
    rw [not_or, not_lt, not_lt] at hin
    refine h fun lo' hi' hrange' => ?_
    obtain ⟨rfl, rfl⟩ : lo = lo' ∧ hi = hi' := by simpa [hrange] using hrange'
    exact hin
  case h_2 hnone =>
    exact absurd (fun lo hi hrange => by rw [hnone] at hrange; cases hrange) h

theorem docLen_eq (s : IndexSnapshot) (d : DocId) (x : XPathId) :
    s.docLen d x = ((Reader.mem s.mem).docLen d x).or (s.segments.reverse.findSome? fun r => lenInRange r d x) := rfl

theorem docLen_eq_searchedLen (h : ∀ r ∈ s.segments, r.docLen d x ≠ none → r.Admits d) :
    s.docLen d x = s.searchedLen d x := by
  have hsame : ∀ r ∈ s.segments.reverse, lenInRange r d x = r.docLen d x := by
    intro r hr
    by_cases hadmits : r.Admits d
    · exact lenInRange_of_admits hadmits
    · rw [lenInRange_of_not_admits hadmits]
      by_contra hne
      exact hadmits (h r (mem_reverse.mp hr) (Ne.symm hne))
  rw [docLen_eq, searchedLen, ← head?_filterMap, filterMap_congr hsame, head?_filterMap]

theorem docLen_ne_searchedLen (hapart : Reader.Apart x s.readers) {r : Reader} (hr : r ∈ s.segments)
    (hlen : r.docLen d x ≠ none) (hout : ¬r.Admits d) : s.docLen d x ≠ s.searchedLen d x := by
  obtain ⟨hmem, hsegments⟩ := pairwise_cons.mp hapart
  have hfound : s.searchedLen d x ≠ none := by
    rw [searchedLen, (hmem r hr d).resolve_right hlen, Option.none_or]
    intro hnone
    exact hlen (findSome?_eq_none_iff.mp hnone r (mem_reverse.mpr hr))
  have hmissed : s.docLen d x = none := by
    rw [docLen_eq, (hmem r hr d).resolve_right hlen, Option.none_or, findSome?_eq_none_iff]
    intro r' hr'
    by_cases hsame : r' = r
    · rw [hsame]
      exact lenInRange_of_not_admits hout
    · have hnone : r'.docLen d x = none :=
        (hsegments.forall (mem_reverse.mp hr') hr hsame d).resolve_right hlen
      by_cases hadmits : r'.Admits d
      · rw [lenInRange_of_admits hadmits, hnone]
      · exact lenInRange_of_not_admits hadmits
  rw [hmissed]
  exact hfound.symm

theorem docLen_eq_iff (h : Reader.Filed x s.readers docs) :
    s.docLen d x = s.searchedLen d x ↔
      ∀ g, Reader.mem g ∈ s.segments → (Reader.mem g).docLen d x ≠ none → (Reader.mem g).Admits d := by
  constructor
  · intro heq g hg hlen
    by_contra hout
    exact docLen_ne_searchedLen h.apart hg hlen hout heq
  · intro htables
    refine docLen_eq_searchedLen fun r hr hlen => ?_
    cases r with
    | mem g => exact htables g hr hlen
    | seg s' => exact h.spans (.seg s') (mem_cons_of_mem _ hr) d hlen

theorem docLen_of_document (h : Reader.Filed x s.readers docs) (hrow : ¬Reader.RowLength x docs d) :
    s.docLen d x = s.searchedLen d x := by
  rw [docLen_eq_iff h]
  intro g hg hlen
  rcases h.spans (.mem g) (mem_cons_of_mem _ hg) d hlen with hwithin | hlength
  · exact Reader.admits_of_within hwithin
  · exact absurd hlength hrow

end IndexSnapshot

namespace World

/-- In a snapshot of whatever an index reaches, passing over parts changes the length of an id
exactly when a sealed table has it and the id lies before or after the table's documents; that
is never the id of a document on a field that has no rows under it. -/
theorem docLen_shown_iff {w : World} {docs : List AnalyzedDocument} {s : IndexSnapshot}
    (h : Holding (fun docs => Separate (docs.flatMap targets)) w docs) (hs : w.Shows s)
    (d : DocId) (x : XPathId) :
    (s.docLen d x = s.searchedLen d x ↔
      ∀ g, Reader.mem g ∈ s.segments → (Reader.mem g).docLen d x ≠ none → (Reader.mem g).Admits d) ∧
    (¬Reader.RowLength x docs d → s.docLen d x = s.searchedLen d x) := by
  have hfiled := filed_shown h.inv (h.filed fun docs hsep => hsep.at x) hs
  exact ⟨IndexSnapshot.docLen_eq_iff hfiled, IndexSnapshot.docLen_of_document hfiled⟩

/-- A document with one row: a word in field `0`, and a word in field `1` under the row's id. -/
def documentWithRow : AnalyzedDocument where
  docId := 1
  main := ⟨[⟨0, 1, [⟨"word", [0], 1⟩]⟩], [], []⟩
  arrayRows := [⟨2, none, ⟨[⟨1, 1, [⟨"word", [0], 1⟩]⟩], [], []⟩⟩]

theorem separate_documentWithRow : Separate ([documentWithRow].flatMap targets) := by
  refine List.pairwise_pair.mpr fun hid => ?_
  exact absurd hid (by decide)

/-- The document's own length is found once its table is sealed. -/
theorem docLen_shown_sealed :
    let w := (start [] ∅).step (.mergeIntoMemtable [documentWithRow])
    let s := (w.index.publishSnapshot fun _ => false).2
    s.docLen 1 0 = s.searchedLen 1 0 := by
  refine (docLen_shown_iff (Holding.step (.mergeIntoMemtable [documentWithRow]) .created separate_documentWithRow)
    (.inr ⟨_, rfl⟩) 1 0).2 ?_
  rintro ⟨doc, hdoc, row, hrow, hid, -⟩
  obtain rfl := List.mem_singleton.mp hdoc
  obtain rfl := List.mem_singleton.mp hrow
  exact absurd hid (by decide)

/-- The length of its row is not: a search through all tables has it. -/
theorem docLen_row_missed :
    ∃ w docs s d x, Holding (fun docs => Separate (docs.flatMap targets)) w docs ∧ w.Shows s ∧
      Reader.RowLength x docs d ∧ s.docLen d x = none ∧ s.searchedLen d x = some 1 := by
  refine ⟨_, _, _, 2, 1, Holding.step (.mergeIntoMemtable [documentWithRow]) .created separate_documentWithRow,
    .inr ⟨fun _ => false, rfl⟩, ?_, by decide, by decide⟩
  exact ⟨documentWithRow, by decide, _, List.mem_singleton_self _, rfl, by decide⟩

end World
