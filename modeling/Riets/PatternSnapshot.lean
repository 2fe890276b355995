/-
Prefix and wildcard lookups over the parts of an index.

A snapshot asks every part and unites the answers.  Each part takes the terms in
the most of its own documents, so the cap counts for each part alone.  While no
part has more matching terms than the cap, the parts are of no account.
-/
import Riets.Wildcard
import Riets.NoLoss

open List

namespace Reader

/-- The dictionary of a part.  The order of a hash map is of no account
(`MemIndex.scanPrefix_perm`). -/
def entries (r : Reader) : List (TermKey × PostingList) :=
  match r with
  | mem m => m.terms.entries
  | seg s => s.terms.entries

def lookupPrefix (r : Reader) (start : String) (x : XPathId) : PostingList :=
  match r with
  | mem m => MemIndex.scanPrefix m.terms.entries start x
  | seg s => s.lookupPrefix start x

def lookupWildcard (r : Reader) (pattern : WildcardPattern) (x : XPathId) : PostingList :=
  match r with
  | mem m => MemIndex.scanWildcard m.terms.entries pattern x
  | seg s => s.lookupWildcard pattern x

/-- The entries of a field whose terms fulfil `p`. -/
def found (r : Reader) (p : String → Prop) [DecidablePred p] (x : XPathId) : List (String × PostingList) :=
  (r.entries.filter fun e => e.1.xpath = x ∧ p e.1.term).map termEntry

def FewTerms (r : Reader) (p : String → Prop) [DecidablePred p] (x : XPathId) : Prop :=
  (r.found p x).length ≤ DiskSegment.maxPatternTerms

end Reader

namespace IndexSnapshot

def lookupPrefix (s : IndexSnapshot) (start : String) (x : XPathId) : PostingList :=
  s.applyDeletes (PostingList.unionMany (s.readers.map fun r => r.lookupPrefix start x))

def lookupWildcard (s : IndexSnapshot) (pattern : WildcardPattern) (x : XPathId) : PostingList :=
  s.applyDeletes (PostingList.unionMany (s.readers.map fun r => r.lookupWildcard pattern x))

end IndexSnapshot

theorem find_cappedUnion {found : List (String × PostingList)} {d : DocId} :
    (cappedUnion found).find d ≠ none ↔
      ∃ e ∈ (found.mergeSort inMoreDocs).take DiskSegment.maxPatternTerms, e.2.find d ≠ none := by
  have hflat : ∀ taken : List (String × PostingList),
      taken.flatMap (fun e => e.2.items) = ((taken.map Prod.snd).map PostingList.items).flatten := by
    intro taken
    rw [map_map]
    rfl
  rw [cappedUnion, PostingList.find_fromItems, hflat, PostingList.filter_flatten_items,
    ← PostingList.joinAll_map, PostingList.joinAll_ne_none]
  simp only [mem_map, exists_exists_and_eq_and]

theorem find_cappedUnion_of_few {found : List (String × PostingList)}
    (hfew : found.length ≤ DiskSegment.maxPatternTerms) {d : DocId} :
    (cappedUnion found).find d ≠ none ↔ ∃ e ∈ found, e.2.find d ≠ none := by
  rw [find_cappedUnion, take_of_length_le (by rw [length_mergeSort]; exact hfew)]
  simp only [mem_mergeSort]

theorem WildcardPattern.matches_iff_of_isPrefixOnly {p : WildcardPattern} (h : p.isPrefixOnly = true)
    {word : String} : p.matches word = true ↔ StartsWith word p.start := by
  refine ⟨startsWith_of_matches, fun hstart => ?_⟩
  obtain ⟨tokens⟩ := p
  match tokens with
  | [.literal text, .any] =>
    rw [startsWith_iff] at hstart
    simp only [WildcardPattern.matches, matchesFrom, Bool.and_eq_true, isPrefixOf_iff_prefix]
    exact ⟨hstart, by simp [any_eq_true, mem_tails]⟩

namespace Reader

variable {r : Reader} {x : XPathId}

theorem lookupPrefix_eq (r : Reader) (start : String) (x : XPathId) :
    r.lookupPrefix start x = cappedUnion (r.found (fun t => StartsWith t start) x) := by
  cases r with
  | mem m => rfl
  | seg s => exact s.lookupPrefix_eq start x

theorem lookupWildcard_eq (r : Reader) (pattern : WildcardPattern) (x : XPathId) :
    r.lookupWildcard pattern x = cappedUnion (r.found (fun t => pattern.matches t = true) x) := by
  have hscan : r.lookupWildcard pattern x = MemIndex.scanWildcard r.entries pattern x := by
    cases r with
    | mem m => rfl
    | seg s => exact s.lookupWildcard_eq pattern x
  rw [hscan, MemIndex.scanWildcard]
  split_ifs with hprefix
  · simp only [MemIndex.scanPrefix, found, WildcardPattern.matches_iff_of_isPrefixOnly hprefix]
  · rfl

theorem found_posts {p : String → Prop} [DecidablePred p] {d : DocId} :
    (∃ e ∈ r.found p x, e.2.find d ≠ none) ↔ ∃ term, p term ∧ r.posting ⟨x, term⟩ d ≠ none := by
  have hposting : ∀ (terms : SortedMap TermKey PostingList) (k : TermKey),
      ((terms.get? k).bind fun l => l.find d) ≠ none ↔ ∃ l, (k, l) ∈ terms.entries ∧ l.find d ≠ none := by
    intro terms k
    simp only [SortedMap.mem_entries]
    cases terms.get? k with
    | none => simp
    | some l => simp
  have hentry : ∀ k, r.posting k d ≠ none ↔ ∃ l, (k, l) ∈ r.entries ∧ l.find d ≠ none := by
    intro k
    cases r with
    | mem m => exact hposting m.terms k
    | seg s => exact hposting s.terms k
  constructor
  · rintro ⟨e, he, hfind⟩
    obtain ⟨⟨⟨x', term⟩, l⟩, hmem, rfl⟩ := mem_map.mp he
    obtain ⟨hentries, hcond⟩ := mem_filter.mp hmem
    obtain ⟨rfl, hp⟩ := of_decide_eq_true hcond
    exact ⟨term, hp, (hentry ⟨x', term⟩).mpr ⟨l, hentries, hfind⟩⟩
  · rintro ⟨term, hp, hne⟩
    obtain ⟨l, hentries, hfind⟩ := (hentry ⟨x, term⟩).mp hne
    refine ⟨(term, l), mem_map.mpr ⟨(⟨x, term⟩, l), mem_filter.mpr ⟨hentries, ?_⟩, rfl⟩, hfind⟩
    exact decide_eq_true ⟨rfl, hp⟩

end Reader

namespace IndexSnapshot

open PostingList Reader

def Posts (s : IndexSnapshot) (k : TermKey) (d : DocId) : Prop := ∃ r ∈ s.readers, r.posting k d ≠ none

theorem find_applyDeletes (s : IndexSnapshot) (answer : Reader → PostingList) {d : DocId} :
    (s.applyDeletes (unionMany (s.readers.map answer))).find d ≠ none ↔
      d ∉ s.deleted ∧ ∃ r ∈ s.readers, (answer r).find d ≠ none := by
  rw [applyDeletes, DeleteSet.find_filterInPlace, find_unionMany]
  by_cases hd : d ∈ s.deleted
  · simp [hd]
  · rw [if_neg hd, filterMap_map, ← joinAll_map, joinAll_ne_none]
    simp [hd]

variable {s : IndexSnapshot} {x : XPathId} {d : DocId}

theorem find_unionOf (s : IndexSnapshot) {p : String → Prop} [DecidablePred p]
    (hfew : ∀ r ∈ s.readers, r.FewTerms p x) :
    (s.applyDeletes (unionMany (s.readers.map fun r => cappedUnion (r.found p x)))).find d ≠ none ↔
      d ∉ s.deleted ∧ ∃ term, p term ∧ s.Posts ⟨x, term⟩ d := by
  rw [find_applyDeletes]
  refine and_congr_right fun _ => ?_
  constructor
  · rintro ⟨r, hr, hfind⟩
    obtain ⟨term, hp, hne⟩ := found_posts.mp ((find_cappedUnion_of_few (hfew r hr)).mp hfind)
    exact ⟨term, hp, r, hr, hne⟩
  · rintro ⟨term, hp, r, hr, hne⟩
    exact ⟨r, hr, (find_cappedUnion_of_few (hfew r hr)).mpr (found_posts.mpr ⟨term, hp, hne⟩)⟩

theorem find_lookupPrefix {start : String}
    (hfew : ∀ r ∈ s.readers, r.FewTerms (fun t => StartsWith t start) x) :
    (s.lookupPrefix start x).find d ≠ none ↔
      d ∉ s.deleted ∧ ∃ term, StartsWith term start ∧ s.Posts ⟨x, term⟩ d := by
  rw [lookupPrefix, funext fun r => lookupPrefix_eq r start x]
  exact s.find_unionOf hfew

theorem find_lookupWildcard {pattern : WildcardPattern}
    (hfew : ∀ r ∈ s.readers, r.FewTerms (fun t => pattern.matches t = true) x) :
    (s.lookupWildcard pattern x).find d ≠ none ↔
      d ∉ s.deleted ∧ ∃ term, pattern.matches term = true ∧ s.Posts ⟨x, term⟩ d := by
  rw [lookupWildcard, funext fun r => lookupWildcard_eq r pattern x]
  exact s.find_unionOf hfew

end IndexSnapshot

/-! ### What the parts of a run post -/

namespace MemIndex

def Accumulates (f : MemIndex → MemIndex) : Prop :=
  ∀ k d m, (f m).posting k d ≠ none ↔ m.posting k d ≠ none ∨ (f new).posting k d ≠ none

theorem posting_foldl {α : Type*} {f : MemIndex → α → MemIndex} (h : ∀ a, Accumulates fun m => f m a)
    (l : List α) (k : TermKey) (d : DocId) (m : MemIndex) :
    (l.foldl f m).posting k d ≠ none ↔ m.posting k d ≠ none ∨ ∃ a ∈ l, (f new a).posting k d ≠ none := by
  induction l generalizing m with
  | nil => simp
  | cons a l ih =>
    rw [foldl_cons, ih, h a k d m]
    simp [or_assoc]

theorem accumulates_foldl {α : Type*} {f : MemIndex → α → MemIndex} (h : ∀ a, Accumulates fun m => f m a)
    (l : List α) : Accumulates fun m => l.foldl f m := by
  intro k d m
  rw [posting_foldl h, posting_foldl h l k d new]
  simp

theorem Accumulates.comp {f g : MemIndex → MemIndex} (hf : Accumulates f) (hg : Accumulates g) :
    Accumulates fun m => g (f m) := by
  intro k d m
  rw [hg k d (f m), hf k d m, hg k d (f new), or_assoc]

theorem accumulates_of_terms {f : MemIndex → MemIndex} (h : ∀ m, (f m).terms = m.terms) : Accumulates f := by
  intro k d m
  rw [posting, posting, posting, h, h]
  simp [new]

theorem accumulates_addPostingWeighted (term : String) (xpath : XPathId) (docId : DocId)
    (positions : List ℕ) (weight : ℕ) :
    Accumulates fun m => m.addPostingWeighted term xpath docId positions weight := by
  intro k d m
  rw [posting_addPostingWeighted, posting_addPostingWeighted, posting_new]
  split_ifs with hkey
  · by_cases hpos : positions = []
    · simp [addOccurrences, hpos]
    · cases m.posting k d with
      | none => simp [addOccurrences, hpos]
      | some p => simp [addOccurrences, hpos]
  · simp

theorem accumulates_applyField (docId : DocId) (field : AnalyzedField) :
    Accumulates fun m => m.applyField docId field := by
  refine Accumulates.comp (f := fun m => { m with docLengths := _, fieldStats := _ }) ?_
    (accumulates_foldl (fun t => accumulates_addPostingWeighted t.term field.xpath docId t.positions t.weight)
      field.terms)
  exact accumulates_of_terms fun _ => rfl

theorem accumulates_applyTarget (targetId : DocId) (target : AnalyzedTarget) :
    Accumulates fun m => m.applyTarget targetId target := by
  have hfields := accumulates_foldl (accumulates_applyField targetId) target.fields
  have hnumbers := accumulates_foldl (f := fun m p => m.addNumber targetId p)
    (fun _ => accumulates_of_terms fun _ => rfl) target.numericPoints
  have hbools := accumulates_foldl (f := fun m p => m.addBool targetId p)
    (fun _ => accumulates_of_terms fun _ => rfl) target.boolPoints
  exact (hfields.comp hnumbers).comp hbools

theorem accumulates_addAnalyzedDocument (document : AnalyzedDocument) :
    Accumulates fun m => m.addAnalyzedDocument document := by
  have htrack : Accumulates fun m => m.trackDocId document.docId := accumulates_of_terms fun _ => rfl
  refine (htrack.comp (accumulates_applyTarget document.docId document.main)).comp
    (accumulates_foldl (fun row => ?_) document.arrayRows)
  have hrow : Accumulates fun m =>
      { m with arrayRowIndex := m.arrayRowIndex.pushRow row.arrayRowId document.docId row.parent } :=
    accumulates_of_terms fun _ => rfl
  exact hrow.comp (accumulates_applyTarget row.arrayRowId row.target)

end MemIndex

/-- A document posts id `d`, its own or the one of a row, under key `k`. -/
def AnalyzedDocument.Posts (doc : AnalyzedDocument) (k : TermKey) (d : DocId) : Prop :=
  (MemIndex.new.addAnalyzedDocument doc).posting k d ≠ none

theorem MemIndex.posting_ofDocuments {docs : List AnalyzedDocument} {k : TermKey} {d : DocId} :
    (MemIndex.ofDocuments docs).posting k d ≠ none ↔ ∃ doc ∈ docs, doc.Posts k d := by
  refine (posting_foldl accumulates_addAnalyzedDocument docs k d new).trans ?_
  simp [AnalyzedDocument.Posts]

namespace World

open List MemIndex IndexSnapshot LsmIndex DiskSegment SortedMap

variable {w w' : World} {k : TermKey} {d : DocId}

def Posts (w : World) (k : TermKey) (d : DocId) : Prop := ∃ r ∈ w.index.readers, r.posting k d ≠ none

def Shows (w : World) (s : IndexSnapshot) : Prop :=
  s = w.index.snapshot ∨ ∃ busy, s = (w.index.publishSnapshot busy).2

theorem posts_added {a : IndexAction} :
    (∃ r ∈ IndexAction.added a, r.posting k d ≠ none) ↔ ∃ doc ∈ a.documents, doc.Posts k d := by
  cases a with
  | mergeIntoMemtable docs =>
    simp only [IndexAction.added, IndexAction.documents, mem_singleton, exists_eq_left]
    exact posting_ofDocuments
  | _ => simp [IndexAction.added, IndexAction.documents]

theorem posts_step (h : Inv w) (hkept : w.Kept d) (a : IndexAction) :
    (w.step a).Posts k d ↔ w.Posts k d ∨ ∃ doc ∈ a.documents, doc.Posts k d := by
  obtain ⟨deleted, hdeleted, hregroup⟩ := step_regroup h a
  have hd : d ∉ deleted := by
    rcases hdeleted with rfl | ⟨job, hjob, -, rfl⟩
    · exact Finset.notMem_empty _
    · exact hkept.2 job (mem_append_right _ hjob)
  have hgathered : ∀ r group, Reader.Gathers deleted r group →
      (r.posting k d ≠ none ↔ ∃ g ∈ group, g.posting k d ≠ none) := by
    intro r group hg
    rw [hg.posting, if_neg hd, PostingList.joinAll_ne_none]
    simp
  have hsame : (w.step a).Posts k d ↔
      ∃ r ∈ IndexAction.added a ++ w.index.readers, r.posting k d ≠ none := by
    constructor
    · intro hposts
      by_contra hnone
      obtain ⟨r, hr, hne⟩ := hposts
      refine hregroup.none_of_none (P := fun r => r.posting k d ≠ none) (fun r group hg hnone => ?_)
        (fun r hr hne => hnone ⟨r, hr, hne⟩) r hr hne
      exact fun hne => by
        obtain ⟨g, hmem, hgne⟩ := (hgathered r group hg).mp hne
        exact hnone g hmem hgne
    · intro hposts
      exact hregroup.exists_of_exists (P := fun r => r.posting k d ≠ none)
        (fun r group hg hex => (hgathered r group hg).mpr hex) hposts
  rw [hsame, ← posts_added]
  simp only [mem_append, or_and_right, exists_or, Posts]
  exact or_comm

theorem posts_run (hw : Fresh w) {as : List IndexAction} (hlive : d ∉ w.index.deleted)
    (hdel : ∀ ok, .deleteDocument d ok ∉ as) :
    (w.run as).Posts k d ↔ w.Posts k d ∨ ∃ doc ∈ as.flatMap IndexAction.documents, doc.Posts k d := by
  induction as using reverseRecOn with
  | nil => simp
  | append_singleton as a ih =>
    have hdel' : ∀ ok, .deleteDocument d ok ∉ as := fun ok hmem => hdel ok (by simp [hmem])
    rw [run_append]
    refine (posts_step (inv_run hw.inv as) (kept_run hw hlive hdel') a).trans ?_
    rw [ih hdel', flatMap_append, flatMap_singleton]
    simp only [mem_append, or_and_right, exists_or, or_assoc]

theorem not_deleted_of_shows (hkept : w.Kept d) {s : IndexSnapshot} (hs : w.Shows s) : d ∉ s.deleted := by
  rcases hs with rfl | ⟨busy, rfl⟩
  · exact hkept.1
  · show d ∉ (w.index.sealMem busy).deleted
    rw [sealMem_deleted]
    exact hkept.1

theorem posts_of_shows (h : Inv w) (hkept : w.Kept d) {s : IndexSnapshot} (hs : w.Shows s) :
    s.Posts k d ↔ w.Posts k d := by
  rcases hs with rfl | ⟨busy, rfl⟩
  · exact Iff.rfl
  · have hstep := posts_step (k := k) h hkept (.publishSnapshot busy)
    rw [show (IndexAction.publishSnapshot busy).documents = [] from rfl] at hstep
    simp only [not_mem_nil, false_and, exists_false, or_false] at hstep
    rw [← hstep]
    -- what is left of the active table posts nothing, as the new table
    have hmem : (Reader.mem (w.index.sealMem busy).mem).posting k d = none :=
      posting_mem_sealMem w.index busy k d
    simp only [IndexSnapshot.Posts, Posts, step, publishSnapshot, buildSnapshot,
      IndexSnapshot.readers, LsmIndex.readers, mem_cons, or_and_right, exists_or, exists_eq_left, hmem]
    simp [Reader.posting]

/-- Two runs that start from the same postings and add the same documents return the
same ids for every prefix and every pattern, as long as no part has more matching
terms than the cap. -/
theorem patterns_agree_of_sameDocuments (hw : Fresh w) (hw' : Fresh w') {as as' : List IndexAction}
    (hstart : ∀ k d, w.Posts k d ↔ w'.Posts k d)
    (hdocs : ∀ doc, doc ∈ as.flatMap IndexAction.documents ↔ doc ∈ as'.flatMap IndexAction.documents)
    (hlive : d ∉ w.index.deleted) (hlive' : d ∉ w'.index.deleted)
    (hdel : ∀ ok, .deleteDocument d ok ∉ as) (hdel' : ∀ ok, .deleteDocument d ok ∉ as')
    {s s' : IndexSnapshot} (hs : (w.run as).Shows s) (hs' : (w'.run as').Shows s') :
    (∀ start x, (∀ r ∈ s.readers ++ s'.readers, r.FewTerms (fun t => StartsWith t start) x) →
      ((s.lookupPrefix start x).find d ≠ none ↔ (s'.lookupPrefix start x).find d ≠ none)) ∧
    ∀ pattern x, (∀ r ∈ s.readers ++ s'.readers, r.FewTerms (fun t => pattern.matches t = true) x) →
      ((s.lookupWildcard pattern x).find d ≠ none ↔ (s'.lookupWildcard pattern x).find d ≠ none) := by
  have hposts : ∀ k, s.Posts k d ↔ s'.Posts k d := by
    intro k
    rw [posts_of_shows (inv_run hw.inv as) (kept_run hw hlive hdel) hs,
      posts_of_shows (inv_run hw'.inv as') (kept_run hw' hlive' hdel') hs',
      posts_run hw hlive hdel, posts_run hw' hlive' hdel', hstart k d]
    simp only [hdocs]
  have hd : d ∉ s.deleted := not_deleted_of_shows (kept_run hw hlive hdel) hs
  have hd' : d ∉ s'.deleted := not_deleted_of_shows (kept_run hw' hlive' hdel') hs'
  constructor
  · intro start x hfew
    rw [find_lookupPrefix fun r hr => hfew r (mem_append_left _ hr),
      find_lookupPrefix fun r hr => hfew r (mem_append_right _ hr)]
    simp only [hd, hd', hposts]
  · intro pattern x hfew
    rw [find_lookupWildcard fun r hr => hfew r (mem_append_left _ hr),
      find_lookupWildcard fun r hr => hfew r (mem_append_right _ hr)]
    simp only [hd, hd', hposts]

/-! ### Above the cap -/

/-- The `i`th word, `a` and then `i` times `b`. -/
def numberedWord (i : ℕ) : String := String.ofList ('a' :: replicate i 'b')

def numberedDocument (i : ℕ) : AnalyzedDocument := ⟨i, ⟨[⟨0, 1, [⟨numberedWord i, [0], 1⟩]⟩], [], []⟩, []⟩

def numberedDocuments (lo hi : ℕ) : List AnalyzedDocument := (range' lo (hi - lo)).map numberedDocument

theorem numberedWord_injective {i j : ℕ} (h : numberedWord i = numberedWord j) : i = j := by
  have hlist := congrArg String.toList h
  rw [numberedWord, numberedWord, String.toList_ofList, String.toList_ofList, cons_inj_right] at hlist
  simpa using congrArg length hlist

theorem startsWith_numberedWord (i : ℕ) : StartsWith (numberedWord i) "a" := by
  have hword : (numberedWord i).toList = 'a' :: replicate i 'b' := by rw [numberedWord, String.toList_ofList]
  rw [startsWith_iff, hword]
  exact ⟨replicate i 'b', rfl⟩

theorem numberedDocument_posts {i : ℕ} :
    (numberedDocument i).Posts k d ↔ k = ⟨0, numberedWord i⟩ ∧ d = i := by
  have hposting : (new.addAnalyzedDocument (numberedDocument i)).posting k d =
      if k = ⟨0, numberedWord i⟩ ∧ d = i then addOccurrences i [0] 1 none else none :=
    posting_addPostingWeighted _ (numberedWord i) 0 i [0] 1 k d
  rw [AnalyzedDocument.Posts, hposting]
  split_ifs with hkey
  · simp [addOccurrences, hkey]
  · simp [hkey]

def numberedTable (lo hi : ℕ) : MemIndex := MemIndex.new.mergeFrom (ofDocuments (numberedDocuments lo hi))

theorem mem_numberedDocuments {lo hi : ℕ} (h : lo ≤ hi) {doc : AnalyzedDocument} :
    doc ∈ numberedDocuments lo hi ↔ ∃ i, lo ≤ i ∧ i < hi ∧ doc = numberedDocument i := by
  simp only [numberedDocuments, mem_map, mem_range'_1]
  constructor
  · rintro ⟨i, ⟨hlo, hhi⟩, rfl⟩
    exact ⟨i, hlo, by omega, rfl⟩
  · rintro ⟨i, hlo, hhi, rfl⟩
    exact ⟨i, ⟨hlo, by omega⟩, rfl⟩

theorem numberedTable_posts {lo hi : ℕ} (h : lo ≤ hi) :
    (numberedTable lo hi).posting k d ≠ none ↔ lo ≤ d ∧ d < hi ∧ k = ⟨0, numberedWord d⟩ := by
  rw [numberedTable, posting_mergeFrom, posting_new, PostingList.join_none_left,
    posting_ofDocuments]
  constructor
  · rintro ⟨doc, hdoc, hposts⟩
    obtain ⟨i, hlo, hhi, rfl⟩ := (mem_numberedDocuments h).mp hdoc
    obtain ⟨hk, rfl⟩ := numberedDocument_posts.mp hposts
    exact ⟨hlo, hhi, hk⟩
  · rintro ⟨hlo, hhi, hk⟩
    exact ⟨numberedDocument d, (mem_numberedDocuments h).mpr ⟨d, hlo, hhi, rfl⟩, numberedDocument_posts.mpr ⟨hk, rfl⟩⟩

theorem length_entries_numberedTable (lo hi : ℕ) : (numberedTable lo hi).terms.entries.length ≤ hi - lo := by
  have hone : ∀ (m : MemIndex) (i : ℕ), (m.addAnalyzedDocument (numberedDocument i)).terms.entries.length ≤
      m.terms.entries.length + 1 :=
    fun m i => Keyed.length_upsert_le _ m.terms.entries
  have hall : ∀ (l : List ℕ) (m : MemIndex),
      ((l.map numberedDocument).foldl addAnalyzedDocument m).terms.entries.length ≤
        m.terms.entries.length + l.length := by
    intro l
    induction l with
    | nil => exact fun _ => Nat.le_refl _
    | cons i l ih =>
      intro m
      have hrest := ih (m.addAnalyzedDocument (numberedDocument i))
      have hhead := hone m i
      rw [map_cons, foldl_cons, length_cons]
      omega
  have hmerge : (numberedTable lo hi).terms = (ofDocuments (numberedDocuments lo hi)).terms := by
    refine ext_get? fun k => ?_
    rw [numberedTable, mergeFrom_terms, get?_mergeWith]
    cases (ofDocuments (numberedDocuments lo hi)).terms.get? k with
    | none => rfl
    | some l => rfl
  rw [hmerge]
  refine (hall (range' lo (hi - lo)) new).trans ?_
  rw [length_range']
  exact (Nat.zero_add _).le

theorem fewTerms_numberedTable {lo hi : ℕ} (h : hi ≤ lo + maxPatternTerms) (p : String → Prop)
    [DecidablePred p] (x : XPathId) : (Reader.mem (numberedTable lo hi)).FewTerms p x := by
  rw [Reader.FewTerms, Reader.found, length_map]
  refine (length_filter_le _ _).trans ((length_entries_numberedTable lo hi).trans ?_)
  omega

theorem numberedTable_cut {n : ℕ} (h : maxPatternTerms < n) :
    ∃ d < n, ((Reader.mem (numberedTable 0 n)).lookupPrefix "a" 0).find d = none := by
  by_contra hall
  push Not at hall
  -- every word is among the terms that are taken
  have hwords : ∀ term ∈ (range n).map numberedWord, term ∈
      ((((Reader.mem (numberedTable 0 n)).found (fun t => StartsWith t "a") 0).mergeSort inMoreDocs).take
        maxPatternTerms).map Prod.fst := by
    intro term hterm
    obtain ⟨d, hd, rfl⟩ := mem_map.mp hterm
    have hfind := hall d (mem_range.mp hd)
    rw [Reader.lookupPrefix_eq] at hfind
    obtain ⟨e, he, hne⟩ := find_cappedUnion.mp hfind
    refine mem_map.mpr ⟨e, he, ?_⟩
    have hfound := mem_mergeSort.mp (mem_of_mem_take he)
    obtain ⟨⟨k, list⟩, hmem, rfl⟩ := mem_map.mp hfound
    have hposting : (numberedTable 0 n).posting k d ≠ none := by
      rw [posting, mem_entries.mp (mem_filter.mp hmem).1]
      exact hne
    obtain ⟨-, -, rfl⟩ := (numberedTable_posts (Nat.zero_le n)).mp hposting
    rfl
  have hnodup : ((range n).map numberedWord).Nodup :=
    nodup_range.map fun _ _ heq => numberedWord_injective heq
  have hlen := (hnodup.subperm hwords).length_le
  rw [length_map, length_map, length_range, length_take] at hlen
  omega

def oneTable : List IndexAction := [.mergeIntoMemtable (numberedDocuments 0 129)]

def twoTables : List IndexAction :=
  [.mergeIntoMemtable (numberedDocuments 0 64), .publishSnapshot fun _ => false,
    .mergeIntoMemtable (numberedDocuments 64 129)]

theorem readers_oneTable (docs : List AnalyzedDocument) :
    ((start [] ∅).run [.mergeIntoMemtable docs]).index.snapshot.readers =
      [.mem (new.mergeFrom (ofDocuments docs))] := rfl

theorem snapshot_twoTables {docs docs' : List AnalyzedDocument} {busy : ℕ → Bool}
    (hposts : (new.mergeFrom (ofDocuments docs)).posting k d ≠ none) :
    ((start [] ∅).run [.mergeIntoMemtable docs, .publishSnapshot busy, .mergeIntoMemtable docs']).index.snapshot =
      ⟨new.mergeFrom (ofDocuments docs'),
        [.mem (new.mergeFrom (ofDocuments docs))], ∅⟩ := by
  have hsealed : ((start [] ∅).index.mergeIntoMemtable (ofDocuments docs)).sealMem busy =
      { (start [] ∅).index with
        mem := new
        generations := [new.mergeFrom (ofDocuments docs)] } := by
    rcases sealMem_cases (i := (start [] ∅).index.mergeIntoMemtable (ofDocuments docs)) busy with
      ⟨-, -, h⟩ | ⟨-, h⟩
    · -- the table posts something, so it was sealed
      have hnone := posting_mem_sealMem ((start [] ∅).index.mergeIntoMemtable (ofDocuments docs)) busy k d
      rw [h] at hnone
      exact absurd hnone hposts
    · exact h
  have hrun : ((start [] ∅).run [.mergeIntoMemtable docs, .publishSnapshot busy, .mergeIntoMemtable docs']).index =
      (((start [] ∅).index.mergeIntoMemtable (ofDocuments docs)).sealMem busy).mergeIntoMemtable
        (ofDocuments docs') := rfl
  rw [hrun, hsealed]
  rfl

/-- A document that is not returned with all documents in one table is returned with the same
documents in two. -/
theorem split_returns_more :
    (∀ doc, doc ∈ oneTable.flatMap IndexAction.documents ↔ doc ∈ twoTables.flatMap IndexAction.documents) ∧
      ∃ d, (((start [] ∅).run oneTable).index.snapshot.lookupPrefix "a" 0).find d = none ∧
        (((start [] ∅).run twoTables).index.snapshot.lookupPrefix "a" 0).find d ≠ none := by
  constructor
  · intro doc
    simp only [oneTable, twoTables, IndexAction.documents, flatMap_cons, flatMap_nil,
      append_nil, nil_append, mem_append]
    rw [mem_numberedDocuments (by omega), mem_numberedDocuments (by omega), mem_numberedDocuments (by omega)]
    constructor
    · rintro ⟨i, hlo, hhi, rfl⟩
      by_cases h : i < 64
      · exact .inl ⟨i, hlo, h, rfl⟩
      · exact .inr ⟨i, by omega, hhi, rfl⟩
    · rintro (⟨i, hlo, hhi, rfl⟩ | ⟨i, hlo, hhi, rfl⟩)
      · exact ⟨i, hlo, by omega, rfl⟩
      · exact ⟨i, by omega, hhi, rfl⟩
  · obtain ⟨d, hd, hnone⟩ := numberedTable_cut (n := 129) (by decide)
    refine ⟨d, ?_, ?_⟩
    · by_contra hne
      obtain ⟨-, r, hr, hfind⟩ := (find_applyDeletes _ _).mp hne
      rw [oneTable, readers_oneTable] at hr
      obtain rfl := mem_singleton.mp hr
      exact hfind hnone
    · have hfirst : (numberedTable 0 64).posting ⟨0, numberedWord 0⟩ 0 ≠ none :=
        (numberedTable_posts (Nat.zero_le 64)).mpr ⟨Nat.le_refl 0, Nat.succ_pos 63, rfl⟩
      rw [twoTables, snapshot_twoTables hfirst]
      refine (find_lookupPrefix fun r hr => ?_).mpr
        ⟨Finset.notMem_empty d, numberedWord d, startsWith_numberedWord d, ?_⟩
      · rcases mem_cons.mp hr with rfl | hr
        · exact @fewTerms_numberedTable 64 129 (by decide) _ _ _
        · obtain rfl := mem_singleton.mp hr
          exact fewTerms_numberedTable (by decide) _ _
      · by_cases h : d < 64
        · refine ⟨.mem (numberedTable 0 64), mem_cons_of_mem _ mem_cons_self, ?_⟩
          exact (numberedTable_posts (by omega)).mpr ⟨by omega, h, rfl⟩
        · refine ⟨.mem (numberedTable 64 129), mem_cons_self, ?_⟩
          exact (numberedTable_posts (by omega)).mpr ⟨by omega, hd, rfl⟩

/-- Two documents are found alike in one table and in two. -/
theorem patterns_agree_split :
    (((start [] ∅).run [.mergeIntoMemtable (numberedDocuments 0 1), .publishSnapshot fun _ => false,
        .mergeIntoMemtable (numberedDocuments 1 2)]).index.snapshot.lookupPrefix "a" 0).find 1 ≠ none ↔
      (((start [] ∅).run [.mergeIntoMemtable (numberedDocuments 0 2)]).index.snapshot.lookupPrefix "a" 0).find 1 ≠ none := by
  have hfirst : (numberedTable 0 1).posting ⟨0, numberedWord 0⟩ 0 ≠ none :=
    (numberedTable_posts (Nat.zero_le 1)).mpr ⟨Nat.le_refl 0, Nat.one_pos, rfl⟩
  have hagree := @patterns_agree_of_sameDocuments _ _ 1
    (Fresh.opened [] ∅ nodup_nil) (Fresh.opened [] ∅ nodup_nil)
    [.mergeIntoMemtable (numberedDocuments 0 1), .publishSnapshot fun _ => false,
      .mergeIntoMemtable (numberedDocuments 1 2)] [.mergeIntoMemtable (numberedDocuments 0 2)] (fun _ _ => Iff.rfl) (fun _ => Iff.rfl)
    (Finset.notMem_empty 1) (Finset.notMem_empty 1) (by simp) (by simp) _ _ (.inl rfl) (.inl rfl)
  refine hagree.1 "a" 0 fun r hr => ?_
  rw [snapshot_twoTables hfirst, readers_oneTable] at hr
  simp only [IndexSnapshot.readers, cons_append, nil_append, mem_cons, not_mem_nil, or_false] at hr
  rcases hr with rfl | rfl | rfl
  · exact fewTerms_numberedTable (by decide) _ _
  · exact fewTerms_numberedTable (by decide) _ _
  · exact fewTerms_numberedTable (by decide) _ _

end World
