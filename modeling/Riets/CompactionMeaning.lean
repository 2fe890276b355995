/-
What a compaction answers.

The output of a compaction should answer every question about a
document-keyed field as the union of its inputs with the tombstoned documents
removed (`AnswersAsUnion`).  Two details of the file decide whether it does:
the output packs all numbers of a field under one kind, the kind of its first
number, and a dense field has no room for the length `u32::MAX`.
-/
import Riets.Compaction

open SortedMap PostingList Option

namespace Segment

def docIds (s : Segment) (x : XPathId) : Finset DocId :=
  ((s.terms.entries.filter fun e => e.1.xpath = x).flatMap fun e => e.2.ids).toFinset ∪
    (((s.numericFields.fields.get? x).map fun f => f.docValues.entries.map Prod.fst).getD []).toFinset
    ∪ s.boolTrueIds x ∪ s.boolFalseIds x ∪ (fieldDocs s.docLengths x).toFinset

variable {s : Segment} {x : XPathId} {d : DocId}

theorem mem_docIds_of_posting {k : TermKey} (h : s.posting k d ≠ none) : d ∈ s.docIds k.xpath := by
  rw [posting] at h
  cases hl : s.terms.get? k with
  | none => exact absurd (by rw [hl]; rfl) h
  | some list =>
    rw [hl, bind_some, ← mem_ids] at h
    have hmem : d ∈ (s.terms.entries.filter fun e => e.1.xpath = k.xpath).flatMap fun e => e.2.ids :=
      List.mem_flatMap.mpr ⟨(k, list), List.mem_filter.mpr ⟨mem_entries.mpr hl, by simp⟩, h⟩
    simp [docIds, List.mem_toFinset.mpr hmem]

theorem mem_docIds_of_numbers (h : s.numbers x d ≠ []) : d ∈ s.docIds x := by
  rw [numbers, NumericFields.of] at h
  have hmem : d ∈ (((s.numericFields.fields.get? x).map
      fun f => f.docValues.entries.map Prod.fst).getD []) := by
    cases hf : s.numericFields.fields.get? x with
    | none => exact absurd (by rw [hf]; rfl) h
    | some f =>
      rw [hf, map_some, getD_some] at h
      obtain ⟨e, he⟩ := List.exists_mem_of_ne_nil _ h
      obtain ⟨hmem, hd⟩ := List.mem_filter.mp he
      rw [map_some, getD_some]
      exact List.mem_map.mpr ⟨e, hmem, by simpa using hd⟩
  simp [docIds, List.mem_toFinset.mpr hmem]

theorem mem_fieldDocs {m : SortedMap LengthKey ℕ} : d ∈ fieldDocs m x ↔ m.get? (toLex (d, x)) ≠ none := by
  rw [fieldDocs, List.mem_map, ne_none_iff_exists']
  constructor
  · rintro ⟨⟨key, len⟩, he, rfl⟩
    obtain ⟨hmem, hx⟩ := List.mem_filter.mp he
    have hkey : toLex ((ofLex key).1, x) = key := by
      rw [← of_decide_eq_true hx]
      rfl
    exact ⟨len, by rw [hkey]; exact mem_entries.mp hmem⟩
  · rintro ⟨len, h⟩
    exact ⟨(toLex (d, x), len), List.mem_filter.mpr ⟨mem_entries.mpr h, by simp⟩, rfl⟩

theorem mem_docIds_of_docLen (h : s.docLen d x ≠ none) : d ∈ s.docIds x := by
  have hmem : d ∈ fieldDocs s.docLengths x := mem_fieldDocs.mpr h
  simp [docIds, List.mem_toFinset.mpr hmem]

end Segment

namespace Compaction

/-- No document has something in field `x` of two inputs. -/
def DisjointAt (x : XPathId) (opened : List Segment) : Prop :=
  opened.Pairwise fun a b => Disjoint (a.docIds x) (b.docIds x)

instance (x : XPathId) (opened : List Segment) : Decidable (DisjointAt x opened) :=
  inferInstanceAs (Decidable (opened.Pairwise fun a b => Disjoint (a.docIds x) (b.docIds x)))

/-- The lengths of field `x` in one input that no tombstone hides. -/
def liveLengths (deleted : DeleteSet) (x : XPathId) (s : Segment) : List (LengthKey × ℕ) :=
  s.docLengths.entries.filter fun e => (ofLex e.1).2 = x ∧ (ofLex e.1).1 ∉ deleted

/-- What the union of the inputs answers at one id, when each input answers
with an option. -/
def unionAt {α : Type*} (opened : List Segment) (deleted : DeleteSet) (d : DocId)
    (answer : Segment → Option α) : Option α :=
  if d ∈ deleted then none else opened.findSome? answer

/-- `out` answers every question about field `x` as the union of the inputs
with the tombstoned documents removed. -/
structure AnswersAsUnion (out : Segment) (opened : List Segment) (deleted : DeleteSet)
    (x : XPathId) : Prop where
  lookup : ∀ term d, (out.lookup term x).find d
    = unionAt opened deleted d fun s => (s.lookup term x).find d
  numericRange : ∀ lo hi d, (out.numericRange x lo hi).find d
    = unionAt opened deleted d fun s => (s.numericRange x lo hi).find d
  numericValue : ∀ d, out.numericValue x d = unionAt opened deleted d fun s => s.numericValue x d
  boolTrueIds : ∀ d, d ∈ out.boolTrueIds x ↔ d ∉ deleted ∧ ∃ s ∈ opened, d ∈ s.boolTrueIds x
  boolFalseIds : ∀ d, d ∈ out.boolFalseIds x ↔ d ∉ deleted ∧ ∃ s ∈ opened, d ∈ s.boolFalseIds x
  docLen : ∀ d, out.docLen d x = unionAt opened deleted d fun s => s.docLen d x
  docCount : out.docCount x = (opened.map fun s => (liveLengths deleted x s).length).sum
  totalDocLen : out.totalDocLen x
    = (opened.map fun s => ((liveLengths deleted x s).map Prod.snd).sum).sum

/-- The kind of field `x` in an input, if one of its numbers survives. -/
def survivingKind (deleted : DeleteSet) (x : XPathId) (s : Segment) : Option NumericKind :=
  (s.numericFields.fields.get? x).bind fun field =>
    if ∃ e ∈ field.docValues.entries, e.1 ∉ deleted then some field.docValues.kind else none

def OneKind (opened : List Segment) (deleted : DeleteSet) (x : XPathId) : Prop :=
  ∃ kind, ∀ s ∈ opened, ∀ k ∈ survivingKind deleted x s, k = kind

theorem oneKind_iff {opened : List Segment} {deleted : DeleteSet} {x : XPathId} :
    OneKind opened deleted x ↔ ∃ kind, ∀ s ∈ opened, ∀ field,
      s.numericFields.fields.get? x = some field →
      (∃ e ∈ field.docValues.entries, e.1 ∉ deleted) → field.docValues.kind = kind := by
  refine exists_congr fun kind => forall₂_congr fun s _ => ?_
  rw [survivingKind]
  cases s.numericFields.fields.get? x with
  | none => simp
  | some field =>
    by_cases h : ∃ e ∈ field.docValues.entries, e.1 ∉ deleted
    · simp only [bind_some, if_pos h, mem_def, some_inj, forall_eq']
      exact ⟨fun hk _ => hk, fun hk => hk h⟩
    · simp only [bind_some, if_neg h, mem_def, some_inj]
      exact ⟨fun _ f hf he => absurd (hf ▸ he) h, fun _ k hk => absurd hk (by simp)⟩

/-- No surviving length of field `x` is `u32::MAX`, if the survivors are dense. -/
def LengthsFit (opened : List Segment) (deleted : DeleteSet) (x : XPathId) : Prop :=
  Segment.isDense (opened.flatMap fun s => (liveLengths deleted x s).map fun e => (ofLex e.1).1) →
    ∀ s ∈ opened, ∀ e ∈ liveLengths deleted x s, e.2 ≠ u32Max

/-! ### At most one input answers -/

section AtMostOne

variable {opened : List Segment} {x : XPathId} {d : DocId}

theorem joinAll_eq_findSome? {l : List (Option Posting)}
    (h : l.Pairwise fun a b => a = none ∨ b = none) :
    joinAll l = l.findSome? id := by
  have hnone : ∀ l : List (Option Posting), (∀ o ∈ l, o = none) → ∀ o,
      l.foldl join o = o := by
    intro l
    induction l with
    | nil => exact fun _ _ => rfl
    | cons q l ih =>
      intro hl o
      rw [List.foldl_cons, hl q (by simp), join_none_right]
      exact ih (fun o ho => hl o (by simp [ho])) o
  rw [joinAll]
  induction l with
  | nil => rfl
  | cons o l ih =>
    obtain ⟨h1, h2⟩ := List.pairwise_cons.mp h
    rw [List.foldl_cons, List.findSome?_cons]
    cases o with
    | none => exact ih h2
    | some p => exact hnone l (fun q hq => (h1 q hq).resolve_left (by simp)) (some p)

theorem foldl_or_eq_findSome? {α β : Type*} {f : α → Option β} {l : List α}
    (h : l.Pairwise fun a b => f a = none ∨ f b = none) :
    l.foldl (fun o a => (f a).or o) none = l.findSome? f := by
  have hnone : ∀ l : List α, (∀ a ∈ l, f a = none) → ∀ o,
      l.foldl (fun o a => (f a).or o) o = o := by
    intro l
    induction l with
    | nil => exact fun _ _ => rfl
    | cons a l ih =>
      intro hl o
      rw [List.foldl_cons, hl a (by simp), none_or]
      exact ih (fun b hb => hl b (by simp [hb])) o
  induction l with
  | nil => rfl
  | cons a l ih =>
    obtain ⟨h1, h2⟩ := List.pairwise_cons.mp h
    rw [List.foldl_cons, List.findSome?_cons]
    cases ha : f a with
    | none => exact ih h2
    | some b => exact hnone l (fun c hc => (h1 c hc).resolve_left (by simp [ha])) (some b)

theorem getLast?_flatMap {α β : Type*} {f : α → List β} {l : List α}
    (h : l.Pairwise fun a b => f a = [] ∨ f b = []) :
    (l.flatMap f).getLast? = l.findSome? fun a => (f a).getLast? := by
  induction l with
  | nil => rfl
  | cons a l ih =>
    obtain ⟨h1, h2⟩ := List.pairwise_cons.mp h
    rw [List.flatMap_cons, List.getLast?_append, ih h2, List.findSome?_cons]
    cases ha : (f a).getLast? with
    | none => simp
    | some b =>
      have hne : f a ≠ [] := fun h0 => by simp [h0] at ha
      have hrest : l.findSome? (fun a => (f a).getLast?) = none := by
        rw [List.findSome?_eq_none_iff]
        intro c hc
        rw [(h1 c hc).resolve_left hne]
        rfl
      rw [hrest]
      rfl

theorem findSome?_of_mem {α β : Type*} {f : α → Option β} {l : List α}
    (h : l.Pairwise fun a b => f a = none ∨ f b = none) {a : α} (ha : a ∈ l) {b : β}
    (hab : f a = some b) : l.findSome? f = some b := by
  induction l with
  | nil => exact absurd ha (by simp)
  | cons c l ih =>
    obtain ⟨h1, h2⟩ := List.pairwise_cons.mp h
    rw [List.findSome?_cons]
    rcases List.mem_cons.mp ha with rfl | ha
    · rw [hab]
    · rw [(h1 a ha).resolve_right (by simp [hab])]
      exact ih h2 ha

theorem findSome?_congr {α β : Type*} {f g : α → Option β} {l : List α}
    (h : ∀ a ∈ l, f a = g a) : l.findSome? f = l.findSome? g := by
  induction l with
  | nil => rfl
  | cons a l ih =>
    rw [List.findSome?_cons, List.findSome?_cons, h a (by simp), ih fun b hb => h b (by simp [hb])]

variable (hdisj : DisjointAt x opened)
include hdisj

theorem DisjointAt.pairwise {P : Segment → Prop}
    (hP : ∀ s, P s → d ∈ s.docIds x) : opened.Pairwise fun a b => ¬ P a ∨ ¬ P b := by
  refine List.Pairwise.imp (fun {a b} hab => ?_) hdisj
  by_cases ha : P a
  · exact .inr fun hb => Finset.disjoint_left.mp hab (hP a ha) (hP b hb)
  · exact .inl ha

theorem DisjointAt.posting (term : String) (d : DocId) :
    opened.Pairwise fun a b => a.posting ⟨x, term⟩ d = none ∨ b.posting ⟨x, term⟩ d = none :=
  (hdisj.pairwise (P := fun s => s.posting ⟨x, term⟩ d ≠ none)
    fun _ h => Segment.mem_docIds_of_posting (k := ⟨x, term⟩) h).imp fun h => h.imp not_not.mp not_not.mp

theorem DisjointAt.numbers (d : DocId) :
    opened.Pairwise fun a b => a.numbers x d = [] ∨ b.numbers x d = [] :=
  (hdisj.pairwise (P := fun s => s.numbers x d ≠ [])
    fun _ h => Segment.mem_docIds_of_numbers h).imp fun h => h.imp not_not.mp not_not.mp

theorem DisjointAt.docLen (d : DocId) :
    opened.Pairwise fun a b => a.docLen d x = none ∨ b.docLen d x = none :=
  (hdisj.pairwise (P := fun s => s.docLen d x ≠ none)
    fun _ h => Segment.mem_docIds_of_docLen h).imp fun h => h.imp not_not.mp not_not.mp

end AtMostOne

section Parts

variable (deleted : DeleteSet) {opened : List Segment} {x : XPathId} {d : DocId}

theorem lookup_compacted (hdisj : DisjointAt x opened) (term : String) (d : DocId) :
    ((compacted deleted opened).lookup term x).find d
      = unionAt opened deleted d fun s => (s.lookup term x).find d := by
  simp only [Segment.find_lookup, unionAt, posting_compacted]
  rw [joinAll_eq_findSome?, List.findSome?_map]
  · rfl
  · exact List.pairwise_map.mpr (hdisj.posting term d)

theorem mem_numericRange_compacted {lo hi : Option NumericBound} :
    d ∈ (compacted deleted opened).numericFields.range x lo hi
      ↔ d ∉ deleted ∧ ∃ s ∈ opened, d ∈ s.numericFields.range x lo hi := by
  have hnum := numbers_compacted deleted opened x d
  rw [Segment.numbers] at hnum
  simp only [NumericFields.mem_range, hnum]
  by_cases hd : d ∈ deleted
  · simp [hd]
  · simp only [hd, if_false, List.mem_flatMap, not_false_eq_true, true_and]
    constructor
    · rintro ⟨e, ⟨s, hs, he⟩, hb⟩
      exact ⟨s, hs, e, he, hb⟩
    · rintro ⟨s, hs, e, he, hb⟩
      exact ⟨e, ⟨s, hs, he⟩, hb⟩

theorem numericRange_compacted (lo hi : Option NumericBound) (d : DocId) :
    ((compacted deleted opened).numericRange x lo hi).find d
      = unionAt opened deleted d fun s => (s.numericRange x lo hi).find d := by
  have hfind : (opened.findSome? fun s => if d ∈ s.numericFields.range x lo hi then
      some (⟨d, [], 0⟩ : Posting) else none)
      = if ∃ s ∈ opened, d ∈ s.numericFields.range x lo hi then some ⟨d, [], 0⟩ else none := by
    induction opened with
    | nil => simp
    | cons s opened ih =>
      rw [List.findSome?_cons]
      by_cases hs : d ∈ s.numericFields.range x lo hi
      · simp [hs]
      · simp [hs, ih]
  simp only [Segment.numericRange, Segment.find_idPostings, unionAt, hfind,
    mem_numericRange_compacted]
  by_cases hd : d ∈ deleted <;> simp [hd]

/-! ### Values -/

def firstKind (points : DocPoints) : NumericKind :=
  (points.items.head?.map fun p => p.2.kind).getD default

theorem get_build (n : NumericPoints) (x : XPathId) (d : DocId) :
    n.build.get x d
      = (((n.at_ x).of d).getLast?).map fun p => unpack (pack p.2) (firstKind (n.at_ x)) := by
  rw [NumericFields.get, NumericPoints.build, NumericFields.fromPoints, get?_map, NumericPoints.at_]
  cases n.points.get? x with
  | none => rfl
  | some points =>
    rw [map_some, bind_some, DocValues.get_eq, NumericField.of_ofPoints, List.getLast?_map, map_map]
    rfl

theorem unpack_inj_kind {p : BitVec 64} {k k' : NumericKind} (h : unpack p k = unpack p k') :
    k = k' := by
  have := congrArg NumericValue.kind h
  rwa [unpack_kind, unpack_kind] at this

theorem numericValue_compacted (hdisj : DisjointAt x opened) (d : DocId) :
    (compacted deleted opened).numericValue x d
      = unionAt opened deleted d fun s => ((s.numbers x d).getLast?).map fun e =>
        unpack e.2 (firstKind ((mergedPoints deleted opened).at_ x)) := by
  obtain ⟨file, -, hc, -, -, hnum, -⟩ := compacted_spec deleted opened
  have hfields : (compacted deleted opened).numericFields = (mergedPoints deleted opened).build := by
    rw [hc, ← hnum]
    rfl
  rw [Segment.numericValue, hfields, get_build, of_mergedPoints, unionAt]
  split_ifs with hd
  · rfl
  · have hcontr : ∀ s : Segment, contributed x d s = [] ↔ s.numbers x d = [] := by
      intro s
      rw [contributed, Segment.numbers, NumericFields.of]
      cases s.numericFields.fields.get? x <;> simp
    rw [getLast?_flatMap ((hdisj.numbers d).imp fun h => h.imp (hcontr _).mpr (hcontr _).mpr)]
    rw [List.map_findSome?]
    refine congrArg (fun f => opened.findSome? f) (funext fun s => ?_)
    rw [Function.comp_apply, contributed, Segment.numbers, NumericFields.of]
    cases s.numericFields.fields.get? x with
    | none => rfl
    | some field =>
      simp only [List.getLast?_map, map_map, map_some, getD_some]
      refine congrArg (fun f => Option.map f (field.docValues.of d).getLast?) (funext fun e => ?_)
      rw [Function.comp_apply, pack_unpack]

theorem numericValue_eq (s : Segment) (x : XPathId) (d : DocId) :
    s.numericValue x d = ((s.numbers x d).getLast?).bind fun e =>
      (s.numericFields.fields.get? x).map fun field => unpack e.2 field.docValues.kind := by
  rw [Segment.numericValue, NumericFields.get, Segment.numbers, NumericFields.of]
  cases s.numericFields.fields.get? x with
  | none => rfl
  | some field =>
    rw [bind_some, DocValues.get_eq, map_some, getD_some]
    cases (field.docValues.of d).getLast? <;> rfl

theorem mem_numbers {s : Segment} {field : NumericField}
    (hf : s.numericFields.fields.get? x = some field) {e : DocId × BitVec 64} :
    e ∈ s.numbers x d ↔ e ∈ field.docValues.entries ∧ e.1 = d := by
  rw [Segment.numbers, NumericFields.of, hf, map_some, getD_some, DocValues.of,
    List.mem_filter, decide_eq_true_eq]

theorem firstKind_mergedPoints {kind : NumericKind}
    (hkind : ∀ s ∈ opened, ∀ field, s.numericFields.fields.get? x = some field →
      (∃ e ∈ field.docValues.entries, e.1 ∉ deleted) → field.docValues.kind = kind)
    (hne : ((mergedPoints deleted opened).at_ x).of d ≠ []) :
    firstKind ((mergedPoints deleted opened).at_ x) = kind := by
  have hmem : ∀ p ∈ ((mergedPoints deleted opened).at_ x).items, p.2.kind = kind := by
    intro p hp
    have hof : p ∈ ((mergedPoints deleted opened).at_ x).of p.1 := by
      rw [DocPoints.of, List.mem_filter]
      exact ⟨hp, by simp⟩
    rw [of_mergedPoints] at hof
    split_ifs at hof with hd
    · exact absurd hof (by simp)
    · obtain ⟨s, hs, hps⟩ := List.mem_flatMap.mp hof
      rw [contributed] at hps
      cases hf : s.numericFields.fields.get? x with
      | none => simp [hf] at hps
      | some field =>
        rw [hf] at hps
        obtain ⟨e, he, rfl⟩ := List.mem_map.mp hps
        obtain ⟨hmem, hed⟩ := List.mem_filter.mp he
        have hlive : e.1 ∉ deleted := hd
        rw [unpack_kind]
        exact hkind s hs field hf ⟨e, hmem, hlive⟩
  obtain ⟨p, hp⟩ := List.exists_mem_of_ne_nil _ hne
  rw [firstKind]
  cases hh : ((mergedPoints deleted opened).at_ x).items with
  | nil =>
    have := List.mem_of_mem_filter hp
    simp [hh] at this
  | cons q qs => exact hmem q (by simp [hh])

theorem numericValue_iff_oneKind (hdisj : DisjointAt x opened) :
    (∀ d, (compacted deleted opened).numericValue x d
        = unionAt opened deleted d fun s => s.numericValue x d) ↔ OneKind opened deleted x := by
  constructor
  · intro h
    refine oneKind_iff.mpr
      ⟨firstKind ((mergedPoints deleted opened).at_ x), fun s hs field hf he => ?_⟩
    obtain ⟨e, he, hlive⟩ := he
    -- the input's last number of that document, read under both kinds
    have hne : s.numbers x e.1 ≠ [] := List.ne_nil_of_mem ((mem_numbers hf).mpr ⟨he, rfl⟩)
    obtain ⟨q, hq⟩ : ∃ q, (s.numbers x e.1).getLast? = some q := by
      cases hq : (s.numbers x e.1).getLast? with
      | none => exact absurd (List.getLast?_eq_none_iff.mp hq) hne
      | some q => exact ⟨q, rfl⟩
    have hin : s.numericValue x e.1 = some (unpack q.2 field.docValues.kind) := by
      rw [numericValue_eq, hq, hf]
      rfl
    have hpair := hdisj.numbers e.1
    have hout := h e.1
    rw [numericValue_compacted deleted hdisj, unionAt, unionAt, if_neg hlive, if_neg hlive,
      findSome?_of_mem (f := fun s => s.numericValue x e.1) _ hs hin,
      findSome?_of_mem _ hs (by rw [hq]; rfl)] at hout
    · exact (unpack_inj_kind (some_inj.mp hout)).symm
    · refine hpair.imp fun h => h.imp (fun h => ?_) fun h => ?_ <;> rw [h] <;> rfl
    · refine hpair.imp fun h => h.imp (fun h => ?_) fun h => ?_ <;> rw [numericValue_eq, h] <;> rfl
  · intro hone d
    obtain ⟨kind, hkind⟩ := oneKind_iff.mp hone
    rw [numericValue_compacted deleted hdisj, unionAt, unionAt]
    split_ifs with hd
    · rfl
    · refine findSome?_congr fun s hs => ?_
      rw [numericValue_eq]
      cases hq : (s.numbers x d).getLast? with
      | none => rfl
      | some q =>
        have hmem : q ∈ s.numbers x d := List.mem_of_getLast? hq
        cases hf : s.numericFields.fields.get? x with
        | none => simp [Segment.numbers, NumericFields.of, hf] at hmem
        | some field =>
          obtain ⟨hent, hqd⟩ := (mem_numbers hf).mp hmem
          have hfield : field.docValues.kind = kind :=
            hkind s hs field hf ⟨q, hent, by rw [hqd]; exact hd⟩
          have hne : ((mergedPoints deleted opened).at_ x).of d ≠ [] := by
            rw [of_mergedPoints, if_neg hd]
            refine List.ne_nil_of_mem (a := (q.1, unpack q.2 field.docValues.kind))
              (List.mem_flatMap.mpr ⟨s, hs, ?_⟩)
            rw [contributed, hf]
            exact List.mem_map.mpr ⟨q, List.mem_filter.mpr ⟨hent, by simpa using hqd⟩, rfl⟩
          rw [firstKind_mergedPoints deleted hkind hne, map_some, bind_some, map_some, hfield]

/-! ### Lengths -/

theorem mem_liveLengths {s : Segment} {e : LengthKey × ℕ} :
    e ∈ liveLengths deleted x s
      ↔ (ofLex e.1).2 = x ∧ (ofLex e.1).1 ∉ deleted ∧ s.docLen (ofLex e.1).1 x = some e.2 := by
  rw [liveLengths, List.mem_filter]
  simp only [decide_eq_true_eq, Segment.docLen]
  constructor
  · rintro ⟨hmem, hx, hd⟩
    refine ⟨hx, hd, ?_⟩
    rw [← hx]
    exact mem_entries.mp hmem
  · rintro ⟨hx, hd, hlen⟩
    rw [← hx] at hlen
    exact ⟨mem_entries.mpr hlen, hx, hd⟩

theorem nodup_entries {K V : Type*} [LinearOrder K] (m : SortedMap K V) : m.entries.Nodup :=
  m.ascending.imp fun hab heq => absurd (congrArg Prod.fst heq) (ne_of_lt hab)

theorem get?_mergedLengths_eq (hdisj : DisjointAt x opened) (d : DocId) :
    (mergedLengths deleted opened).get? (toLex (d, x))
      = unionAt opened deleted d fun s => s.docLen d x := by
  rw [get?_mergedLengths, foldl_or_eq_findSome? (hdisj.docLen d)]
  rfl

theorem perm_mergedLengths (hdisj : DisjointAt x opened) :
    ((mergedLengths deleted opened).entries.filter fun e => (ofLex e.1).2 = x).Perm
      (opened.flatMap (liveLengths deleted x)) := by
  have hnodup : (opened.flatMap (liveLengths deleted x)).Nodup := by
    rw [List.nodup_flatMap]
    refine ⟨fun s _ => (nodup_entries s.docLengths).sublist List.filter_sublist, ?_⟩
    refine List.Pairwise.imp (fun {a b} hab => ?_) hdisj
    intro e ha hb
    have hda := Segment.mem_docIds_of_docLen
      (by rw [((mem_liveLengths deleted).mp ha).2.2]; simp : a.docLen (ofLex e.1).1 x ≠ none)
    have hdb := Segment.mem_docIds_of_docLen
      (by rw [((mem_liveLengths deleted).mp hb).2.2]; simp : b.docLen (ofLex e.1).1 x ≠ none)
    exact Finset.disjoint_left.mp hab hda hdb
  refine (List.perm_ext_iff_of_nodup ((nodup_entries _).sublist List.filter_sublist) hnodup).mpr
    fun e => ?_
  rw [List.mem_filter, List.mem_flatMap, decide_eq_true_eq]
  constructor
  · rintro ⟨hmem, hx⟩
    have hget : (mergedLengths deleted opened).get? (toLex ((ofLex e.1).1, x)) = some e.2 := by
      rw [← hx]
      exact mem_entries.mp hmem
    rw [get?_mergedLengths_eq deleted hdisj, unionAt] at hget
    split_ifs at hget with hd
    obtain ⟨s, hs, hlen⟩ := List.exists_of_findSome?_eq_some hget
    exact ⟨s, hs, (mem_liveLengths deleted).mpr ⟨hx, hd, hlen⟩⟩
  · rintro ⟨s, hs, he⟩
    obtain ⟨hx, hd, hlen⟩ := (mem_liveLengths deleted).mp he
    refine ⟨?_, hx⟩
    have hget : (mergedLengths deleted opened).get? (toLex ((ofLex e.1).1, x)) = some e.2 := by
      rw [get?_mergedLengths_eq deleted hdisj, unionAt, if_neg hd]
      exact findSome?_of_mem (hdisj.docLen _) hs hlen
    rw [← hx] at hget
    exact mem_entries.mpr hget

theorem isDense_perm {l l' : List DocId} (h : l.Perm l') : Segment.isDense l = Segment.isDense l' := by
  have hmin : l.min? = l'.min? := by
    ext a
    simp only [List.min?_eq_some_iff, h.mem_iff]
  have hmax : l.max? = l'.max? := by
    ext a
    simp only [List.max?_eq_some_iff, h.mem_iff]
  rw [Segment.isDense, Segment.isDense, hmin, hmax, h.length_eq]

theorem docLengths_compacted :
    (compacted deleted opened).docLengths = Segment.openLengths (mergedLengths deleted opened) := by
  obtain ⟨file, -, hc, -, hlen, -⟩ := compacted_spec deleted opened
  rw [hc, ← hlen]
  rfl

theorem isDense_fieldDocs (hdisj : DisjointAt x opened) :
    Segment.isDense (Segment.fieldDocs (mergedLengths deleted opened) x)
      = Segment.isDense
        (opened.flatMap fun s => (liveLengths deleted x s).map fun e => (ofLex e.1).1) := by
  refine isDense_perm ?_
  rw [Segment.fieldDocs]
  refine ((perm_mergedLengths deleted hdisj).map _).trans (List.Perm.of_eq ?_)
  rw [List.map_flatMap]

theorem docLen_compacted (hdisj : DisjointAt x opened) (d : DocId) :
    (compacted deleted opened).docLen d x
      = (unionAt opened deleted d fun s => s.docLen d x).filter fun len =>
        !(Segment.isDense (opened.flatMap fun s =>
          (liveLengths deleted x s).map fun e => (ofLex e.1).1) && len = u32Max) := by
  rw [Segment.docLen, docLengths_compacted, Segment.get?_openLengths, isDense_fieldDocs deleted hdisj,
    get?_mergedLengths_eq deleted hdisj]

theorem docLen_iff_lengthsFit (hdisj : DisjointAt x opened) :
    (∀ d, (compacted deleted opened).docLen d x
        = unionAt opened deleted d fun s => s.docLen d x) ↔ LengthsFit opened deleted x := by
  constructor
  · intro h hdense s hs e he hmax
    obtain ⟨hx, hd, hlen⟩ := (mem_liveLengths deleted).mp he
    have hunion : (unionAt opened deleted (ofLex e.1).1 fun s => s.docLen (ofLex e.1).1 x)
        = some e.2 := by
      rw [unionAt, if_neg hd]
      exact findSome?_of_mem (hdisj.docLen _) hs hlen
    have hout := h (ofLex e.1).1
    rw [docLen_compacted deleted hdisj, hunion] at hout
    simp [Option.filter, hdense, hmax] at hout
  · intro hfit d
    rw [docLen_compacted deleted hdisj]
    cases hunion : unionAt opened deleted d fun s => s.docLen d x with
    | none => rfl
    | some len =>
      rw [unionAt] at hunion
      split_ifs at hunion with hd
      obtain ⟨s, hs, hlen⟩ := List.exists_of_findSome?_eq_some hunion
      have he : (toLex (d, x), len) ∈ liveLengths deleted x s :=
        (mem_liveLengths deleted).mpr ⟨rfl, hd, hlen⟩
      by_cases hdense : Segment.isDense
          (opened.flatMap fun s => (liveLengths deleted x s).map fun e => (ofLex e.1).1) = true
      · have hne : len ≠ u32Max := hfit hdense s hs _ he
        simp [Option.filter, hne]
      · simp [Option.filter, hdense]

theorem buildFieldStats_get? (l : List (LengthKey × ℕ)) (x : XPathId) :
    ((Segment.buildFieldStats l).get? x).getD default
      = ⟨(l.filter fun e => (ofLex e.1).2 = x).length,
        ((l.filter fun e => (ofLex e.1).2 = x).map Prod.snd).sum⟩ := by
  rw [Segment.buildFieldStats, get?_extend, get?_empty, List.filter_map]
  have hfold : ∀ (l : List (LengthKey × ℕ)) (o : Option FieldStats),
      ((l.map fun e => ((ofLex e.1).2, e.2)).foldl (fun o (e : XPathId × ℕ) =>
        some (⟨(o.getD default).docCount + 1, (o.getD default).totalDocLen + e.2⟩ : FieldStats))
        o).getD default
        = ⟨(o.getD default).docCount + l.length, (o.getD default).totalDocLen + (l.map Prod.snd).sum⟩ := by
    intro l
    induction l with
    | nil => simp
    | cons e l ih =>
      intro o
      rw [List.map_cons, List.foldl_cons, ih]
      simp only [getD_some, List.length_cons, List.map_cons, List.sum_cons, FieldStats.mk.injEq]
      omega
  rw [hfold]
  simp only [getD_none, default, Nat.zero_add]
  rfl

theorem stats_compacted :
    (((compacted deleted opened).fieldStats.get? x).getD default)
      = ⟨((compacted deleted opened).docLengths.entries.filter fun e => (ofLex e.1).2 = x).length,
        (((compacted deleted opened).docLengths.entries.filter
          fun e => (ofLex e.1).2 = x).map Prod.snd).sum⟩ := by
  obtain ⟨file, -, hc, -⟩ := compacted_spec deleted opened
  rw [← buildFieldStats_get?, hc]
  rfl

theorem perm_openLengths (hdisj : DisjointAt x opened) (hfit : LengthsFit opened deleted x) :
    ((compacted deleted opened).docLengths.entries.filter fun e => (ofLex e.1).2 = x).Perm
      (opened.flatMap (liveLengths deleted x)) := by
  refine List.Perm.trans (List.Perm.of_eq ?_) (perm_mergedLengths deleted hdisj)
  rw [docLengths_compacted, Segment.openLengths, SortedMap.filter, List.filter_filter]
  refine List.filter_congr fun e he => ?_
  by_cases hx : (ofLex e.1).2 = x
  · have hmem : e ∈ opened.flatMap (liveLengths deleted x) :=
      (perm_mergedLengths deleted hdisj).mem_iff.mp (List.mem_filter.mpr ⟨he, by simpa using hx⟩)
    obtain ⟨s, hs, hes⟩ := List.mem_flatMap.mp hmem
    rw [hx, isDense_fieldDocs deleted hdisj]
    by_cases hdense : Segment.isDense
        (opened.flatMap fun s => (liveLengths deleted x s).map fun e => (ofLex e.1).1) = true
    · simp [hfit hdense s hs e hes]
    · simp [hdense]
  · simp [hx]

theorem docCount_compacted (hdisj : DisjointAt x opened) (hfit : LengthsFit opened deleted x) :
    (compacted deleted opened).docCount x
      = (opened.map fun s => (liveLengths deleted x s).length).sum := by
  have hstats := congrArg FieldStats.docCount
    (stats_compacted deleted : ((compacted deleted opened).fieldStats.get? x).getD default = _)
  rw [(perm_openLengths deleted hdisj hfit).length_eq, List.length_flatMap] at hstats
  refine Eq.trans ?_ hstats
  rw [Segment.docCount]
  cases (compacted deleted opened).fieldStats.get? x <;> rfl

theorem totalDocLen_compacted (hdisj : DisjointAt x opened) (hfit : LengthsFit opened deleted x) :
    (compacted deleted opened).totalDocLen x
      = (opened.map fun s => ((liveLengths deleted x s).map Prod.snd).sum).sum := by
  have hsum : ∀ l : List Segment, ((l.flatMap (liveLengths deleted x)).map Prod.snd).sum
      = (l.map fun s => ((liveLengths deleted x s).map Prod.snd).sum).sum := by
    intro l
    induction l with
    | nil => rfl
    | cons s l ih =>
      rw [List.flatMap_cons, List.map_append, List.sum_append, ih, List.map_cons, List.sum_cons]
  have hstats := congrArg FieldStats.totalDocLen
    (stats_compacted deleted : ((compacted deleted opened).fieldStats.get? x).getD default = _)
  rw [((perm_openLengths deleted hdisj hfit).map Prod.snd).sum_eq, hsum] at hstats
  refine Eq.trans ?_ hstats
  rw [Segment.totalDocLen]
  cases (compacted deleted opened).fieldStats.get? x <;> rfl

/-- **Compaction answers as the union of its inputs** exactly when the
surviving numbers of the field have one kind and its lengths fit. -/
theorem answersAsUnion_iff (hdisj : DisjointAt x opened) :
    AnswersAsUnion (compacted deleted opened) opened deleted x
      ↔ OneKind opened deleted x ∧ LengthsFit opened deleted x := by
  constructor
  · intro h
    exact ⟨(numericValue_iff_oneKind deleted hdisj).mp h.numericValue,
      (docLen_iff_lengthsFit deleted hdisj).mp h.docLen⟩
  · rintro ⟨hkind, hfit⟩
    exact
      { lookup := lookup_compacted deleted hdisj
        numericRange := numericRange_compacted deleted
        numericValue := (numericValue_iff_oneKind deleted hdisj).mpr hkind
        boolTrueIds := fun _ => mem_boolTrueIds_compacted deleted opened
        boolFalseIds := fun _ => mem_boolFalseIds_compacted deleted opened
        docLen := (docLen_iff_lengthsFit deleted hdisj).mpr hfit
        docCount := docCount_compacted deleted hdisj hfit
        totalDocLen := totalDocLen_compacted deleted hdisj hfit }

end Parts

/-- A document with one number in field `0`. -/
def numberDoc (id : DocId) (value : NumericValue) : AnalyzedDocument :=
  ⟨id, ⟨[], [⟨0, value⟩], []⟩, []⟩

def segmentOf (doc : AnalyzedDocument) : Segment :=
  (MemIndex.freezeShared [MemIndex.new.addAnalyzedDocument doc]).openWritten

/-- `5` written while the field held integers, `1.5` after it was changed to
decimal numbers. -/
def mixedSegments : List Segment :=
  [segmentOf (numberDoc 1 (.int 5)), segmentOf (numberDoc 2 (.float 0x3FF8000000000000))]

/-- The two disjoint segments merge into one that reads `1.5` as an integer. -/
theorem mixedSegments_not_union :
    DisjointAt 0 mixedSegments ∧
      ¬ AnswersAsUnion (compacted ∅ mixedSegments) mixedSegments ∅ 0 := by
  refine ⟨by decide, fun h => ?_⟩
  have hvalue := h.numericValue 2
  revert hvalue
  decide

def intSegments : List Segment :=
  [segmentOf (numberDoc 1 (.int 5)), segmentOf (numberDoc 2 (.int 7))]

theorem intSegments_union :
    DisjointAt 0 intSegments ∧
      AnswersAsUnion (compacted {1} intSegments) intSegments {1} 0 := by
  have hfit : LengthsFit intSegments {1} 0 := by
    unfold LengthsFit
    decide
  exact ⟨by decide, (answersAsUnion_iff {1} (by decide)).mpr ⟨⟨.int, by decide⟩, hfit⟩⟩

end Compaction
