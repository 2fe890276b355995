/-
Ranked documents.

A hit carries a document with its score and with what the ranking found out about
it.  Scores of hits are single-precision numbers; here they are any ordered
numbers `F`, with the operations ranking uses.
-/
import Riets.Wand
import Riets.Segment

open SortedMap

/-- The single-precision arithmetic of hits.  The order of `F` is that of `total_cmp`. -/
structure HitFloat (F : Type) where
  zero : F
  one : F
  add : F → F → F
  mul : F → F → F
  greatest : F → F → F
  ofScore : ℕ → F
  /-- A score times `fuzzy_decay` of a number of edits. -/
  decayed : ℕ → ℕ → ℕ
  roundLen : ℕ → ℕ

/-- A ranked document with the evidence for it. -/
structure SearchHit (F : Type) where
  docId : DocId
  matchedTerms : ℕ
  weightSum : ℕ
  distanceFactor : F
  score : F
  tier : ℕ
  level : ℕ
  base : F
  /-- Bit `i` is set when clause `i` of the query matched. -/
  mask : ℕ
  nameShare : F
  deriving DecidableEq

namespace SearchHit

variable {F : Type}

def ofDoc (fl : HitFloat F) (d : DocId) : SearchHit F where
  docId := d
  matchedTerms := 0
  weightSum := 0
  distanceFactor := fl.one
  score := fl.zero
  tier := 0
  level := 0
  base := fl.zero
  mask := 0
  nameShare := fl.zero

/-- The fields a hit takes over from a later hit of the same document. -/
def combine (fl : HitFloat F) (e hit : SearchHit F) : SearchHit F :=
  { e with
    score := fl.add e.score hit.score
    matchedTerms := e.matchedTerms + hit.matchedTerms
    distanceFactor := fl.greatest e.distanceFactor hit.distanceFactor }

/-- Best tier first, then level, highest score and lowest document id. -/
def rank (h : SearchHit F) : ℕ ×ₗ ℕ ×ₗ Fᵒᵈ ×ₗ DocId :=
  toLex (h.tier, toLex (h.level, toLex (OrderDual.toDual h.score, h.docId)))

theorem docId_of_rank_eq {a b : SearchHit F} (h : a.rank = b.rank) : a.docId = b.docId :=
  congrArg (fun r => (ofLex (ofLex (ofLex r).2).2).2) h

end SearchHit

def wandHitToSearchHit {F : Type} (fl : HitFloat F) (hit : WandHit) : SearchHit F where
  docId := hit.docId
  matchedTerms := hit.matchedTerms
  weightSum := min (hit.raw / 1000) u32Max
  distanceFactor := fl.zero
  score := fl.ofScore hit.raw
  tier := 0
  level := 0
  base := fl.ofScore hit.raw
  mask := 0
  nameShare := fl.zero

section Hits

variable {F : Type}

/-- No document comes twice. -/
def DistinctDocs (hits : List (SearchHit F)) : Prop := hits.Pairwise fun a b => a.docId ≠ b.docId

theorem DistinctDocs.rank_ne {hits : List (SearchHit F)} (h : DistinctDocs hits) :
    hits.Pairwise fun a b => a.rank ≠ b.rank :=
  h.imp fun hne heq => hne (SearchHit.docId_of_rank_eq heq)

/-- The `k` best. -/
def topKFromHits [LinearOrder F] (hits : List (SearchHit F)) (k : ℕ) : List (SearchHit F) :=
  Keyed.sortBy SearchHit.rank (hits.foldl (TopK.pushPop SearchHit.rank k) [])

theorem topKFromHits_eq [LinearOrder F] {hits : List (SearchHit F)} (h : DistinctDocs hits) (k : ℕ) :
    topKFromHits hits k = TopK.best SearchHit.rank k hits := by
  have hbest := (TopK.Best.empty k).foldl (fun hb ha => hb.pushPop ha) h.rank_ne
    (by simp)
  exact (hbest.congr (by simp)).sortBy_eq h.rank_ne

/-! ### Hits by document -/

/-- The hits added to those of the same documents. -/
def mergeHits (fl : HitFloat F) (byDoc : SortedMap DocId (SearchHit F)) (hits : List (SearchHit F)) :
    SortedMap DocId (SearchHit F) :=
  hits.foldl (fun byDoc hit => byDoc.upsert hit.docId fun old =>
    match old with
    | some e => e.combine fl hit
    | none => hit) byDoc

def intoValues {V : Type} (byDoc : SortedMap DocId V) : List V := byDoc.entries.map Prod.snd

/-- The sum of the hits of one document. -/
def joinHits (fl : HitFloat F) (old : Option (SearchHit F)) (hits : List (SearchHit F)) :
    Option (SearchHit F) :=
  hits.foldl (fun old hit => some (match old with
    | some e => e.combine fl hit
    | none => hit)) old

theorem joinHits_some (fl : HitFloat F) (e : SearchHit F) (hits : List (SearchHit F)) :
    joinHits fl (some e) hits = some (hits.foldl (SearchHit.combine fl) e) := by
  induction hits generalizing e with
  | nil => rfl
  | cons hit hits ih => exact ih (e.combine fl hit)

theorem get?_mergeHits (fl : HitFloat F) (byDoc : SortedMap DocId (SearchHit F)) (hits : List (SearchHit F))
    (d : DocId) : (mergeHits fl byDoc hits).get? d =
      joinHits fl (byDoc.get? d) (hits.filter fun hit => hit.docId = d) :=
  get?_foldl_upsert SearchHit.docId _ hits byDoc d

theorem mem_intoValues {V : Type} {byDoc : SortedMap DocId V} {v : V} :
    v ∈ intoValues byDoc ↔ ∃ d, byDoc.get? d = some v := by
  rw [intoValues, List.mem_map]
  constructor
  · rintro ⟨⟨d, v⟩, he, rfl⟩
    exact ⟨d, mem_entries.mp he⟩
  · rintro ⟨d, hd⟩
    exact ⟨(d, v), mem_entries.mpr hd, rfl⟩

def FiledByDoc (byDoc : SortedMap DocId (SearchHit F)) : Prop :=
  ∀ d hit, byDoc.get? d = some hit → hit.docId = d

theorem FiledByDoc.empty : FiledByDoc (empty : SortedMap DocId (SearchHit F)) := by
  intro d hit h
  exact absurd h (by simp)

theorem FiledByDoc.mergeHits {byDoc : SortedMap DocId (SearchHit F)} (h : FiledByDoc byDoc)
    (fl : HitFloat F) (hits : List (SearchHit F)) : FiledByDoc (mergeHits fl byDoc hits) := by
  intro d hit hhit
  refine foldl_upsert_induction (P := fun d hit => hit.docId = d)
    (m := byDoc) (fun _ _ hold => h _ _ hold) ?_ hhit
  intro _ _ old hold
  cases old with
  | none => rfl
  | some e => exact hold e rfl

theorem FiledByDoc.distinctDocs {byDoc : SortedMap DocId (SearchHit F)} (h : FiledByDoc byDoc) :
    DistinctDocs (intoValues byDoc) := by
  refine List.pairwise_map.mpr (byDoc.ascending.imp_of_mem fun {a b} ha hb hlt heq => ?_)
  have ha' : a.2.docId = a.1 := h a.1 a.2 (mem_entries.mp ha)
  have hb' : b.2.docId = b.1 := h b.1 b.2 (mem_entries.mp hb)
  exact (ne_of_lt hlt) (ha'.symm.trans (heq.trans hb'))

end Hits
