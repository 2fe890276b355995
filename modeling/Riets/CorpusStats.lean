/-
The statistics of a search over several shards.

Every shard reports the totals of each field a query scores, the document
frequency of each leaf and, for a fuzzy word, the words it may be changed into.
The reports are added up.
-/
import Riets.Saturating
import Riets.Executor

open SortedMap

/-- The documents of a field and the sum of their lengths. -/
@[ext] structure FieldTotals where
  docCount : Saturating u64Max
  totalDocLen : Saturating u64Max
  deriving DecidableEq, Repr

instance : Zero FieldTotals := ⟨⟨0, 0⟩⟩

instance : Add FieldTotals := ⟨fun a b => ⟨a.docCount + b.docCount, a.totalDocLen + b.totalDocLen⟩⟩

instance : AddCommMonoid FieldTotals where
  add_assoc a b c := FieldTotals.ext (add_assoc _ _ _) (add_assoc _ _ _)
  zero_add a := FieldTotals.ext (zero_add _) (zero_add _)
  add_zero a := FieldTotals.ext (add_zero _) (add_zero _)
  add_comm a b := FieldTotals.ext (add_comm _ _) (add_comm _ _)
  nsmul := nsmulRec

/-! ### Fuzzy words -/

/-- How far a word may be changed, and into how many words. -/
structure FuzzyOptions where
  maxEdits : ℕ
  prefixLength : ℕ
  maxExpansions : ℕ
  deriving DecidableEq, Repr

def defaultMaxEdits (term : String) : ℕ :=
  let chars := term.toList.length
  if chars ≤ 2 then 0 else if chars ≤ 4 then 1 else if chars ≤ 9 then 2 else 3

def Fuzziness.resolve (f : Fuzziness) (term : String) : ℕ :=
  match f with
  | .zero => 0
  | .one => 1
  | .two => 2
  | .auto => defaultMaxEdits term

/-- The options of a word. -/
def fuzzyOptions (word : String) (fuzziness : Fuzziness) (spec : FuzzySpec) : FuzzyOptions where
  maxEdits := if word ≠ "" ∧ word.toList.all Char.isDigit then 0 else fuzziness.resolve word
  prefixLength := spec.prefixLength
  maxExpansions := spec.maxExpansions

structure FuzzyKey where
  word : String
  maxEdits : ℕ
  prefixLength : ℕ
  deriving DecidableEq, Repr

def FuzzyKey.new (word : String) (opts : FuzzyOptions) : FuzzyKey := ⟨word, opts.maxEdits, opts.prefixLength⟩

/-- What is known of a word that a typed word may be changed into; the word is the key it is
filed under. -/
@[ext] structure FuzzyCount where
  edits : ℕ
  docFreq : Saturating u32Max
  deriving DecidableEq, Repr

/-- The fewest edits, and the documents of both. -/
def FuzzyCount.meet (a b : FuzzyCount) : FuzzyCount := ⟨min a.edits b.edits, a.docFreq + b.docFreq⟩

theorem FuzzyCount.meet_comm (a b : FuzzyCount) : a.meet b = b.meet a :=
  FuzzyCount.ext (min_comm _ _) (add_comm _ _)

theorem FuzzyCount.meet_assoc (a b c : FuzzyCount) : (a.meet b).meet c = a.meet (b.meet c) :=
  FuzzyCount.ext (min_assoc _ _ _) (add_assoc _ _ _)

/-! ### Entries of maps -/

/-- `entry(key).or_default()` and an addition. -/
def addEntry {V : Type} [Zero V] [Add V] (mine theirs : Option V) : Option V :=
  match theirs with
  | none => mine
  | some v => some (mine.getD 0 + v)

section AddEntry

variable {V : Type} [AddCommMonoid V]

@[simp] theorem addEntry_none_left (o : Option V) : addEntry none o = o := by
  cases o with
  | none => rfl
  | some v => exact congrArg some (zero_add v)

theorem addEntry_comm (a b : Option V) : addEntry a b = addEntry b a := by
  cases a with
  | none => exact addEntry_none_left b
  | some v =>
    cases b with
    | none => exact (addEntry_none_left (some v)).symm
    | some w => exact congrArg some (add_comm v w)

theorem addEntry_assoc (a b c : Option V) : addEntry (addEntry a b) c = addEntry a (addEntry b c) := by
  cases c with
  | none => rfl
  | some w =>
    cases b with
    | none =>
      rw [addEntry_none_left]
      rfl
    | some v => exact congrArg some (add_assoc (a.getD 0) v w)

end AddEntry

def meetEntry (mine : Option FuzzyCount) (theirs : FuzzyCount) : FuzzyCount :=
  match mine with
  | some count => count.meet theirs
  | none => theirs

abbrev FuzzyWords := SortedMap String FuzzyCount

def mergeWords (mine theirs : FuzzyWords) : FuzzyWords := mine.mergeWith meetEntry theirs

theorem get?_mergeWords (a b : FuzzyWords) (term : String) :
    (mergeWords a b).get? term = Option.merge FuzzyCount.meet (a.get? term) (b.get? term) := by
  rw [mergeWords, get?_mergeWith]
  cases b.get? term with
  | none => simp
  | some count =>
    cases a.get? term with
    | none => rfl
    | some mine => rfl

theorem mergeWords_comm (a b : FuzzyWords) : mergeWords a b = mergeWords b a := by
  refine ext_get? fun term => ?_
  rw [get?_mergeWords, get?_mergeWords]
  cases a.get? term with
  | none => simp
  | some v =>
    cases b.get? term with
    | none => simp
    | some w => exact congrArg some (v.meet_comm w)

theorem mergeWords_assoc (a b c : FuzzyWords) :
    mergeWords (mergeWords a b) c = mergeWords a (mergeWords b c) := by
  refine ext_get? fun term => ?_
  simp only [get?_mergeWords]
  cases a.get? term with
  | none => simp
  | some u =>
    cases b.get? term with
    | none => simp
    | some v =>
      cases c.get? term with
      | none => simp
      | some w => exact congrArg some (u.meet_assoc v w)

theorem mergeWords_empty_left (a : FuzzyWords) : mergeWords empty a = a := by
  refine ext_get? fun term => ?_
  rw [get?_mergeWords]
  simp

/-! ### The statistics -/

/-- The statistics of one query: the totals of every field it scores, the document frequency of
every leaf and the words of every fuzzy word. -/
@[ext] structure CorpusStats where
  fields : XPathId → Option FieldTotals
  docFreqs : XPathId → LeafKey → Option (Saturating u64Max)
  fuzzy : XPathId → FuzzyKey → Option FuzzyWords

namespace CorpusStats

def new : CorpusStats := ⟨fun _ => none, fun _ _ => none, fun _ _ => none⟩

def insertField (s : CorpusStats) (x : XPathId) (totals : FieldTotals) : CorpusStats :=
  { s with fields := fun x' => if x' = x then some totals else s.fields x' }

def insertDocFreq (s : CorpusStats) (x : XPathId) (key : LeafKey) (docFreq : ℕ) : CorpusStats :=
  { s with docFreqs := fun x' key' =>
      if x' = x ∧ key' = key then some (.of u64Max docFreq) else s.docFreqs x' key' }

def insertFuzzy (s : CorpusStats) (x : XPathId) (key : FuzzyKey) (candidates : List FuzzyExpansion) :
    CorpusStats :=
  { s with fuzzy := fun x' key' =>
      if x' = x ∧ key' = key then
        some (((s.fuzzy x key).getD SortedMap.empty).extend (fun _ count => count)
          (candidates.map fun c => (c.term, ⟨c.edits, .of u32Max c.docFreq⟩)))
      else s.fuzzy x' key' }

def hasFuzzy (s : CorpusStats) (x : XPathId) (key : FuzzyKey) : Bool := (s.fuzzy x key).isSome

/-- The statistics of two disjoint sets of documents. -/
def merge (s other : CorpusStats) : CorpusStats where
  fields x := addEntry (s.fields x) (other.fields x)
  docFreqs x key := addEntry (s.docFreqs x key) (other.docFreqs x key)
  fuzzy x key :=
    match other.fuzzy x key with
    | none => s.fuzzy x key
    | some words => some (mergeWords ((s.fuzzy x key).getD SortedMap.empty) words)

def mergeAll (shards : List CorpusStats) : CorpusStats := shards.foldl merge new

theorem merge_fuzzy (a b : CorpusStats) (x : XPathId) (key : FuzzyKey) :
    (a.merge b).fuzzy x key = Option.merge mergeWords (a.fuzzy x key) (b.fuzzy x key) := by
  simp only [merge]
  cases b.fuzzy x key with
  | none => simp
  | some words =>
    cases a.fuzzy x key with
    | none => exact congrArg some (mergeWords_empty_left words)
    | some mine => rfl

theorem merge_comm (a b : CorpusStats) : a.merge b = b.merge a := by
  refine CorpusStats.ext ?_ ?_ ?_
  · funext x
    exact addEntry_comm _ _
  · funext x key
    exact addEntry_comm _ _
  · funext x key
    rw [merge_fuzzy, merge_fuzzy]
    cases a.fuzzy x key with
    | none => simp
    | some v =>
      cases b.fuzzy x key with
      | none => simp
      | some w => exact congrArg some (mergeWords_comm v w)

theorem merge_assoc (a b c : CorpusStats) : (a.merge b).merge c = a.merge (b.merge c) := by
  refine CorpusStats.ext ?_ ?_ ?_
  · funext x
    exact addEntry_assoc _ _ _
  · funext x key
    exact addEntry_assoc _ _ _
  · funext x key
    simp only [merge_fuzzy]
    cases a.fuzzy x key with
    | none => simp
    | some u =>
      cases b.fuzzy x key with
      | none => simp
      | some v =>
        cases c.fuzzy x key with
        | none => simp
        | some w => exact congrArg some (mergeWords_assoc u v w)

end CorpusStats
