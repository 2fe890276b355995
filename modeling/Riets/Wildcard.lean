/-
Prefix and wildcard lookups.

A pattern stands for the terms of a field that match it; of these the ones in the
most documents are taken, at most 128, and their postings are united
(`cappedUnion`).  The memory index finds the terms by going over its hash map, the
segment by walking its ordered terms from the fixed start of the pattern.
-/
import Riets.SegmentTerms

/-! ### Patterns -/

inductive WildcardToken where
  | literal (text : String)
  | any
  | one
  | oneOf (set : List Char)
  deriving DecidableEq

structure WildcardPattern where
  tokens : List WildcardToken
  deriving DecidableEq

/-- `starts_with`, by bytes. -/
def StartsWith (term start : String) : Prop := utf8 start <+: utf8 term

instance (term start : String) : Decidable (StartsWith term start) :=
  inferInstanceAs (Decidable (utf8 start <+: utf8 term))

namespace WildcardPattern

def start (p : WildcardPattern) : String :=
  match p.tokens with
  | .literal text :: _ => text
  | _ => ""

def isPrefixOnly (p : WildcardPattern) : Bool :=
  match p.tokens with
  | [.literal _, .any] => true
  | _ => false

def matchesFrom : List WildcardToken → List Char → Bool
  | [], chars => chars.isEmpty
  | .literal text :: tokens, chars =>
    text.toList.isPrefixOf chars && matchesFrom tokens (chars.drop text.toList.length)
  | .any :: tokens, chars => chars.tails.any fun rest => matchesFrom tokens rest
  | .one :: _, [] => false
  | .one :: tokens, _ :: chars => matchesFrom tokens chars
  | .oneOf _ :: _, [] => false
  | .oneOf set :: tokens, c :: chars => set.contains c && matchesFrom tokens chars

def «matches» (p : WildcardPattern) (word : String) : Bool := matchesFrom p.tokens word.toList

end WildcardPattern

/-! ### The terms that are taken -/

def inMoreDocs (a b : String × PostingList) : Bool :=
  decide (a.2.items.length > b.2.items.length ∨ (a.2.items.length = b.2.items.length ∧ a.1 ≤ b.1))

def cappedUnion (found : List (String × PostingList)) : PostingList :=
  PostingList.fromItems
    (((found.mergeSort inMoreDocs).take DiskSegment.maxPatternTerms).flatMap fun e => e.2.items)

@[simp] theorem cappedUnion_nil : cappedUnion [] = default := by
  rw [cappedUnion, List.mergeSort_nil]
  rfl

def termEntry (e : TermKey × PostingList) : String × PostingList := (e.1.term, e.2)

namespace MemIndex

/-- `lookup_prefix`, with the entries in the order the hash map gives them. -/
def scanPrefix (scan : List (TermKey × PostingList)) (start : String) (xpath : XPathId) : PostingList :=
  cappedUnion ((scan.filter fun e => e.1.xpath = xpath ∧ StartsWith e.1.term start).map termEntry)

/-- `lookup_wildcard`, likewise. -/
def scanWildcard (scan : List (TermKey × PostingList)) (pattern : WildcardPattern) (xpath : XPathId) :
    PostingList :=
  if pattern.isPrefixOnly then scanPrefix scan pattern.start xpath
  else cappedUnion
    ((scan.filter fun e => e.1.xpath = xpath ∧ pattern.matches e.1.term = true).map termEntry)

end MemIndex

namespace Segment

def termsFrom (s : Segment) (start : String) (xpath : XPathId) : List (TermKey × PostingList) :=
  s.terms.entries.dropWhile fun e => e.1 < ⟨xpath, start⟩

def lookupPrefix (s : Segment) (start : String) (xpath : XPathId) : PostingList :=
  cappedUnion (((s.termsFrom start xpath).takeWhile fun e =>
    e.1.xpath = xpath ∧ StartsWith e.1.term start).map termEntry)

def lookupWildcard (s : Segment) (pattern : WildcardPattern) (xpath : XPathId) : PostingList :=
  if pattern.isPrefixOnly then s.lookupPrefix pattern.start xpath
  else cappedUnion ((((s.termsFrom pattern.start xpath).takeWhile fun e =>
    e.1.xpath = xpath ∧ (pattern.start = "" ∨ StartsWith e.1.term pattern.start)).filter fun e =>
      pattern.matches e.1.term).map termEntry)

end Segment

theorem startsWith_iff {term start : String} : StartsWith term start ↔ start.toList <+: term.toList := by
  have hbytes : ∀ s : String, utf8 s = s.toByteArray.data.toList := fun _ => rfl
  constructor
  · rintro ⟨rest, hrest⟩
    refine List.isPrefix_of_utf8Encode_append_eq_utf8Encode ⟨rest.toArray⟩ ?_
    rw [String.utf8Encode_toList, String.utf8Encode_toList]
    refine ByteArray.ext (Array.ext' ?_)
    rw [ByteArray.data_append, Array.toList_append, ← hbytes, ← hbytes, ← hrest]
  · rintro ⟨rest, hrest⟩
    refine ⟨utf8 (String.ofList rest), ?_⟩
    rw [hbytes, hbytes, hbytes, ← String.utf8Encode_toList, ← String.utf8Encode_toList,
      ← String.utf8Encode_toList, ← hrest, String.toList_ofList, List.utf8Encode_append,
      ByteArray.data_append, Array.toList_append]

theorem startsWith_empty (term : String) : StartsWith term "" := List.nil_prefix

theorem prefix_of_between {p a b : List Char} (hpa : ¬ a < p) (hab : a < b) (hpb : p <+: b) : p <+: a := by
  induction p generalizing a b with
  | nil => exact List.nil_prefix
  | cons c p ih =>
    obtain ⟨rest, rfl⟩ := hpb
    cases a with
    | nil => exact absurd (List.nil_lt_cons c p) hpa
    | cons d a =>
      rw [List.cons_append, List.cons_lt_cons_iff] at hab
      rw [List.cons_lt_cons_iff, not_or, not_and] at hpa
      have hdc : d = c := by
        rcases hab with hlt | ⟨heq, -⟩
        · exact absurd hlt hpa.1
        · exact heq
      subst hdc
      have hab' : a < p ++ rest := by
        rcases hab with hlt | ⟨-, hlt⟩
        · exact absurd hlt (lt_irrefl d)
        · exact hlt
      exact List.cons_prefix_cons.mpr ⟨rfl, ih (hpa.2 rfl) hab' (List.prefix_append p rest)⟩

theorem not_lt_of_prefix {p a : List Char} (h : p <+: a) : ¬ a < p := by
  obtain ⟨rest, rfl⟩ := h
  induction p with
  | nil => exact List.not_lt_nil _
  | cons c p ih =>
    rw [List.cons_append, List.cons_lt_cons_iff, not_or, not_and]
    exact ⟨lt_irrefl c, fun _ => ih⟩

theorem WildcardPattern.startsWith_of_matches {p : WildcardPattern} {word : String}
    (h : p.matches word = true) : StartsWith word p.start := by
  unfold WildcardPattern.matches at h
  unfold WildcardPattern.start
  match htokens : p.tokens with
  | .literal text :: tokens =>
    rw [htokens, matchesFrom, Bool.and_eq_true] at h
    exact startsWith_iff.mpr (List.isPrefixOf_iff_prefix.mp h.1)
  | [] => exact startsWith_empty word
  | .any :: _ => exact startsWith_empty word
  | .one :: _ => exact startsWith_empty word
  | .oneOf _ :: _ => exact startsWith_empty word

theorem takeWhile_from_eq_filter {α : Type} {l : List (TermKey × α)} (hasc : Keyed.Ascending Prod.fst l)
    {k : TermKey} {P : TermKey → Prop} [DecidablePred P] (hfrom : ∀ k', P k' → k ≤ k')
    (hdown : ∀ k₁ k₂, k ≤ k₁ → k₁ < k₂ → P k₂ → P k₁) :
    (l.dropWhile fun e => e.1 < k).takeWhile (fun e => P e.1) = l.filter fun e => P e.1 := by
  have hbefore : ∀ a b : TermKey × α, a.1 ≤ b.1 → decide (b.1 < k) = true → decide (a.1 < k) = true := by
    intro a b hab hb
    simp only [decide_eq_true_eq] at hb ⊢
    exact lt_of_le_of_lt hab hb
  rw [Keyed.dropWhile_eq_filter hasc.sorted hbefore]
  have hbehind : ∀ (l' : List (TermKey × α)), Keyed.Ascending Prod.fst l' → (∀ e ∈ l', k ≤ e.1) →
      l'.takeWhile (fun e => P e.1) = l'.filter fun e => P e.1 := by
    intro l' hasc' hle
    induction l' with
    | nil => rfl
    | cons e l' ih =>
      obtain ⟨hhead, htail⟩ := List.pairwise_cons.mp hasc'
      by_cases hP : P e.1
      · rw [List.takeWhile_cons_of_pos (by simpa using hP), List.filter_cons_of_pos (by simpa using hP),
          ih htail fun e' he' => hle e' (List.mem_cons_of_mem e he')]
      · -- the condition does not come back behind a key where it fails
        have hnone : l'.filter (fun e => P e.1) = [] := by
          refine List.filter_eq_nil_iff.mpr fun e' he' => ?_
          have hnot : ¬ P e'.1 := fun hP' => hP (hdown e.1 e'.1 (hle e List.mem_cons_self) (hhead e' he') hP')
          simpa using hnot
        rw [List.takeWhile_cons_of_neg (by simpa using hP), List.filter_cons_of_neg (by simpa using hP), hnone]
  rw [hbehind _ (Keyed.ascending_filter hasc _) fun e he => by simpa using (List.mem_filter.mp he).2,
    List.filter_filter]
  refine List.filter_congr fun e _ => ?_
  by_cases hP : P e.1
  · have hle := hfrom e.1 hP
    simp [hP, not_lt.mpr hle]
  · simp [hP]

theorem TermKey.not_lt_text {x : XPathId} {t t' : String} (h : (⟨x, t⟩ : TermKey) ≤ ⟨x, t'⟩) :
    ¬ t'.toList < t.toList := by
  intro hlt
  exact absurd (TermKey.lt_iff_of_xpath.mpr (String.lt_iff_toList_lt.mpr hlt)) (not_lt.mpr h)

namespace Segment

open TermKey MemIndex

theorem termsFrom_takeWhile (s : Segment) (start : String) (xpath : XPathId) :
    (s.termsFrom start xpath).takeWhile (fun e => e.1.xpath = xpath ∧ StartsWith e.1.term start) =
      s.terms.entries.filter fun e => e.1.xpath = xpath ∧ StartsWith e.1.term start := by
  refine takeWhile_from_eq_filter (P := fun k => k.xpath = xpath ∧ StartsWith k.term start)
    s.terms.ascending ?_ ?_
  · rintro ⟨x, term⟩ ⟨rfl, hstart⟩
    refine not_lt.mp fun hlt => ?_
    exact not_lt_of_prefix (startsWith_iff.mp hstart)
      (String.lt_iff_toList_lt.mp (lt_iff_of_xpath.mp hlt))
  · rintro ⟨x₁, t₁⟩ ⟨x₂, t₂⟩ hle hlt ⟨hx, hstart⟩
    have hx₂ : x₂ = xpath := hx
    have hge : xpath ≤ x₁ := xpath_le hle
    have hle' : x₁ ≤ x₂ := xpath_le_of_lt hlt
    have hx₁ : x₁ = xpath := le_antisymm (hx₂ ▸ hle') hge
    subst hx₁
    subst hx₂
    have hbetween := prefix_of_between (not_lt_text hle)
      (String.lt_iff_toList_lt.mp (lt_iff_of_xpath.mp hlt)) (startsWith_iff.mp hstart)
    exact ⟨rfl, startsWith_iff.mpr hbetween⟩

theorem lookupPrefix_eq (s : Segment) (start : String) (xpath : XPathId) :
    s.lookupPrefix start xpath = scanPrefix s.terms.entries start xpath := by
  rw [lookupPrefix, termsFrom_takeWhile, scanPrefix]

theorem lookupWildcard_eq (s : Segment) (pattern : WildcardPattern) (xpath : XPathId) :
    s.lookupWildcard pattern xpath = scanWildcard s.terms.entries pattern xpath := by
  rw [lookupWildcard, scanWildcard, lookupPrefix_eq]
  have hwalk : (s.termsFrom pattern.start xpath).takeWhile (fun e =>
      e.1.xpath = xpath ∧ (pattern.start = "" ∨ StartsWith e.1.term pattern.start)) =
      (s.termsFrom pattern.start xpath).takeWhile
        (fun e => e.1.xpath = xpath ∧ StartsWith e.1.term pattern.start) := by
    congr 1
    funext e
    have hiff : (pattern.start = "" ∨ StartsWith e.1.term pattern.start) ↔
        StartsWith e.1.term pattern.start := by
      refine ⟨fun h => h.elim (fun hempty => ?_) id, .inr⟩
      rw [hempty]
      exact startsWith_empty _
    simp only [hiff]
  rw [hwalk, termsFrom_takeWhile, List.filter_filter]
  have hfilter : s.terms.entries.filter (fun e => pattern.matches e.1.term &&
      decide (e.1.xpath = xpath ∧ StartsWith e.1.term pattern.start)) =
      s.terms.entries.filter fun e => e.1.xpath = xpath ∧ pattern.matches e.1.term = true := by
    refine List.filter_congr fun e _ => ?_
    by_cases hmatch : pattern.matches e.1.term = true
    · simp [hmatch, WildcardPattern.startsWith_of_matches hmatch]
    · simp [hmatch]
  rw [hfilter]

end Segment

theorem inMoreDocs_trans (a b c : String × PostingList) (h : inMoreDocs a b = true) (h' : inMoreDocs b c = true) :
    inMoreDocs a c = true := by
  simp only [inMoreDocs, decide_eq_true_eq] at h h' ⊢
  rcases h with hgt | ⟨heq, hle⟩
  · rcases h' with hgt' | ⟨heq', -⟩
    · exact .inl (by omega)
    · exact .inl (by omega)
  · rcases h' with hgt' | ⟨heq', hle'⟩
    · exact .inl (by omega)
    · exact .inr ⟨heq.trans heq', hle.trans hle'⟩

theorem inMoreDocs_total (a b : String × PostingList) : (inMoreDocs a b || inMoreDocs b a) = true := by
  simp only [inMoreDocs, Bool.or_eq_true, decide_eq_true_eq]
  rcases lt_trichotomy a.2.items.length b.2.items.length with hlt | heq | hgt
  · exact .inr (.inl hlt)
  · rcases le_total a.1 b.1 with hle | hle
    · exact .inl (.inr ⟨heq, hle⟩)
    · exact .inr (.inr ⟨heq.symm, hle⟩)
  · exact .inl (.inl hgt)

theorem cappedUnion_perm {found found' : List (String × PostingList)} (hperm : found.Perm found')
    (hnodup : (found.map Prod.fst).Nodup) : cappedUnion found = cappedUnion found' := by
  have hsort : found.mergeSort inMoreDocs = found'.mergeSort inMoreDocs := by
    refine List.Perm.eq_of_pairwise ?_
      (List.pairwise_mergeSort inMoreDocs_trans inMoreDocs_total found)
      (List.pairwise_mergeSort inMoreDocs_trans inMoreDocs_total found') ?_
    · intro a b ha hb hab hba
      have ha' : a ∈ found := List.mem_mergeSort.mp ha
      have hb' : b ∈ found := hperm.mem_iff.mpr (List.mem_mergeSort.mp hb)
      simp only [inMoreDocs, decide_eq_true_eq] at hab hba
      have hterm : a.1 = b.1 := by
        rcases hab with hgt | ⟨heq, hle⟩
        · rcases hba with hgt' | ⟨heq', -⟩
          · omega
          · omega
        · rcases hba with hgt' | ⟨-, hle'⟩
          · omega
          · exact le_antisymm hle hle'
      exact List.inj_on_of_nodup_map hnodup ha' hb' hterm
    · exact (List.mergeSort_perm found inMoreDocs).trans (hperm.trans (List.mergeSort_perm found' inMoreDocs).symm)
  rw [cappedUnion, cappedUnion, hsort]

namespace MemIndex

open List

variable {scan scan' : List (TermKey × PostingList)}

theorem nodup_terms (hnodup : (scan.map Prod.fst).Nodup) {xpath : XPathId} {p : TermKey × PostingList → Bool}
    (hp : ∀ e ∈ scan, p e = true → e.1.xpath = xpath) :
    (((scan.filter p).map termEntry).map Prod.fst).Nodup := by
  rw [map_map]
  have hkeys : (((scan.filter p).map Prod.fst)).Nodup := hnodup.sublist (filter_sublist.map Prod.fst)
  refine Nodup.map_on ?_ hkeys.of_map
  intro a ha b hb hterm
  obtain ⟨ha', hpa⟩ := mem_filter.mp ha
  obtain ⟨hb', hpb⟩ := mem_filter.mp hb
  have hkey : a.1 = b.1 := by
    obtain ⟨⟨x, t⟩, l⟩ := a
    obtain ⟨⟨x', t'⟩, l'⟩ := b
    have hx : x = xpath := hp _ ha' hpa
    have hx' : x' = xpath := hp _ hb' hpb
    have ht : t = t' := hterm
    simp only [hx, hx', ht]
  exact inj_on_of_nodup_map hkeys ha hb hkey

theorem scanPrefix_perm (hperm : scan.Perm scan') (hnodup : (scan.map Prod.fst).Nodup) (start : String)
    (xpath : XPathId) : scanPrefix scan start xpath = scanPrefix scan' start xpath := by
  refine cappedUnion_perm ((hperm.filter _).map _) (@nodup_terms _ hnodup xpath _ ?_)
  intro e _ hp
  exact (of_decide_eq_true hp).1

theorem scanWildcard_perm (hperm : scan.Perm scan') (hnodup : (scan.map Prod.fst).Nodup)
    (pattern : WildcardPattern) (xpath : XPathId) :
    scanWildcard scan pattern xpath = scanWildcard scan' pattern xpath := by
  rw [scanWildcard, scanWildcard, scanPrefix_perm hperm hnodup]
  refine congrArg (fun list => if pattern.isPrefixOnly then _ else list) ?_
  refine cappedUnion_perm ((hperm.filter _).map _) (@nodup_terms _ hnodup xpath _ ?_)
  intro e _ hp
  exact (of_decide_eq_true hp).1

end MemIndex
