/-
Synonyms in a run of words.

The tokens of the words stand one after the other; `tokensBefore` counts those of the
words in front of one.  A part of the result is made at a word and covers the words up to
the one that owns the last token of the match, so that the parts cover every word once
(`SynonymRun.parts_eq`).  `Synonyms.matchAt_expandRun_spec` puts the two together.
-/
import Riets.SynonymMatch

open List

/-! ### Tokens and their words -/

section Tokens

variable (tables : UnicodeTables)

def tokensBefore (words : List String) (i : ℕ) : ℕ := ((words.take i).flatMap (tokenize tables)).length

theorem tokensBefore_zero (words : List String) : tokensBefore tables words 0 = 0 := rfl

theorem tokensBefore_cons (word : String) (words : List String) (i : ℕ) :
    tokensBefore tables (word :: words) (i + 1) =
      (tokenize tables word).length + tokensBefore tables words i := by
  rw [tokensBefore, take_succ_cons, flatMap_cons, length_append]
  rfl

theorem tokensBefore_mono (words : List String) {i j : ℕ} (h : i ≤ j) :
    tokensBefore tables words i ≤ tokensBefore tables words j := by
  obtain ⟨k, rfl⟩ := Nat.exists_eq_add_of_le h
  rw [tokensBefore, tokensBefore, take_add, flatMap_append, length_append]
  exact Nat.le_add_right _ _

theorem tokensBefore_le (words : List String) (i : ℕ) :
    tokensBefore tables words i ≤ (words.flatMap (tokenize tables)).length := by
  conv_rhs => rw [← take_append_drop i words, flatMap_append, length_append]
  exact Nat.le_add_right _ _

structure LaidOut (words : List String) (index : ℕ) (t t' : RunTokens) : Prop where
  surface : t'.surface = t.surface ++ words.flatMap (tokenize tables)
  wordStart : t'.wordStart = t.wordStart ++
    (range (words.length + 1)).map fun i => t.surface.length + tokensBefore tables words i
  owner : ∃ owners, t'.owner = t.owner ++ owners ∧ owners.length = (words.flatMap (tokenize tables)).length ∧
    ∀ j i, owners[j]? = some i → ∃ k < words.length, i = index + k ∧
      tokensBefore tables words k ≤ j ∧ j < tokensBefore tables words (k + 1)

theorem layOut_laidOut (words : List String) (index : ℕ) (t : RunTokens) :
    LaidOut tables words index t (layOut tables words index t) := by
  induction words generalizing index t with
  | nil =>
    rw [layOut]
    refine ⟨(append_nil _).symm, rfl, [], (append_nil _).symm, rfl, fun j i hj => ?_⟩
    cases hj
  | cons word words ih =>
    obtain ⟨hsurface, hstart, owners, howner, hlen, howners⟩ := ih (index + 1)
      { surface := t.surface ++ tokenize tables word
        owner := t.owner ++ (tokenize tables word).map fun _ => index
        wordStart := t.wordStart ++ [t.surface.length] }
    rw [layOut]
    refine ⟨?_, ?_, (tokenize tables word).map (fun _ => index) ++ owners, ?_, ?_, ?_⟩
    · rw [hsurface, flatMap_cons, append_assoc]
    · rw [hstart, length_cons, range_succ_eq_map (n := words.length + 1), map_cons, map_map,
        append_assoc, length_append]
      simp only [Function.comp_def, tokensBefore_cons, Nat.add_assoc, tokensBefore_zero, Nat.add_zero]
      rfl
    · rw [howner, append_assoc]
    · rw [length_append, length_map, hlen, flatMap_cons, length_append]
    · intro j i hj
      by_cases hlt : j < (tokenize tables word).length
      · rw [getElem?_append_left (by rwa [length_map]), getElem?_map, getElem?_eq_getElem hlt] at hj
        refine ⟨0, Nat.succ_pos _, (Option.some_inj.1 hj).symm, Nat.zero_le _, ?_⟩
        rw [tokensBefore_cons]
        exact Nat.lt_add_right _ hlt
      · rw [getElem?_append_right (by rw [length_map]; omega), length_map] at hj
        obtain ⟨k, hk, rfl, hle, hlt'⟩ := howners _ _ hj
        refine ⟨k + 1, Nat.succ_lt_succ hk, by omega, ?_, ?_⟩
        · rw [tokensBefore_cons]
          omega
        · rw [tokensBefore_cons]
          omega

end Tokens

theorem markBoundaries_eq {starts : List ℕ} {boundary : List Bool} (h : ∀ start ∈ starts, start < boundary.length) :
    ∃ marked, markBoundaries starts boundary = .ok marked ∧ marked.length = boundary.length := by
  induction starts generalizing boundary with
  | nil => exact ⟨boundary, rfl, rfl⟩
  | cons start starts ih =>
    have hstart := h start (mem_cons_self ..)
    obtain ⟨marked, hmarked, hlen⟩ := @ih (boundary.set start true) fun start' hstart' => by
      rw [length_set]
      exact h start' (mem_cons_of_mem _ hstart')
    refine ⟨marked, ?_, ?_⟩
    · rw [markBoundaries, Fallible.setAt_of_lt hstart, Fallible.ok_bind, hmarked]
    · rw [hlen, length_set]

/-! ### The parts -/

def IsPart (wrap : List Query → Query) (span : List String) (query : Query) : Prop :=
  ∃ alternatives, query = synonymForm (originalForm span wrap) alternatives

theorem isPart_word (wrap : List Query → Query) (word : String) : IsPart wrap [word] (.term word) :=
  ⟨[], rfl⟩

namespace SynonymRun

open List Fallible

variable {r : SynonymRun} {s : Synonyms} {tables : UnicodeTables} {analyze : String → List String}
  {wrap : List Query → Query} {builders : List (DictionaryBuilder × (String → List String))}

structure Ready (tables : UnicodeTables) (analyze : String → List String) (r : SynonymRun) : Prop where
  tokens : LaidOut tables r.words 0 ⟨[], [], []⟩ r.tokens
  keys : r.keys = r.tokens.surface.map (lookupKey tables analyze)
  boundary : r.boundary.length = r.tokens.surface.length + 1

section

variable (h : r.Ready tables analyze)
include h

theorem Ready.wordStart {i : ℕ} (hi : i ≤ r.words.length) :
    r.tokens.wordStart[i]? = some (tokensBefore tables r.words i) := by
  rw [h.tokens.wordStart, nil_append, getElem?_map, getElem?_range (by omega)]
  simp

theorem Ready.length_surface :
    r.tokens.surface.length = (r.words.flatMap (tokenize tables)).length := by
  rw [h.tokens.surface, nil_append]

theorem Ready.owner {j : ℕ} (hj : j < r.tokens.surface.length) :
    ∃ k < r.words.length, r.tokens.owner[j]? = some k ∧ j < tokensBefore tables r.words (k + 1) := by
  obtain ⟨owners, howner, hlen, howners⟩ := h.tokens.owner
  rw [nil_append] at howner
  rw [h.length_surface, ← hlen] at hj
  obtain ⟨k, hk, heq, -, hlt⟩ := howners j _ (getElem?_eq_getElem hj)
  rw [Nat.zero_add] at heq
  refine ⟨k, hk, ?_, hlt⟩
  rw [howner, getElem?_eq_getElem hj, heq]

theorem Ready.part_eq (hs : s.Built tables builders) {index : ℕ}
    (hindex : index < r.words.length) :
    ∃ query next, r.part s tables wrap index = .ok (query, next) ∧ index < next ∧ next ≤ r.words.length ∧
      IsPart wrap ((r.words.take next).drop index) query := by
  obtain ⟨word, hword⟩ : ∃ word, r.words[index]? = some word := ⟨_, getElem?_eq_getElem hindex⟩
  have hone : (r.words.take (index + 1)).drop index = [word] := by
    rw [take_add_one, hword, drop_append_of_le_length (by rw [length_take]; omega),
      drop_take, Nat.sub_self]
    rfl
  have hplain : ∃ query next, ok (Query.term word, index + 1) = .ok (query, next) ∧ index < next ∧
      next ≤ r.words.length ∧ IsPart wrap ((r.words.take next).drop index) query := by
    refine ⟨_, _, rfl, Nat.lt_succ_self index, hindex, ?_⟩
    rw [hone]
    exact isPart_word wrap word
  have hstart := index_of_some (h.wordStart (Nat.le_of_lt hindex))
  have hstop : Fallible.index r.tokens.wordStart (index + 1) =
      .ok (tokensBefore tables r.words (index + 1)) := index_of_some (h.wordStart hindex)
  have htokens : tokensBefore tables r.words index ≤ r.tokens.surface.length := by
    rw [h.length_surface]
    exact tokensBefore_le tables r.words index
  have hkeys : r.keys.length = r.tokens.surface.length := by rw [h.keys, length_map]
  rw [part, hstart, ok_bind, hstop, ok_bind, index_of_some hword, ok_bind]
  by_cases hempty : tokensBefore tables r.words index = tokensBefore tables r.words (index + 1)
  · rw [if_pos hempty]
    exact hplain
  · rw [if_neg hempty, slice_of_le htokens le_rfl, ok_bind,
      slice_of_le (by omega) le_rfl, ok_bind, take_length, take_length]
    have hlen : (r.keys.drop (tokensBefore tables r.words index)).length =
        (r.tokens.surface.drop (tokensBefore tables r.words index)).length := by
      rw [length_drop, length_drop, hkeys]
    have haccept : ∀ len, 0 < len → len ≤ (r.keys.drop (tokensBefore tables r.words index)).length →
        Fallible.index r.boundary (tokensBefore tables r.words index + len) =
          .ok ((r.boundary[tokensBefore tables r.words index + len]?).getD false) := by
      intro len _ hle
      rw [length_drop] at hle
      have hboundary := h.boundary
      have hlt : tokensBefore tables r.words index + len < r.boundary.length := by omega
      rw [index_of_some (getElem?_eq_getElem hlt), getElem?_eq_getElem hlt, Option.getD_some]
    obtain ⟨found, hmatch, hfound⟩ := hs.matchAt_eq hlen haccept
    rw [hmatch, ok_bind]
    cases found with
    | none =>
      split_ifs with hsingle
      · have hlt : tokensBefore tables r.words index < r.tokens.surface.length := by
          have hle := tokensBefore_le tables r.words (index + 1)
          rw [← h.length_surface] at hle
          omega
        simp only [index_of_some (getElem?_eq_getElem hlt), ok_bind]
        cases s.expandNumber tables r.tokens.surface[tokensBefore tables r.words index] with
        | none => exact hplain
        | some numbers =>
          refine ⟨_, _, rfl, Nat.lt_succ_self index, hindex, ?_⟩
          rw [hone]
          exact ⟨_, rfl⟩
      · exact hplain
    | some m =>
      obtain ⟨⟨hpos, hle, -⟩, -⟩ := hfound.best m rfl
      rw [length_drop, hkeys] at hle
      obtain ⟨last, hlast, howner, hbehind⟩ :=
        @Ready.owner r tables analyze h (tokensBefore tables r.words index + m.len - 1) (by omega)
      -- the word of the last token is this one or a later one
      have hindexLast : index ≤ last := by
        by_contra hlt
        have hmono := tokensBefore_mono tables r.words (show last + 1 ≤ index by omega)
        omega
      have htyped : tokensBefore tables r.words index + m.len ≤ r.tokens.surface.length := by omega
      simp only [index_of_some howner, ok_bind,
        slice_of_le (show index ≤ last + 1 by omega) (show last + 1 ≤ r.words.length from hlast),
        slice_of_le (Nat.le_add_right _ _) htyped]
      exact ⟨_, _, rfl, Nat.lt_succ_of_le hindexLast, hlast, _, rfl⟩

theorem Ready.parts_eq (hs : s.Built tables builders) {turns index : ℕ}
    (hturns : r.words.length ≤ turns + index) (hindex : index ≤ r.words.length) :
    ∃ queries spans, r.parts s tables wrap turns index = .ok queries ∧ spans.flatten = r.words.drop index ∧
      (∀ span ∈ spans, span ≠ []) ∧ Forall₂ (IsPart wrap) spans queries := by
  induction turns generalizing index with
  | zero =>
    have hend : ¬ index < r.words.length := by omega
    refine ⟨[], [], ?_, ?_, ?_, Forall₂.nil⟩
    · rw [parts, if_neg hend]
    · rw [drop_eq_nil_of_le (by omega), flatten_nil]
    · intro span hspan
      cases hspan
  | succ turns ih =>
    by_cases hlt : index < r.words.length
    · obtain ⟨query, next, hpart, hnext, hle, hquery⟩ := @Ready.part_eq r s tables analyze wrap builders h hs index hlt
      obtain ⟨queries, spans, hparts, hflatten, hne, hall⟩ := ih (by omega) hle
      refine ⟨query :: queries, (r.words.take next).drop index :: spans, ?_, ?_, ?_,
        Forall₂.cons hquery hall⟩
      · rw [parts, if_pos hlt]
        simp only [hpart, ok_bind, hparts, pure_eq]
      · rw [flatten_cons, hflatten]
        conv_rhs => rw [← take_append_drop next r.words,
          drop_append_of_le_length (by rw [length_take]; omega)]
      · intro span hspan
        obtain rfl | hspan := mem_cons.1 hspan
        · intro hnil
          have hzero := congrArg length hnil
          rw [length_drop, length_take, length_nil] at hzero
          omega
        · exact hne span hspan
    · refine ⟨[], [], ?_, ?_, ?_, Forall₂.nil⟩
      · rw [parts, if_neg hlt]
      · rw [drop_eq_nil_of_le (by omega), flatten_nil]
      · intro span hspan
        cases hspan

end

end SynonymRun

theorem expandRun_eq {s : Synonyms} {tables : UnicodeTables}
    {builders : List (DictionaryBuilder × (String → List String))} (hs : s.Built tables builders)
    (analyze : String → List String) (wrap : List Query → Query) (words : List String) :
    ∃ queries spans, expandRun s tables analyze wrap words = .ok queries ∧ spans.flatten = words ∧
      (∀ span ∈ spans, span ≠ []) ∧ Forall₂ (IsPart wrap) spans queries := by
  have hlaid := layOut_laidOut tables words 0 ⟨[], [], []⟩
  have hstarts : ∀ start ∈ (layOut tables words 0 ⟨[], [], []⟩).wordStart,
      start < (replicate ((layOut tables words 0 ⟨[], [], []⟩).surface.length + 1) false).length := by
    intro start hstart
    rw [hlaid.wordStart, nil_append] at hstart
    obtain ⟨i, -, rfl⟩ := mem_map.1 hstart
    have hle := tokensBefore_le tables words i
    rw [length_replicate, hlaid.surface, nil_append]
    show 0 + tokensBefore tables words i < _
    omega
  obtain ⟨boundary, hboundary, hlen⟩ := markBoundaries_eq hstarts
  rw [length_replicate] at hlen
  have hready : SynonymRun.Ready tables analyze ⟨words, layOut tables words 0 ⟨[], [], []⟩,
      (layOut tables words 0 ⟨[], [], []⟩).surface.map (lookupKey tables analyze), boundary⟩ :=
    ⟨hlaid, rfl, hlen⟩
  obtain ⟨queries, spans, hparts, hflatten, hne, hall⟩ :=
    hready.parts_eq hs (Nat.le_add_right words.length 0) (Nat.zero_le _)
  refine ⟨queries, spans, ?_, hflatten, hne, hall⟩
  rw [expandRun, hboundary, Fallible.ok_bind, hparts]

/-- For any dictionaries a match has the greatest length that a search over all their forms finds, and
the parts of a run cover its words. -/
theorem Synonyms.matchAt_expandRun_spec (tables : UnicodeTables)
    (builders : List (DictionaryBuilder × (String → List String))) :
    ∃ s, ofBuilders tables builders = .ok s ∧
      (∀ (analyze : String → List String) (surface : List String) (accept : ℕ → Bool),
        ∃ found, s.matchAt tables surface (surface.map (lookupKey tables analyze))
            (fun len => .ok (accept len)) = .ok found ∧
          MatchOf tables surface (surface.map (lookupKey tables analyze)) accept builders found) ∧
      ∀ (analyze : String → List String) (wrap : List Query → Query) (words : List String),
        ∃ queries spans, expandRun s tables analyze wrap words = .ok queries ∧ spans.flatten = words ∧
          (∀ span ∈ spans, span ≠ []) ∧ Forall₂ (IsPart wrap) spans queries := by
  obtain ⟨s, hs, hbuilt⟩ := ofBuilders_eq tables builders
  refine ⟨s, hs, fun analyze surface accept => ?_, expandRun_eq hbuilt⟩
  exact hbuilt.matchAt_eq (length_map _) fun len _ _ => rfl

def asciiTables : UnicodeTables :=
  ⟨Char.isAlphanum, Char.isUpper, fun text => String.ofList (text.toList.map Char.toLower)⟩

/-- A dictionary with the group of `eleven` and `11`. -/
def elevenBuilder : DictionaryBuilder :=
  ⟨[⟨[⟨["eleven"], "eleven", .insensitive, by decide, by decide⟩,
    ⟨["11"], "11", .insensitive, by decide, by decide⟩], false, by decide⟩], .default⟩

/-- The alternatives for `11` hold its numeral, which is a form of no group. -/
theorem numeral_added :
    (do
      let s ← Synonyms.ofBuilders asciiTables [(elevenBuilder, fun word => [word])]
      let found ← s.matchAt asciiTables ["11"] ["11"] fun _ => .ok true
      return found.map fun (m : SynonymMatch) => (m.len, nodesOf m.alternatives)) =
        .ok (some (1, [.term "eleven", .term "11", .term "xi"])) ∧
      ∀ group ∈ elevenBuilder.groups, ∀ v ∈ group.variants, v.toNode asciiTables ≠ .term "xi" := by
  constructor
  · decide +kernel
  · decide +kernel
