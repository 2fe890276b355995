/-
The keys an automaton accepts.

A key is any sequence of bytes.  One that is accepted is text behind the raw prefix:
the bytes of a letter that is not complete, or that are none of a letter, are never a
match.
-/
import Riets.LevenshteinAutomaton

namespace LevenshteinAutomaton

open List

section Bytes

variable {a : LevenshteinAutomaton}

theorem utf8EncodeChar_of_width_one {b : UInt8} (h : utf8Width b = 1) :
    String.utf8EncodeChar (Char.ofNat b.toNat) = [b] := by
  have hle : b.toNat ≤ 0x7f := by
    rw [utf8Width] at h
    split_ifs at h <;> omega
  have hval : (Char.ofNat b.toNat).val.toNat = b.toNat := by
    have hvalid : b.toNat.isValidChar := .inl (by omega)
    rw [Char.ofNat, dif_pos hvalid]
    rfl
  rw [String.utf8EncodeChar, if_pos (by omega), hval, UInt8.ofNat_toNat]

theorem letter_of_bytes {lead : UInt8} {rest : ByteSeq} {text : String} {c : Char}
    (hlen : (lead :: rest).length = utf8Width lead) (htext : ofUtf8 (lead :: rest) = some text)
    (hc : text.toList.head? = some c) : lead :: rest = String.utf8EncodeChar c := by
  obtain ⟨more, hmore⟩ : ∃ more, text.toList = c :: more := by
    obtain ⟨more, hmore⟩ := head?_eq_some_iff.mp hc
    exact ⟨more, hmore⟩
  have hbytes : lead :: rest = String.utf8EncodeChar c ++ more.flatMap String.utf8EncodeChar := by
    rw [← utf8_of_ofUtf8 htext, ← String.ofList_toList (s := text), utf8_ofList, hmore, flatMap_cons]
  obtain ⟨lead', rest', hchar, hwidth, -, -⟩ := utf8EncodeChar_cases c
  -- the first letter has the same first byte, and so takes all bytes
  have hsame : lead = lead' := by
    rw [hchar] at hbytes
    exact (cons.inj hbytes).1
  have hnone : more.flatMap String.utf8EncodeChar = [] := by
    have hlength := congrArg length hbytes
    rw [hlen, hsame, hwidth, length_append, hchar, length_cons] at hlength
    exact length_eq_zero_iff.mp (by omega)
  rw [hbytes, hnone, append_nil]

theorem letter_of_pending {s : FuzzyState} {lead : UInt8} {read bytes : ByteSeq} {e : ℕ}
    (hread : (lead :: read).length < utf8Width lead)
    (h : a.distance (a.acceptAll (.fuzzy { s with utf8 := lead :: read, utf8Need := utf8Width lead }) bytes) =
      some e) :
    ∃ c rest, lead :: (read ++ bytes) = String.utf8EncodeChar c ++ rest ∧
      a.distance (a.acceptAll (a.stepChar s c) rest) = some e := by
  have hneed : ¬ utf8Width lead = 0 := by omega
  induction bytes generalizing read with
  | nil =>
    rw [acceptAll, foldl_nil, distance, if_neg hneed] at h
    cases h
  | cons b bytes ih =>
    rw [acceptAll, foldl_cons, accept, if_neg hneed] at h
    by_cases hmark : b &&& 0xc0 ≠ 0x80
    · rw [if_pos hmark] at h
      change a.distance (a.acceptAll .dead bytes) = some e at h
      rw [acceptAll_dead] at h
      cases h
    rw [if_neg hmark] at h
    simp only [cons_append] at h
    by_cases hmore : (lead :: (read ++ [b])).length < utf8Width lead
    · -- the letter is not complete yet
      rw [if_pos hmore] at h
      obtain ⟨c, rest, hbytes, hrest⟩ := ih hmore h
      refine ⟨c, rest, ?_, hrest⟩
      rw [← hbytes, append_assoc, singleton_append]
    · rw [if_neg hmore] at h
      cases htext : ofUtf8 (lead :: (read ++ [b])) with
      | none =>
        rw [htext] at h
        change a.distance (a.acceptAll .dead bytes) = some e at h
        rw [acceptAll_dead] at h
        cases h
      | some text =>
        rw [htext, Option.bind_some] at h
        cases hc : text.toList.head? with
        | none =>
          rw [hc] at h
          change a.distance (a.acceptAll .dead bytes) = some e at h
          rw [acceptAll_dead] at h
          cases h
        | some c =>
          rw [hc] at h
          simp only [a.stepChar_pending s _ _ c] at h
          have hlen : (lead :: (read ++ [b])).length = utf8Width lead := by
            simp only [length_cons, length_append, length_nil] at hread hmore ⊢
            omega
          refine ⟨c, bytes, ?_, h⟩
          rw [← letter_of_bytes hlen htext hc, cons_append, append_assoc, singleton_append]

theorem stepChar_complete (s : FuzzyState) (c : Char) :
    a.stepChar s c = .dead ∨ ∃ s', a.stepChar s c = .fuzzy s' ∧ s'.utf8Need = 0 := by
  rw [stepChar]
  split_ifs
  · exact .inl rfl
  · exact .inr ⟨_, rfl, rfl⟩

theorem letters_of_distance {s : FuzzyState} (hcomplete : s.utf8Need = 0) {bytes : ByteSeq} {e : ℕ}
    (h : a.distance (a.acceptAll (.fuzzy s) bytes) = some e) :
    ∃ letters : List Char, bytes = letters.flatMap String.utf8EncodeChar := by
  induction hn : bytes.length using Nat.strongRecOn generalizing s bytes with
  | ind n ih =>
    subst hn
    cases bytes with
    | nil => exact ⟨[], rfl⟩
    | cons b bytes =>
      -- the first letter, and a match of the bytes behind it
      have hletter : ∃ c rest, b :: bytes = String.utf8EncodeChar c ++ rest ∧
          a.distance (a.acceptAll (a.stepChar s c) rest) = some e := by
        rw [acceptAll, foldl_cons, accept, if_pos hcomplete] at h
        by_cases hone : utf8Width b = 1
        · rw [hone] at h
          refine ⟨Char.ofNat b.toNat, bytes, ?_, h⟩
          rw [utf8EncodeChar_of_width_one hone, singleton_append]
        · by_cases hzero : utf8Width b = 0
          · rw [hzero] at h
            change a.distance (a.acceptAll .dead bytes) = some e at h
            rw [acceptAll_dead] at h
            cases h
          · obtain ⟨w, hw⟩ : ∃ w, utf8Width b = w + 2 := ⟨utf8Width b - 2, by omega⟩
            rw [hw] at h
            change a.distance (a.acceptAll (.fuzzy { s with utf8 := [b], utf8Need := w + 2 }) bytes) = some e at h
            rw [← hw] at h
            have hread : ([b] : ByteSeq).length < utf8Width b := by
              rw [length_singleton]
              omega
            exact letter_of_pending hread h
      obtain ⟨c, rest, hbytes, hrest⟩ := hletter
      have hshorter : rest.length < (b :: bytes).length := by
        have hlength := congrArg length hbytes
        obtain ⟨lead, tail, hchar, -⟩ := utf8EncodeChar_cases c
        rw [length_append, hchar] at hlength
        simp only [length_cons] at hlength ⊢
        omega
      rcases stepChar_complete (a := a) s c with hdead | ⟨s', hstep, hcomplete'⟩
      · rw [hdead, acceptAll_dead] at hrest
        cases hrest
      · rw [hstep] at hrest
        obtain ⟨letters, hletters⟩ := ih _ hshorter hcomplete' hrest rfl
        exact ⟨c :: letters, by rw [hbytes, hletters, flatMap_cons]⟩

theorem distance_eq_some_iff {key : ByteSeq} {e : ℕ} : a.distance (a.acceptAll a.start key) = some e ↔
    ∃ rest : List Char, key = a.exact ++ rest.flatMap String.utf8EncodeChar ∧
      editDistance rest a.query = e ∧ e ≤ a.maxEdits := by
  obtain ⟨s, hinitial, hreads⟩ := reads_initial (a := a)
  have hrest : ∀ rest : List Char, a.distance (a.acceptAll a.initialFuzzy (rest.flatMap String.utf8EncodeChar)) =
      some e ↔ editDistance rest a.query = e ∧ e ≤ a.maxEdits := by
    intro rest
    rw [hinitial, distance_acceptAll hreads, append_nil]
    show (if editDistance rest a.query ≤ a.maxEdits then some (editDistance rest a.query) else none) = some e ↔ _
    split_ifs with hclose
    · rw [Option.some_inj]
      refine ⟨fun heq => ⟨heq, heq ▸ hclose⟩, fun h => h.1⟩
    · refine ⟨fun h => (by cases h), ?_⟩
      rintro ⟨rfl, hle⟩
      exact absurd hle hclose
  rw [distance_start]
  constructor
  · intro h
    split_ifs at h with hfixed
    obtain ⟨tail, rfl⟩ := hfixed
    rw [drop_left] at h
    have hmatch := h
    rw [hinitial] at hmatch
    obtain ⟨rest, rfl⟩ := letters_of_distance hreads.complete hmatch
    exact ⟨rest, rfl, (hrest rest).mp h⟩
  · rintro ⟨rest, rfl, hclose⟩
    rw [if_pos (prefix_append _ _), drop_left]
    exact (hrest rest).mpr hclose

end Bytes

/-- The key is text behind the raw prefix that begins with the first letters of the word, and
what is behind them is made of the rest of the word with `e` edits and no fewer. -/
def Spells (keyPrefix : ByteSeq) (term : String) (prefixLength : ℕ) (key : ByteSeq) (e : ℕ) : Prop :=
  ∃ rest : List Char, key = keyPrefix ++ utf8 (String.ofList (term.toList.take prefixLength ++ rest)) ∧
    IsLeast {n | Edited rest (term.toList.drop prefixLength) n} e

/-- **The automaton computes the edit distance.**  For every raw prefix, word, number of edits
and length of the fixed part, and for every sequence of bytes, it reports a distance just
where the bytes spell the word with that many edits and these are at most `max_edits` and
three.  Where it is dead, nothing that goes on from the bytes read is spelt so. -/
theorem distance_exact (keyPrefix : ByteSeq) (term : String) (maxEdits prefixLength : ℕ) (key : ByteSeq) :
    (∀ e, (new keyPrefix term maxEdits prefixLength).distance
        ((new keyPrefix term maxEdits prefixLength).acceptAll (new keyPrefix term maxEdits prefixLength).start key) =
          some e ↔ Spells keyPrefix term prefixLength key e ∧ e ≤ min maxEdits maxSupportedEdits) ∧
    ((new keyPrefix term maxEdits prefixLength).acceptAll (new keyPrefix term maxEdits prefixLength).start key =
        .dead → ∀ more e, Spells keyPrefix term prefixLength (key ++ more) e →
          min maxEdits maxSupportedEdits < e) := by
  have hiff : ∀ key e, (new keyPrefix term maxEdits prefixLength).distance
      ((new keyPrefix term maxEdits prefixLength).acceptAll (new keyPrefix term maxEdits prefixLength).start key) =
        some e ↔ Spells keyPrefix term prefixLength key e ∧ e ≤ min maxEdits maxSupportedEdits := by
    intro key e
    have hbytes : ∀ rest : List Char,
        keyPrefix ++ utf8 (String.ofList (term.toList.take prefixLength ++ rest)) =
          (new keyPrefix term maxEdits prefixLength).exact ++ rest.flatMap String.utf8EncodeChar := by
      intro rest
      rw [utf8_ofList, flatMap_append, ← append_assoc, ← utf8_ofList]
      rfl
    have hquery : (new keyPrefix term maxEdits prefixLength).query = term.toList.drop prefixLength :=
      String.toList_ofList
    rw [distance_eq_some_iff, hquery]
    constructor
    · rintro ⟨rest, hkey, rfl, hle⟩
      exact ⟨⟨rest, hkey.trans (hbytes rest).symm, isLeast_editDistance _ _⟩, hle⟩
    · rintro ⟨⟨rest, hkey, hleast⟩, hle⟩
      exact ⟨rest, hkey.trans (hbytes rest), (isLeast_editDistance _ _).unique hleast, hle⟩
  refine ⟨hiff key, fun hdead more e hspells => not_le.mp fun hle => ?_⟩
  have hmatch := (hiff (key ++ more) e).mpr ⟨hspells, hle⟩
  rw [acceptAll_append, hdead, acceptAll_dead] at hmatch
  cases hmatch

/-- Three edits are reported where three are asked for: the ceiling is not two. -/
theorem distance_three : ¬ ∀ (keyPrefix : ByteSeq) (term : String) (maxEdits prefixLength : ℕ) (key : ByteSeq) (e : ℕ),
    (new keyPrefix term maxEdits prefixLength).distance
      ((new keyPrefix term maxEdits prefixLength).acceptAll (new keyPrefix term maxEdits prefixLength).start key) =
        some e ↔ Spells keyPrefix term prefixLength key e ∧ e ≤ min maxEdits 2 := by
  intro h
  have hfound : (new [] "abc" 3 0).distance ((new [] "abc" 3 0).acceptAll (new [] "abc" 3 0).start (utf8 "abcdef")) =
      some 3 := by decide
  exact absurd ((h [] "abc" 3 0 (utf8 "abcdef") 3).mp hfound).2 (by decide)

end LevenshteinAutomaton
