/-
The lengths of a segment file.

A file lists lengths by document and field; the reader turns each field into an
array over the documents between its first and its last, or into a map.
-/
import Riets.SegmentReader

open Fallible SortedMap

namespace FieldLengths

open List Option SortedMap

/-- The length last listed for a document. -/
def lastLen (docs : List (ℕ × ℕ)) (d : ℕ) : Option ℕ :=
  ((docs.filter fun e => e.1 = d).getLast?).map Prod.snd

theorem lastLen_cons (e : ℕ × ℕ) (docs : List (ℕ × ℕ)) (d : ℕ) :
    lastLen (e :: docs) d = (lastLen docs d).or (if e.1 = d then some e.2 else none) := by
  rw [lastLen, lastLen, filter_cons]
  by_cases he : e.1 = d
  · rw [if_pos (decide_eq_true he), if_pos he]
    cases hl : docs.filter fun e => e.1 = d with
    | nil => rfl
    | cons f docs =>
      rw [getLast?_cons_cons, getLast?_cons]
      rfl
  · rw [if_neg (by simpa using he), if_neg he, or_none]

theorem fill_spec (first : ℕ) (docs : List (ℕ × ℕ)) (lens : List ℕ)
    (h : ∀ e ∈ docs, first ≤ e.1 ∧ e.1 - first < lens.length) :
    ∃ lens', docs.foldlM (fun lens e => do
        let index ← sub e.1 first
        setAt lens index e.2) lens = .ok lens' ∧ lens'.length = lens.length ∧
      ∀ i, lens'[i]? = (lens[i]?).map fun old => (lastLen docs (first + i)).getD old := by
  induction docs generalizing lens with
  | nil => exact ⟨lens, rfl, rfl, fun i => by simp [lastLen]⟩
  | cons e docs ih =>
    obtain ⟨hle, hlt⟩ := h e mem_cons_self
    obtain ⟨lens', hfold, hlen, hget⟩ := ih (lens.set (e.1 - first) e.2) fun e' he' => by
      rw [length_set]
      exact h e' (mem_cons_of_mem e he')
    refine ⟨lens', ?_, hlen.trans length_set, fun i => ?_⟩
    · rw [foldlM_cons, sub_of_le hle, ok_bind, setAt_of_lt hlt, ok_bind]
      exact hfold
    · rw [hget, lastLen_cons]
      by_cases hi : e.1 - first = i
      · have hd : e.1 = first + i := by omega
        rw [if_pos hd, ← hi, getElem?_set_self hlt, getElem?_eq_getElem hlt, map_some, map_some]
        cases lastLen docs (first + (e.1 - first)) with
        | none => rfl
        | some len => rfl
      · have hd : ¬ e.1 = first + i := by omega
        rw [if_neg hd, getElem?_set_ne hi, or_none]

variable {docs : List (ℕ × ℕ)}

theorem first_le_last {e : ℕ × ℕ} (he : e ∈ docs) :
    ((docs.map Prod.fst).min?).getD 0 ≤ e.1 ∧ e.1 ≤ ((docs.map Prod.fst).max?).getD 0 := by
  have hmem : e.1 ∈ docs.map Prod.fst := mem_map_of_mem he
  cases hmin : (docs.map Prod.fst).min? with
  | none =>
    rw [min?_eq_none_iff.mp hmin] at hmem
    cases hmem
  | some first =>
    cases hmax : (docs.map Prod.fst).max? with
    | none =>
      rw [max?_eq_none_iff.mp hmax] at hmem
      cases hmem
    | some last =>
      exact ⟨(min?_eq_some_iff.mp hmin).2 _ hmem, (max?_eq_some_iff.mp hmax).2 _ hmem⟩

theorem last_mem (hne : docs ≠ []) :
    ∃ e ∈ docs, e.1 = ((docs.map Prod.fst).max?).getD 0 := by
  cases hmax : (docs.map Prod.fst).max? with
  | none => exact absurd (map_eq_nil_iff.mp (max?_eq_none_iff.mp hmax)) hne
  | some last =>
    obtain ⟨e, he, heq⟩ := mem_map.mp (max?_eq_some_iff.mp hmax).1
    exact ⟨e, he, heq⟩

/-- A field is held densely when its range is at most four times as long as its list. -/
def Dense (docs : List (ℕ × ℕ)) : Prop :=
  ((docs.map Prod.fst).max?).getD 0 - ((docs.map Prod.fst).min?).getD 0 + 1 ≤ docs.length * 4

instance (docs : List (ℕ × ℕ)) : Decidable (Dense docs) := inferInstanceAs (Decidable (_ ≤ _))

theorem build_spec (hne : docs ≠ []) (hids : ∀ e ∈ docs, e.1 < 2 ^ 64)
    (hlen : docs.length < 2 ^ 60) :
    (Dense docs ∧ ∃ (first : ℕ) (lens : List ℕ), build docs = .ok (dense first lens) ∧
      (∀ e ∈ docs, first ≤ e.1 ∧ e.1 < first + lens.length) ∧ first + lens.length ≤ 2 ^ 64 ∧
      ∀ i < lens.length, lens[i]? = some ((lastLen docs (first + i)).getD u32Max)) ∨
    (¬ Dense docs ∧
      build docs = .ok (sparse (empty.extend (fun _ len => len) docs))) := by
  obtain ⟨first, hfirst⟩ : ∃ first, first = ((docs.map Prod.fst).min?).getD 0 := ⟨_, rfl⟩
  obtain ⟨last, hlast⟩ : ∃ last, last = ((docs.map Prod.fst).max?).getD 0 := ⟨_, rfl⟩
  have hrange : ∀ e ∈ docs, first ≤ e.1 ∧ e.1 ≤ last := by
    intro e he
    rw [hfirst, hlast]
    exact first_le_last he
  obtain ⟨e, he, heq⟩ := last_mem hne
  rw [← hlast] at heq
  have hlt : last < 2 ^ 64 := heq ▸ hids e he
  have hle : first ≤ last := heq ▸ (hrange e he).1
  rw [build, Dense, ← hfirst, ← hlast]
  by_cases hdense : last - first + 1 ≤ docs.length * 4
  · left
    have hspan : min (last - first + 1) (2 ^ 64 - 1) = last - first + 1 := by omega
    have hmul : min (docs.length * 4) (2 ^ 64 - 1) = docs.length * 4 := by omega
    obtain ⟨lens, hfold, hlength, hget⟩ := fill_spec first docs
      (replicate (last - first + 1) u32Max) fun e he => by
        rw [length_replicate]
        have := hrange e he
        omega
    rw [length_replicate] at hlength
    refine ⟨hdense, first, lens, ?_, fun e he => ?_, by omega, fun i hi => ?_⟩
    · rw [hspan, hmul, if_pos hdense, hfold, ok_bind, pure_eq]
    · have := hrange e he
      omega
    · rw [hget, getElem?_replicate_of_lt (by omega), map_some]
  · right
    have hspan : ¬ min (last - first + 1) (2 ^ 64 - 1) ≤ min (docs.length * 4) (2 ^ 64 - 1) := by omega
    exact ⟨hdense, if_neg hspan⟩

theorem get?_extend_lastLen (docs : List (ℕ × ℕ)) (d : ℕ) :
    (empty.extend (fun _ len => len) docs : SortedMap ℕ ℕ).get? d = lastLen docs d := by
  have hfold : ∀ (l : List (ℕ × ℕ)) (o : Option ℕ),
      l.foldl (fun _ e => some e.2) o = (l.getLast?.map Prod.snd).or o := by
    intro l
    induction l using reverseRecOn with
    | nil => exact fun _ => rfl
    | append_singleton l e _ =>
      intro o
      rw [foldl_append, getLast?_concat]
      rfl
  rw [get?_extend, hfold, lastLen, get?_empty, or_none]

theorem get_build (hne : docs ≠ []) (hids : ∀ e ∈ docs, e.1 < 2 ^ 64)
    (hlen : docs.length < 2 ^ 60) : ∃ lengths, build docs = .ok lengths ∧
      ∀ d : ℕ, lengths.get d = (lastLen docs d).filter fun len => !(decide (Dense docs) && len = u32Max) := by
  rcases build_spec hne hids hlen with ⟨hdense, first, lens, hbuild, hrange, -, hget⟩ | ⟨hsparse, hbuild⟩
  · refine ⟨_, hbuild, fun d => ?_⟩
    rw [get, decide_eq_true hdense]
    have hnone : (∀ e ∈ docs, e.1 ≠ d) → lastLen docs d = none := by
      intro hno
      rw [lastLen, filter_eq_nil_iff.mpr fun e he => by simpa using hno e he]
      rfl
    by_cases hlow : d < first
    · rw [if_pos hlow, hnone fun e he heq => absurd (hrange e he).1 (by omega)]
      rfl
    · rw [if_neg hlow]
      rcases Nat.lt_or_ge (d - first) lens.length with hin | hout
      · have hd : first + (d - first) = d := by omega
        rw [hget _ hin, hd]
        cases lastLen docs d with
        | none => rfl
        | some len =>
          rw [getD_some, filter_some, filter_some]
          simp
      · rw [getElem?_eq_none hout, hnone fun e he heq => absurd (hrange e he).2 (by omega)]
        rfl
  · refine ⟨_, hbuild, fun d => ?_⟩
    rw [get, get?_extend_lastLen, decide_eq_false hsparse]
    cases lastLen docs d with
    | none => rfl
    | some len => rfl

theorem iter_dense {first : ℕ} {lens : List ℕ} (h : first + lens.length ≤ 2 ^ 64) :
    (dense first lens).iter =
      .ok ((lens.zipIdx.filter fun e => e.1 ≠ u32Max).map fun e => (first + e.2, e.1)) := by
  rw [iter, ← collect_ok, List.map_map]
  congr 1
  refine map_congr_left fun e he => ?_
  have hidx : e.2 < lens.length := by
    have := snd_lt_of_mem_zipIdx (mem_filter.mp he).1
    simpa using this
  rw [add_of_lt (by omega), ok_bind]
  rfl

theorem iter_build (hne : docs ≠ []) (hids : ∀ e ∈ docs, e.1 < 2 ^ 64)
    (hlen : docs.length < 2 ^ 60) {lengths : FieldLengths} (h : build docs = .ok lengths) :
    ∃ rows, lengths.iter = .ok rows ∧ (rows.map Prod.fst).Nodup ∧
      ∀ d len : ℕ, (d, len) ∈ rows ↔ lengths.get d = some len := by
  rcases build_spec hne hids hlen with ⟨-, first, lens, hbuild, -, hspan, -⟩ | ⟨-, hbuild⟩
  · cases h.symm.trans hbuild
    refine ⟨_, iter_dense hspan, ?_, fun d len => ?_⟩
    · -- the places of the array are apart, and the documents are the places shifted
      have hplaces : ((lens.zipIdx.filter fun e => e.1 ≠ u32Max).map Prod.snd).Nodup := by
        refine Nodup.sublist (Sublist.map _ filter_sublist) ?_
        rw [zipIdx_map_snd]
        exact nodup_range'
      rw [List.map_map, show (Prod.fst ∘ fun e : ℕ × ℕ => (first + e.2, e.1)) =
        (fun i => first + i) ∘ Prod.snd from rfl, ← List.map_map]
      exact hplaces.map (add_right_injective first)
    · rw [get, List.mem_map]
      by_cases hlow : d < first
      · rw [if_pos hlow]
        constructor
        · rintro ⟨⟨l, i⟩, -, heq⟩
          have hd : first + i = d := (Prod.mk.inj heq).1
          omega
        · intro h
          cases h
      · have hd : first + (d - first) = d := by omega
        rw [if_neg hlow, filter_eq_some_iff]
        constructor
        · rintro ⟨⟨l, i⟩, he, heq⟩
          obtain ⟨hd, rfl⟩ : first + i = d ∧ l = len := Prod.mk.inj heq
          obtain ⟨hmem, hlen⟩ := mem_filter.mp he
          rw [show d - first = i by omega]
          exact ⟨mem_zipIdx_iff_getElem?.mp hmem, hlen⟩
        · rintro ⟨hat, hlen⟩
          exact ⟨(len, d - first), mem_filter.mpr ⟨mem_zipIdx_iff_getElem?.mpr hat, hlen⟩, by rw [hd]⟩
  · cases h.symm.trans hbuild
    exact ⟨_, rfl, (keys_ascending _).imp ne_of_lt, fun d len => mem_entries⟩

end FieldLengths

namespace DocLengths

open List

/-- The documents of one field with their lengths. -/
def docsOf (entries : List (ℕ × XPathId × ℕ)) (x : XPathId) : List (ℕ × ℕ) :=
  (entries.filter fun e => e.2.1 = x).map fun e => (e.1, e.2.2)

theorem get?_byField (entries : List (ℕ × XPathId × ℕ)) (x : XPathId) :
    (byField entries).get? x = if docsOf entries x = [] then none else some (docsOf entries x) := by
  have hfold : ∀ (l : List (XPathId × ℕ × ℕ)) (o : Option (List (ℕ × ℕ))),
      l.foldl (fun o e => some (o.getD [] ++ [e.2])) o =
        if l = [] then o else some (o.getD [] ++ l.map Prod.snd) := by
    intro l
    induction l with
    | nil => exact fun _ => rfl
    | cons e l ih =>
      intro o
      rw [foldl_cons, ih, if_neg (cons_ne_nil e l)]
      cases l with
      | nil => rfl
      | cons f l => rw [if_neg (cons_ne_nil f l), Option.getD_some, map_cons, append_assoc]; rfl
  have hfilter : ((entries.map fun e => (e.2.1, (e.1, e.2.2))).filter fun e => e.1 = x).map Prod.snd =
      docsOf entries x := by
    rw [filter_map, map_map, docsOf]
    rfl
  rw [byField, get?_extend, hfold, hfilter, get?_empty]
  have hempty : ((entries.map fun e => (e.2.1, (e.1, e.2.2))).filter fun e => e.1 = x) = [] ↔
      docsOf entries x = [] := by
    rw [← hfilter, map_eq_nil_iff]
  by_cases hnil : docsOf entries x = []
  · rw [if_pos (hempty.mpr hnil), if_pos hnil]
  · rw [if_neg fun h => hnil (hempty.mp h), if_neg hnil]
    rfl

variable {entries : List (ℕ × XPathId × ℕ)}

theorem mem_byField {e : XPathId × List (ℕ × ℕ)}
    (he : e ∈ (byField entries).entries) : e.2 = docsOf entries e.1 ∧ e.2 ≠ [] := by
  have hget := mem_entries.mp he
  rw [get?_byField] at hget
  split_ifs at hget with hnil
  have heq := Option.some_inj.mp hget
  exact ⟨heq.symm, heq ▸ hnil⟩

theorem docsOf_bounds (hids : ∀ e ∈ entries, e.1 < 2 ^ 64)
    (hlen : entries.length < 2 ^ 60) (x : XPathId) :
    (∀ e ∈ docsOf entries x, e.1 < 2 ^ 64) ∧ (docsOf entries x).length < 2 ^ 60 := by
  constructor
  · intro e he
    obtain ⟨e', he', rfl⟩ := mem_map.mp he
    exact hids e' (mem_filter.mp he').1
  · rw [docsOf, length_map]
    exact (length_filter_le _ _).trans_lt hlen

theorem exists_fields (hids : ∀ e ∈ entries, e.1 < 2 ^ 64)
    (hlen : entries.length < 2 ^ 60) :
    ∃ built : List (ℕ × ℕ) → FieldLengths,
      (∀ x, docsOf entries x ≠ [] → FieldLengths.build (docsOf entries x) = .ok (built (docsOf entries x))) ∧
      fromEntries entries = .ok ⟨(byField entries).entries.map fun e => (e.1, built e.2)⟩ := by
  have hbuild : ∀ docs, ∃ lengths, ∀ x, docs = docsOf entries x → docs ≠ [] →
      FieldLengths.build docs = .ok lengths := by
    intro docs
    by_cases h : ∃ x, docs = docsOf entries x ∧ docs ≠ []
    · obtain ⟨x, rfl, hne⟩ := h
      obtain ⟨hids', hlen'⟩ := docsOf_bounds hids hlen x
      obtain ⟨lengths, hok, -⟩ := FieldLengths.get_build hne hids' hlen'
      exact ⟨lengths, fun _ _ _ => hok⟩
    · exact ⟨.dense 0 [], fun x hdocs hne => absurd ⟨x, hdocs, hne⟩ h⟩
  choose built hbuilt using hbuild
  refine ⟨built, fun x hne => hbuilt _ x rfl hne, ?_⟩
  have hfields : ((byField entries).entries.map fun e => do
      let lengths ← FieldLengths.build e.2
      return (e.1, lengths)) = ((byField entries).entries.map fun e => (e.1, built e.2)).map ok := by
    rw [map_map]
    refine map_congr_left fun e he => ?_
    obtain ⟨heq, hne⟩ := mem_byField he
    rw [hbuilt e.2 e.1 heq hne, ok_bind, pure_eq]
    rfl
  rw [fromEntries, hfields, collect_ok, ok_bind, pure_eq]

theorem get_fields (entries : List (ℕ × XPathId × ℕ)) (built : List (ℕ × ℕ) → FieldLengths) (d : ℕ) (x : XPathId) :
    (⟨(byField entries).entries.map fun e => (e.1, built e.2)⟩ : DocLengths).get d x =
      if docsOf entries x = [] then none else (built (docsOf entries x)).get d := by
  have hfind : (byField entries).entries.find? (fun e => e.1 = x) =
      ((byField entries).get? x).map fun docs => (x, docs) := by
    rw [get?, Option.map_map]
    show Keyed.find Prod.fst x _ = _
    cases hf : Keyed.find Prod.fst x (byField entries).entries with
    | none => rfl
    | some e =>
      have hx : e.1 = x := Keyed.find_key hf
      rw [← hx]
      rfl
  rw [get, find?_map]
  show Option.bind (((byField entries).entries.find? fun e => e.1 = x).map _) _ = _
  rw [hfind, get?_byField]
  split_ifs
  · rfl
  · rfl

theorem iter_fields (hids : ∀ e ∈ entries, e.1 < 2 ^ 64)
    (hlen : entries.length < 2 ^ 60) {lengths : DocLengths} (h : fromEntries entries = .ok lengths) :
    ∃ rows, lengths.iter = .ok rows ∧ rows.Nodup ∧
      ∀ d x len, (toLex (d, x), len) ∈ rows ↔ lengths.get d x = some len := by
  obtain ⟨built, hbuilt, hfrom⟩ := exists_fields hids hlen
  cases h.symm.trans hfrom
  have hrows : ∀ docs, ∃ rows, ∀ x, docs = docsOf entries x → docs ≠ [] →
      (built docs).iter = .ok rows ∧ (rows.map Prod.fst).Nodup ∧
        ∀ d len, (d, len) ∈ rows ↔ (built docs).get d = some len := by
    intro docs
    by_cases h : ∃ x, docs = docsOf entries x ∧ docs ≠ []
    · obtain ⟨x, rfl, hne⟩ := h
      obtain ⟨hids', hlen'⟩ := docsOf_bounds hids hlen x
      obtain ⟨rows, hspec⟩ := FieldLengths.iter_build hne hids' hlen' (hbuilt x hne)
      exact ⟨rows, fun _ _ _ => hspec⟩
    · exact ⟨[], fun x hdocs hne => absurd ⟨x, hdocs, hne⟩ h⟩
  choose rows hrows using hrows
  have hiter : (((byField entries).entries.map fun e => (e.1, built e.2)).map fun e => do
      let docs ← e.2.iter
      return docs.map fun d => (toLex (d.1, e.1), d.2)) =
      ((byField entries).entries.map fun e => (rows e.2).map fun d => (toLex (d.1, e.1), d.2)).map ok := by
    rw [map_map, map_map]
    refine map_congr_left fun e he => ?_
    obtain ⟨heq, hne⟩ := mem_byField he
    show (built e.2).iter >>= _ = _
    rw [(hrows e.2 e.1 heq hne).1, ok_bind, pure_eq]
    rfl
  refine ⟨((byField entries).entries.map fun e => (rows e.2).map fun d => (toLex (d.1, e.1), d.2)).flatten,
    ?_, ?_, fun d x len => ?_⟩
  · rw [iter, hiter, collect_ok, ok_bind, pure_eq]
  · rw [nodup_flatten]
    constructor
    · intro l hl
      obtain ⟨e, he, rfl⟩ := mem_map.mp hl
      obtain ⟨heq, hne⟩ := mem_byField he
      refine ((hrows e.2 e.1 heq hne).2.1.of_map _).map fun a b hab => ?_
      cases a
      cases b
      cases hab
      rfl
    · -- rows of two fields differ in the field
      refine pairwise_map.mpr ((byField entries).ascending.imp fun {e e'} hlt => ?_)
      intro row hrow hrow'
      obtain ⟨d, -, rfl⟩ := mem_map.mp hrow
      obtain ⟨d', -, heq⟩ := mem_map.mp hrow'
      exact absurd (congrArg (fun r : LengthKey × ℕ => (ofLex r.1).2) heq) (ne_of_gt hlt)
  · rw [get_fields, mem_flatten]
    constructor
    · rintro ⟨l, hl, hrow⟩
      obtain ⟨e, he, rfl⟩ := mem_map.mp hl
      obtain ⟨d', hd, heq⟩ := mem_map.mp hrow
      cases heq
      obtain ⟨hdocs, hne⟩ := mem_byField he
      rw [← hdocs, if_neg hne]
      exact ((hrows e.2 e.1 hdocs hne).2.2 _ _).mp hd
    · intro hget
      split_ifs at hget with hnil
      refine ⟨_, mem_map_of_mem (a := (x, docsOf entries x)) (mem_entries.mpr ?_),
        mem_map.mpr ⟨(d, len), ((hrows _ x rfl hnil).2.2 d len).mpr hget, rfl⟩⟩
      rw [get?_byField, if_neg hnil]

theorem returns_fromEntries (hids : ∀ e ∈ entries, e.1 < 2 ^ 64)
    (hlen : entries.length < 2 ^ 60) :
    (fromEntries entries).Returns ∧ ∀ lengths, fromEntries entries = .ok lengths → lengths.iter.Returns := by
  obtain ⟨built, -, hfrom⟩ := exists_fields hids hlen
  refine ⟨hfrom ▸ returns_ok _, fun lengths h => ?_⟩
  obtain ⟨rows, hrows, -⟩ := iter_fields hids hlen h
  exact hrows ▸ returns_ok _

theorem iter_ne_err (lengths : DocLengths) (message : String) : lengths.iter ≠ .err message := by
  have hfield : ∀ (f : FieldLengths) (m : String), f.iter ≠ .err m := by
    intro f m
    cases f with
    | sparse map => exact fun heq => by cases heq
    | dense first lens =>
      refine collect_ne_err (fun o ho m' heq => ?_) m
      obtain ⟨e, -, rfl⟩ := mem_map.mp ho
      rw [add] at heq
      split_ifs at heq
      · cases heq
      · cases heq
  have hcollect : ∀ m, collect (lengths.fields.map fun e => do
      let docs ← e.2.iter
      return docs.map fun d => (toLex (d.1, e.1), d.2)) ≠ .err m := by
    refine fun m => collect_ne_err (fun o ho m' heq => ?_) m
    obtain ⟨e, -, rfl⟩ := mem_map.mp ho
    cases hiter : e.2.iter with
    | fault =>
      rw [hiter] at heq
      cases heq
    | ok docs =>
      rw [hiter] at heq
      cases heq
    | err m' => exact absurd hiter (hfield e.2 m')
  rw [iter]
  cases hfields : collect (lengths.fields.map fun e => do
      let docs ← e.2.iter
      return docs.map fun d => (toLex (d.1, e.1), d.2)) with
  | fault => exact fun heq => by cases heq
  | ok fields => exact fun heq => by cases heq
  | err m => exact absurd hfields (hcollect m)

theorem fromEntries_spec (hids : ∀ e ∈ entries, e.1 < 2 ^ 64)
    (hlen : entries.length < 2 ^ 60) :
    ∃ lengths list, fromEntries entries = .ok lengths ∧ lengths.iter = .ok list ∧
      ∀ (d : ℕ) (x : XPathId), lengths.get d x = (FieldLengths.lastLen (docsOf entries x) d).filter fun len =>
        !(decide (FieldLengths.Dense (docsOf entries x)) && len = u32Max) := by
  obtain ⟨built, hbuilt, hfrom⟩ := exists_fields hids hlen
  obtain ⟨rows, hrows, -⟩ := iter_fields hids hlen hfrom
  refine ⟨_, rows, hfrom, hrows, fun d x => ?_⟩
  rw [get_fields]
  split_ifs with hnil
  · rw [hnil]
    rfl
  · obtain ⟨hids', hlen'⟩ := docsOf_bounds hids hlen x
    obtain ⟨lengths, hok, hget⟩ := FieldLengths.get_build hnil hids' hlen'
    cases hok.symm.trans (hbuilt x hnil)
    exact hget d

theorem lastLen_docsOf (hkeys : (entries.map fun e => (e.1, e.2.1)).Nodup)
    (d : ℕ) (x : XPathId) (len : ℕ) :
    FieldLengths.lastLen (docsOf entries x) d = some len ↔ (d, x, len) ∈ entries := by
  induction entries generalizing len with
  | nil =>
    constructor
    · intro h
      cases h
    · intro h
      cases h
  | cons e entries ih =>
    obtain ⟨d', x', len'⟩ := e
    rw [map_cons, nodup_cons] at hkeys
    obtain ⟨hfresh, hkeys⟩ := hkeys
    have hcons : FieldLengths.lastLen (docsOf ((d', x', len') :: entries) x) d =
        (FieldLengths.lastLen (docsOf entries x) d).or (if d' = d ∧ x' = x then some len' else none) := by
      rw [docsOf, filter_cons]
      by_cases hx : x' = x
      · rw [if_pos (decide_eq_true hx), map_cons, FieldLengths.lastLen_cons]
        simp only [hx, and_true]
        rfl
      · rw [if_neg (by simpa using hx), if_neg fun h => hx h.2, Option.or_none]
        rfl
    rw [hcons, mem_cons, ← ih hkeys]
    by_cases hkey : d' = d ∧ x' = x
    · obtain ⟨rfl, rfl⟩ := hkey
      have hnone : FieldLengths.lastLen (docsOf entries x') d' = none := by
        by_contra hne
        obtain ⟨len₁, hsome⟩ := Option.ne_none_iff_exists'.mp hne
        exact hfresh (mem_map.mpr ⟨_, (ih hkeys len₁).mp hsome, rfl⟩)
      simp [hnone, eq_comm]
    · rw [if_neg hkey, Option.or_none]
      constructor
      · exact Or.inr
      · rintro (heq | h)
        · cases heq
          exact absurd ⟨rfl, rfl⟩ hkey
        · exact h

/-- Dense or sparse, the lengths of a file are the map it lists.  The entries are a vector of
16 byte elements, so there are fewer than `2 ^ 60`. -/
theorem fromEntries_exact {entries : List (DocId × XPathId × ℕ)}
    (hkeys : (entries.map fun e => (e.1, e.2.1)).Nodup) (hids : ∀ e ∈ entries, e.1 < 2 ^ 64)
    (hlens : ∀ e ∈ entries, e.2.2 < u32Max) (hvec : entries.length < 2 ^ 60) :
    ∃ lengths rows, fromEntries entries = .ok lengths ∧ lengths.iter = .ok rows ∧
      (∀ d x len, lengths.get d x = some len ↔ (d, x, len) ∈ entries) ∧
      rows.Perm (entries.map fun e => (toLex (e.1, e.2.1), e.2.2)) := by
  obtain ⟨lengths, -, hfrom, -, hget⟩ := fromEntries_spec hids hvec
  obtain ⟨rows, hiter, hnodup, hrows⟩ := iter_fields hids hvec hfrom
  have hexact : ∀ d x len, lengths.get d x = some len ↔ (d, x, len) ∈ entries := by
    intro d x len
    rw [hget, Option.filter_eq_some_iff, lastLen_docsOf hkeys]
    refine and_iff_left_of_imp fun hmem => ?_
    have hlt := hlens _ hmem
    rw [Bool.not_eq_true', Bool.and_eq_false_iff]
    exact .inr (decide_eq_false (ne_of_lt hlt))
  refine ⟨lengths, rows, hfrom, hiter, hexact, ?_⟩
  have hlisted : (entries.map fun e => ((toLex (e.1, e.2.1) : LengthKey), e.2.2)).Nodup := by
    refine Nodup.of_map (fun r : LengthKey × ℕ => ofLex r.1) ?_
    rw [map_map]
    exact hkeys
  refine (perm_ext_iff_of_nodup hnodup hlisted).mpr fun ⟨key, len⟩ => ?_
  rw [show key = toLex ((ofLex key).1, (ofLex key).2) from rfl, hrows, hexact, mem_map]
  constructor
  · intro h
    exact ⟨_, h, rfl⟩
  · rintro ⟨⟨d, x, l⟩, h, heq⟩
    cases heq
    exact h

/-- A document id and a row id at the two ends of the range. -/
theorem fromEntries_exact_far :
    (([(5, 3, 2), (2 ^ 64 - 1, 3, 7)] : List (DocId × XPathId × ℕ)).map fun e => (e.1, e.2.1)).Nodup ∧
    ∃ lengths rows, fromEntries [(5, 3, 2), (2 ^ 64 - 1, 3, 7)] = .ok lengths ∧ lengths.iter = .ok rows ∧
      (∀ d x len, lengths.get d x = some len ↔
        (d, x, len) ∈ ([(5, 3, 2), (2 ^ 64 - 1, 3, 7)] : List (DocId × XPathId × ℕ))) ∧
      rows.Perm [(toLex (5, 3), 2), (toLex (2 ^ 64 - 1, 3), 7)] := by
  have hkeys : (([(5, 3, 2), (2 ^ 64 - 1, 3, 7)] : List (DocId × XPathId × ℕ)).map fun e => (e.1, e.2.1)).Nodup := by
    decide
  exact ⟨hkeys, fromEntries_exact hkeys (by decide) (by decide) (by decide)⟩

end DocLengths
