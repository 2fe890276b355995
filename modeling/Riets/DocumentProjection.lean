/-
Projecting a stored document onto the fields that are to be returned.

A key of an object is kept when the nearest entry of `return_fields` at or above its path says
so, or, where there is none, the nearest field of the policy.  `prune` decides key by key, so a
leaf is kept when every key on the way to it is, and of the policy it looks at the fields of the
top level only.  The parser of the stored text is a parameter, and its values are taken as `Json`.
-/
import Riets.FieldPaths
import Riets.Json
import Riets.RecordFormat

/-! ### Paths and the paths above them -/

namespace Upward

open List Option

def cutLast : List Char → Option (List Char)
  | [] => none
  | c :: chars =>
    match cutLast chars with
    | some above => some (c :: above)
    | none => if c = '/' then some [] else none

theorem cutLast_eq_none {chars : List Char} : cutLast chars = none ↔ '/' ∉ chars := by
  induction chars with
  | nil => exact ⟨fun _ => not_mem_nil, fun _ => rfl⟩
  | cons c chars ih =>
    rw [cutLast, mem_cons]
    cases hcut : cutLast chars with
    | some above =>
      have hmem : '/' ∈ chars := by
        by_contra hmem
        rw [ih.mpr hmem] at hcut
        cases hcut
      constructor
      · intro h
        cases h
      · intro h
        exact absurd (Or.inr hmem) h
    | none =>
      have hmem := ih.mp hcut
      split_ifs with hc
      · constructor
        · intro h
          cases h
        · intro h
          exact absurd (Or.inl hc.symm) h
      · exact ⟨fun _ h => h.elim (fun h => hc h.symm) hmem, fun _ => rfl⟩

theorem eq_of_cutLast {chars above : List Char} (h : cutLast chars = some above) :
    ∃ rest, chars = above ++ '/' :: rest ∧ '/' ∉ rest := by
  induction chars generalizing above with
  | nil => cases h
  | cons c chars ih =>
    rw [cutLast] at h
    cases hcut : cutLast chars with
    | some above' =>
      rw [hcut] at h
      obtain rfl := some_inj.mp h
      obtain ⟨rest, rfl, hrest⟩ := ih hcut
      exact ⟨rest, rfl, hrest⟩
    | none =>
      rw [hcut] at h
      split_ifs at h with hc
      obtain rfl := some_inj.mp h
      exact ⟨chars, by rw [hc]; rfl, cutLast_eq_none.mp hcut⟩

/-- `candidate.rfind('/')`, and the slice up to there. -/
def parentPath (path : String) : Option String := (cutLast path.toList).map String.ofList

theorem length_parentPath {path above : String} (h : parentPath path = some above) :
    above.toList.length < path.toList.length := by
  obtain ⟨chars, hcut, rfl⟩ := map_eq_some_iff.mp h
  obtain ⟨rest, hpath, -⟩ := eq_of_cutLast hcut
  rw [hpath, String.toList_ofList, length_append, length_cons]
  omega

/-- The loop of `lookup_up` and `policy_list`: the first answer on the way up. -/
def upward {α : Type} (get : String → Option α) (candidate : String) : Option α :=
  match get candidate with
  | some a => some a
  | none =>
    match _h : parentPath candidate with
    | some above => upward get above
    | none => none
termination_by candidate.toList.length
decreasing_by exact length_parentPath _h

def AtOrAbove (q p : String) : Prop := q = p ∨ ∃ rest, p.toList = q.toList ++ '/' :: rest

/-- The nearest path at or above `p` that has an entry has the entry `a`. -/
def Nearest {α : Type} (get : String → Option α) (p : String) (a : α) : Prop :=
  ∃ q, AtOrAbove q p ∧ get q = some a ∧ ∀ q', AtOrAbove q' p → get q' ≠ none → q'.toList.length ≤ q.toList.length

def Silent {α : Type} (get : String → Option α) (p : String) : Prop := ∀ q, AtOrAbove q p → get q = none

theorem AtOrAbove.length_le {p q : String} (h : AtOrAbove q p) : q.toList.length ≤ p.toList.length := by
  rcases h with rfl | ⟨rest, hp⟩
  · exact le_refl _
  · rw [hp, length_append]
    omega

theorem atOrAbove_iff {p q : String} :
    AtOrAbove q p ↔ q = p ∨ ∃ above, parentPath p = some above ∧ AtOrAbove q above := by
  constructor
  · rintro (rfl | ⟨rest, hp⟩)
    · exact Or.inl rfl
    · right
      cases hcut : cutLast p.toList with
      | none =>
        refine absurd ?_ (cutLast_eq_none.mp hcut)
        rw [hp]
        exact mem_append_right _ mem_cons_self
      | some above =>
        refine ⟨String.ofList above, by rw [parentPath, hcut]; rfl, ?_⟩
        obtain ⟨last, hlast, hslash⟩ := eq_of_cutLast hcut
        rw [AtOrAbove, String.toList_ofList]
        -- both cut the path at a slash, and behind `above` there is none left
        rcases append_eq_append_iff.mp (hp.symm.trans hlast) with ⟨mid, rfl, hmid⟩ | ⟨mid, hq, hmid⟩
        · cases mid with
          | nil => exact Or.inl (by rw [append_nil, String.ofList_toList])
          | cons c mid =>
            obtain ⟨rfl, -⟩ := cons.inj hmid
            exact Or.inr ⟨mid, rfl⟩
        · cases mid with
          | nil => exact Or.inl (by rw [← append_nil above, ← hq, String.ofList_toList])
          | cons c mid =>
            obtain ⟨-, rfl⟩ := cons.inj hmid
            exact absurd (mem_append_right mid mem_cons_self) hslash
  · rintro (rfl | ⟨above, hparent, habove⟩)
    · exact Or.inl rfl
    · obtain ⟨chars, hcut, rfl⟩ := map_eq_some_iff.mp hparent
      obtain ⟨last, hlast, -⟩ := eq_of_cutLast hcut
      right
      rcases habove with rfl | ⟨rest, hrest⟩
      · exact ⟨last, by rw [hlast, String.toList_ofList]⟩
      · rw [String.toList_ofList] at hrest
        exact ⟨rest ++ '/' :: last, by rw [hlast, hrest, append_assoc, cons_append]⟩

section

variable {α : Type} {get : String → Option α}

theorem nearest_self {p : String} {a : α} (h : get p = some a) : Nearest get p a :=
  ⟨p, Or.inl rfl, h, fun _ hq' _ => hq'.length_le⟩

theorem silent_of_parent {p : String} (hnone : get p = none)
    (habove : ∀ above, parentPath p = some above → Silent get above) : Silent get p := by
  intro q hq
  rcases atOrAbove_iff.mp hq with rfl | ⟨above, hparent, hq⟩
  · exact hnone
  · exact habove above hparent q hq

theorem nearest_parent {p above : String} (hnone : get p = none) (hparent : parentPath p = some above) {a : α} :
    Nearest get p a ↔ Nearest get above a := by
  -- of the paths at or above the two, only `p` makes a difference
  have hother : ∀ q, get q ≠ none → (AtOrAbove q p ↔ AtOrAbove q above) := by
    intro q hq
    rw [atOrAbove_iff]
    constructor
    · rintro (rfl | ⟨above', hparent', h⟩)
      · exact absurd hnone hq
      · obtain rfl := some_inj.mp (hparent.symm.trans hparent')
        exact h
    · exact fun h => Or.inr ⟨above, hparent, h⟩
  constructor
  · rintro ⟨q, hq, hget, hmax⟩
    refine ⟨q, (hother q (by rw [hget]; simp)).mp hq, hget, fun q' hq' hne => ?_⟩
    exact hmax q' ((hother q' hne).mpr hq') hne
  · rintro ⟨q, hq, hget, hmax⟩
    refine ⟨q, (hother q (by rw [hget]; simp)).mpr hq, hget, fun q' hq' hne => ?_⟩
    exact hmax q' ((hother q' hne).mp hq') hne

theorem upward_eq_some {p : String} {a : α} : upward get p = some a ↔ Nearest get p a := by
  fun_induction upward get p with
  | case1 p b hget =>
    constructor
    · intro h
      obtain rfl := some_inj.mp h
      exact nearest_self hget
    · rintro ⟨q, hq, hqget, hmax⟩
      -- the path itself has an entry, so none above it is nearer
      have hlen := hmax p (Or.inl rfl) (by rw [hget]; simp)
      rcases hq with rfl | ⟨rest, hp⟩
      · exact hget.symm.trans hqget
      · rw [hp, length_append, length_cons] at hlen
        omega
  | case2 p hnone above hparent ih => exact ih.trans (nearest_parent hnone hparent).symm
  | case3 p hnone hparent =>
    constructor
    · intro h
      cases h
    · rintro ⟨q, hq, hqget, -⟩
      rcases atOrAbove_iff.mp hq with rfl | ⟨above, hparent', -⟩
      · rw [hnone] at hqget
        cases hqget
      · rw [hparent] at hparent'
        cases hparent'

theorem upward_eq_none {p : String} : upward get p = none ↔ Silent get p := by
  fun_induction upward get p with
  | case1 p b hget =>
    constructor
    · intro h
      cases h
    · intro h
      rw [h p (Or.inl rfl)] at hget
      cases hget
  | case2 p hnone above hparent ih =>
    rw [ih]
    constructor
    · exact fun h => silent_of_parent hnone fun above' hparent' => some_inj.mp (hparent.symm.trans hparent') ▸ h
    · exact fun h q hq => h q (atOrAbove_iff.mpr (Or.inr ⟨above, hparent, hq⟩))
  | case3 p hnone hparent =>
    refine ⟨fun _ q hq => ?_, fun _ => rfl⟩
    rcases atOrAbove_iff.mp hq with rfl | ⟨above, hparent', -⟩
    · exact hnone
    · rw [hparent] at hparent'
      cases hparent'

end

end Upward

/-! ### Pruning -/

/-- Whether a path is returned, where the request says so; `IndexMap<String, bool>`. -/
abbrev ReturnFields := SortedMap String Bool

def IndexPolicy.hasHiddenFields (p : IndexPolicy) : Bool := p.indexedFields.any fun f => !f.list

/-- What `project_document` returns. -/
inductive DocumentOut where
  | raw (source : ByteSeq)
  | json (value : Json)

def DocumentOut.value (parse : ByteSeq → Except String Json) : DocumentOut → Except String Json
  | .raw source => parse source
  | .json value => .ok value

namespace DocumentProjection

open Upward List

def joinPath (parent key : String) : String := if parent = "" then key else s!"{parent}/{key}"

def lookupUp (map : ReturnFields) (path : String) : Option Bool := upward map.get? path

def topList (policy : IndexPolicy) (name : String) : Option Bool :=
  (policy.fields.find? fun f => f.name = name).map FieldPolicy.list

def policyList (policy : IndexPolicy) (path : String) : Option Bool := upward (topList policy) path

def includePath (returnFields : Option ReturnFields) (policy : IndexPolicy) (path : String) : Bool :=
  match returnFields.bind fun rf => lookupUp rf path with
  | some wanted => wanted
  | none =>
    match policyList policy path with
    | some list => list
    | none => true

variable (returnFields : Option ReturnFields) (policy : IndexPolicy)

/-- The closure of `obj.retain`. -/
def retain (parent : String) (entries : List (String × Json)) : List (String × Json) :=
  entries.filter fun e => includePath returnFields policy (joinPath parent e.1)

theorem retain_cons (parent key : String) (child : Json) (entries : List (String × Json)) :
    retain returnFields policy parent ((key, child) :: entries) =
      if includePath returnFields policy (joinPath parent key) = true then
        (key, child) :: retain returnFields policy parent entries
      else retain returnFields policy parent entries :=
  filter_cons

mutual

def prune (parent : String) : Json → Json
  | .null => .null
  | .bool b => .bool b
  | .number n => .number n
  | .string s => .string s
  | .array items => .array (pruneItems parent items)
  | .object entries => .object (retain returnFields policy parent (pruneEntries parent entries))

def pruneItems (parent : String) : List Json → List Json
  | [] => []
  | item :: items => prune parent item :: pruneItems parent items

def pruneEntries (parent : String) : List (String × Json) → List (String × Json)
  | [] => []
  | (key, child) :: entries => (key, prune (joinPath parent key) child) :: pruneEntries parent entries

end

/-- `project_document`; `parse` is the parser of the stored text, with the text of its errors. -/
def projectDocument (parse : ByteSeq → Except String Json) (source : ByteSeq) : Except String DocumentOut :=
  if returnFields = none ∧ policy.hasHiddenFields = false then .ok (.raw source)
  else if source = [] then .ok (.json (.object []))
  else
    match parse source with
    | .ok value => .ok (.json (prune returnFields policy "" value))
    | .error e => .error s!"stored document is not valid JSON: {e}"

/-! ### Leaves -/

inductive Step where
  | key (name : String)
  | index (i : ℕ)

mutual

/-- The values that are neither objects nor arrays, and where they stand. -/
def leaves : Json → List (List Step × Json)
  | .null => [([], .null)]
  | .bool b => [([], .bool b)]
  | .number n => [([], .number n)]
  | .string s => [([], .string s)]
  | .array items => leavesOfItems 0 items
  | .object entries => leavesOfEntries entries

def leavesOfItems (i : ℕ) : List Json → List (List Step × Json)
  | [] => []
  | item :: items => (leaves item).map (fun l => (.index i :: l.1, l.2)) ++ leavesOfItems (i + 1) items

def leavesOfEntries : List (String × Json) → List (List Step × Json)
  | [] => []
  | (key, child) :: entries => (leaves child).map (fun l => (.key key :: l.1, l.2)) ++ leavesOfEntries entries

end

def keysOn (parent : String) : List Step → List String
  | [] => []
  | .key name :: steps => joinPath parent name :: keysOn (joinPath parent name) steps
  | .index _ :: steps => keysOn parent steps

def pathOf (parent : String) : List Step → String
  | [] => parent
  | .key name :: steps => pathOf (joinPath parent name) steps
  | .index _ :: steps => pathOf parent steps

def kept (parent : String) (place : List Step) : Bool :=
  (keysOn parent place).all (includePath returnFields policy)

mutual

theorem leaves_prune (parent : String) : ∀ value : Json,
    leaves (prune returnFields policy parent value) = (leaves value).filter fun l => kept returnFields policy parent l.1
  | .null => rfl
  | .bool _ => rfl
  | .number _ => rfl
  | .string _ => rfl
  | .array items => by
    rw [prune, leaves, leaves, leavesOfItems_prune parent 0 items]
  | .object entries => by
    rw [prune, leaves, leaves, leavesOfEntries_prune parent entries]

theorem leavesOfItems_prune (parent : String) (i : ℕ) : ∀ items : List Json,
    leavesOfItems i (pruneItems returnFields policy parent items) =
      (leavesOfItems i items).filter fun l => kept returnFields policy parent l.1
  | [] => rfl
  | item :: items => by
    rw [pruneItems, leavesOfItems, leavesOfItems, leaves_prune parent item, leavesOfItems_prune parent (i + 1) items,
      filter_append, filter_map]
    rfl

theorem leavesOfEntries_prune (parent : String) : ∀ entries : List (String × Json),
    leavesOfEntries (retain returnFields policy parent (pruneEntries returnFields policy parent entries)) =
      (leavesOfEntries entries).filter fun l => kept returnFields policy parent l.1
  | [] => rfl
  | (key, child) :: entries => by
    have hchild : ((leaves child).map fun l => (Step.key key :: l.1, l.2)).filter
        (fun l => kept returnFields policy parent l.1) =
          if includePath returnFields policy (joinPath parent key) = true then
            ((leaves child).filter fun l => kept returnFields policy (joinPath parent key) l.1).map
              fun l => (Step.key key :: l.1, l.2)
          else [] := by
      rw [filter_map]
      split_ifs with hinc
      · congr 1
        refine filter_congr fun l _ => ?_
        simp [kept, keysOn, hinc]
      · rw [filter_eq_nil_iff.mpr, map_nil]
        intro l _
        simp [kept, keysOn, hinc]
    rw [pruneEntries, leavesOfEntries, filter_append, hchild, retain_cons]
    split_ifs with hinc
    · rw [leavesOfEntries, leaves_prune (joinPath parent key) child, leavesOfEntries_prune parent entries]
    · rw [nil_append, leavesOfEntries_prune parent entries]

end

mutual

theorem prune_prune (parent : String) : ∀ value : Json,
    prune returnFields policy parent (prune returnFields policy parent value) = prune returnFields policy parent value
  | .null => rfl
  | .bool _ => rfl
  | .number _ => rfl
  | .string _ => rfl
  | .array items => by
    rw [prune, prune, pruneItems_prune parent items]
  | .object entries => by
    rw [prune, prune, pruneEntries_prune parent entries]

theorem pruneItems_prune (parent : String) : ∀ items : List Json,
    pruneItems returnFields policy parent (pruneItems returnFields policy parent items) =
      pruneItems returnFields policy parent items
  | [] => rfl
  | item :: items => by
    rw [pruneItems, pruneItems, prune_prune parent item, pruneItems_prune parent items]

theorem pruneEntries_prune (parent : String) : ∀ entries : List (String × Json),
    retain returnFields policy parent
        (pruneEntries returnFields policy parent
          (retain returnFields policy parent (pruneEntries returnFields policy parent entries))) =
      retain returnFields policy parent (pruneEntries returnFields policy parent entries)
  | [] => rfl
  | (key, child) :: entries => by
    rw [pruneEntries, retain_cons]
    split_ifs with hinc
    · rw [pruneEntries, retain_cons, if_pos hinc, prune_prune (joinPath parent key) child,
        pruneEntries_prune parent entries]
    · exact pruneEntries_prune parent entries

end

/-! ### What the settings ask for -/

def requested (path : String) : Option Bool := returnFields.bind fun rf => rf.get? path

mutual

/-- The flags of a field and of all fields below it, by the paths their names join to. -/
def flags (above : String) : FieldPolicy → List (String × Bool)
  | ⟨name, kind, _, list, _, _, _, subfields, _, _, _, _, _⟩ =>
    (pathBelow above name, list) :: if kind = .struct then flagsOf (pathBelow above name) subfields else []

def flagsOf (above : String) : List FieldPolicy → List (String × Bool)
  | [] => []
  | f :: fs => flags above f ++ flagsOf above fs

end

def listed (path : String) : Option Bool :=
  ((flagsOf "" policy.fields).find? fun flag => flag.1 = path).map Prod.snd

/-- A path is wanted when the nearest entry of the request says so; without one, when the nearest
field of the policy is listed, or there is no such field. -/
def Wanted (path : String) : Prop :=
  Nearest (requested returnFields) path true ∨
    Silent (requested returnFields) path ∧ (Nearest (listed policy) path true ∨ Silent (listed policy) path)

def ReturnedRaw : Prop := returnFields = none ∧ policy.hasHiddenFields = false

/-- The nearest field and the nearest top-level field of the policy have the same flag. -/
def FlagsAgree (path : String) : Prop := ∀ a, Nearest (listed policy) path a ↔ Nearest (topList policy) path a

/-- What the settings say fits together at the leaves of the document. -/
structure Settled (doc : Json) : Prop where
  shown : ReturnedRaw returnFields policy → ∀ l ∈ leaves doc, ¬ Nearest (listed policy) (pathOf "" l.1) false
  agree : ¬ ReturnedRaw returnFields policy → ∀ l ∈ leaves doc, ∀ path ∈ keysOn "" l.1,
    Silent (requested returnFields) path → FlagsAgree policy path
  /-- what is wanted is not below something that is not -/
  below : ¬ ReturnedRaw returnFields policy → ∀ l ∈ leaves doc, Wanted returnFields policy (pathOf "" l.1) →
    ∀ path ∈ keysOn "" l.1, Wanted returnFields policy path
  root : ¬ ReturnedRaw returnFields policy → ∀ l ∈ leaves doc, keysOn "" l.1 = [] → Wanted returnFields policy ""

/-- The leaves of the result are the leaves of the document that are wanted, with their values. -/
def ReturnsWanted (doc result : Json) : Prop :=
  ∀ place leaf, (place, leaf) ∈ leaves result ↔
    (place, leaf) ∈ leaves doc ∧ Wanted returnFields policy (pathOf "" place)

/-- Projecting a document that was stored as this value returns the value. -/
def Stable (parse : ByteSeq → Except String Json) (result : Json) : Prop :=
  ∀ source, parse source = .ok result → ∃ out, projectDocument returnFields policy parse source = .ok out ∧
    out.value parse = .ok result

variable {returnFields : Option ReturnFields} {policy : IndexPolicy}

variable {path : String}

theorem nearest_unique {get : String → Option Bool} {a b : Bool} (ha : Nearest get path a)
    (hb : Nearest get path b) : a = b :=
  Option.some_inj.mp ((upward_eq_some.mpr ha).symm.trans (upward_eq_some.mpr hb))

theorem nearest_or_silent (get : String → Option Bool) (path : String) :
    Nearest get path true ∨ Nearest get path false ∨ Silent get path := by
  cases h : upward get path with
  | none => exact Or.inr (Or.inr (upward_eq_none.mp h))
  | some a =>
    cases a with
    | true => exact Or.inl (upward_eq_some.mp h)
    | false => exact Or.inr (Or.inl (upward_eq_some.mp h))

theorem not_silent_of_nearest {get : String → Option Bool} {a : Bool} (h : Nearest get path a) :
    ¬ Silent get path := by
  intro hsilent
  rw [← upward_eq_none, upward_eq_some.mpr h] at hsilent
  cases hsilent

theorem upward_requested (path : String) :
    (returnFields.bind fun rf => lookupUp rf path) = upward (requested returnFields) path := by
  cases returnFields with
  | none => exact (upward_eq_none.mpr fun _ _ => rfl).symm
  | some rf => rfl

theorem wanted_or (path : String) :
    Wanted returnFields policy path ∨
      (Silent (requested returnFields) path ∧ Nearest (listed policy) path false) ∨
        Nearest (requested returnFields) path false := by
  rcases nearest_or_silent (requested returnFields) path with htrue | hfalse | hsilent
  · exact Or.inl (Or.inl htrue)
  · exact Or.inr (Or.inr hfalse)
  · rcases nearest_or_silent (listed policy) path with htrue | hfalse | hnone
    · exact Or.inl (Or.inr ⟨hsilent, Or.inl htrue⟩)
    · exact Or.inr (Or.inl ⟨hsilent, hfalse⟩)
    · exact Or.inl (Or.inr ⟨hsilent, Or.inr hnone⟩)

theorem not_wanted_of_requested (h : Nearest (requested returnFields) path false) :
    ¬ Wanted returnFields policy path := by
  rintro (htrue | ⟨hsilent, -⟩)
  · cases nearest_unique h htrue
  · exact not_silent_of_nearest h hsilent

theorem not_wanted_of_hidden (hsilent : Silent (requested returnFields) path)
    (h : Nearest (listed policy) path false) : ¬ Wanted returnFields policy path := by
  rintro (htrue | ⟨-, htrue | hnone⟩)
  · exact not_silent_of_nearest htrue hsilent
  · cases nearest_unique h htrue
  · exact not_silent_of_nearest h hnone

theorem pathOf_mem (parent : String) (place : List Step) :
    (keysOn parent place = [] ∧ pathOf parent place = parent) ∨ pathOf parent place ∈ keysOn parent place := by
  induction place generalizing parent with
  | nil => exact Or.inl ⟨rfl, rfl⟩
  | cons step place ih =>
    cases step with
    | index i => exact ih parent
    | key name =>
      right
      rw [pathOf, keysOn]
      rcases ih (joinPath parent name) with ⟨-, hpath⟩ | hmem
      · rw [hpath]
        exact mem_cons_self
      · exact mem_cons_of_mem _ hmem

theorem kept_iff {parent : String} {place : List Step} :
    kept returnFields policy parent place = true ↔
      ∀ path ∈ keysOn parent place, includePath returnFields policy path = true :=
  all_eq_true

theorem includePath_iff (hagree : Silent (requested returnFields) path → FlagsAgree policy path) :
    includePath returnFields policy path = true ↔ Wanted returnFields policy path := by
  rw [includePath, upward_requested, policyList]
  rcases nearest_or_silent (requested returnFields) path with htrue | hfalse | hsilent
  · simp only [upward_eq_some.mpr htrue, true_iff]
    exact Or.inl htrue
  · simp only [upward_eq_some.mpr hfalse, Bool.false_eq_true, false_iff]
    exact not_wanted_of_requested hfalse
  · rw [upward_eq_none.mpr hsilent]
    have hflags := hagree hsilent
    rcases nearest_or_silent (topList policy) path with htop | htop | htop
    · simp only [upward_eq_some.mpr htop, true_iff]
      exact Or.inr ⟨hsilent, Or.inl ((hflags true).mpr htop)⟩
    · simp only [upward_eq_some.mpr htop, Bool.false_eq_true, false_iff]
      exact not_wanted_of_hidden hsilent ((hflags false).mpr htop)
    · simp only [upward_eq_none.mpr htop, true_iff]
      -- no top-level field decides, so none at any depth does
      refine Or.inr ⟨hsilent, Or.inr ?_⟩
      rcases nearest_or_silent (listed policy) path with hlisted | hlisted | hlisted
      · exact absurd htop (not_silent_of_nearest ((hflags true).mp hlisted))
      · exact absurd htop (not_silent_of_nearest ((hflags false).mp hlisted))
      · exact hlisted

theorem Settled.kept_iff_wanted {doc : Json} (h : Settled returnFields policy doc)
    (hraw : ¬ ReturnedRaw returnFields policy) {l : List Step × Json} (hl : l ∈ leaves doc) :
    kept returnFields policy "" l.1 = true ↔ Wanted returnFields policy (pathOf "" l.1) := by
  have hkeys : kept returnFields policy "" l.1 = true ↔ ∀ path ∈ keysOn "" l.1, Wanted returnFields policy path :=
    kept_iff.trans (forall₂_congr fun path hpath => includePath_iff (h.agree hraw l hl path hpath))
  rw [hkeys]
  refine ⟨fun hall => ?_, h.below hraw l hl⟩
  rcases pathOf_mem "" l.1 with ⟨hnone, hpath⟩ | hmem
  · rw [hpath]
    exact h.root hraw l hl hnone
  · exact hall _ hmem

theorem Settled.wanted_of_raw {doc : Json} (h : Settled returnFields policy doc)
    (hraw : ReturnedRaw returnFields policy) {l : List Step × Json} (hl : l ∈ leaves doc) :
    Wanted returnFields policy (pathOf "" l.1) := by
  rcases @wanted_or returnFields policy (pathOf "" l.1) with hwanted | ⟨-, hfalse⟩ | hfalse
  · exact hwanted
  · exact absurd hfalse (h.shown hraw l hl)
  · refine absurd (fun q _ => ?_) (not_silent_of_nearest hfalse)
    rw [requested, hraw.1]
    rfl

variable {parse : ByteSeq → Except String Json} {source : ByteSeq} {doc : Json}

theorem projectDocument_of_raw (hraw : ReturnedRaw returnFields policy) :
    projectDocument returnFields policy parse source = .ok (.raw source) := if_pos hraw

theorem projectDocument_of_pruned (hempty : ∀ value, parse [] ≠ .ok value)
    (hraw : ¬ ReturnedRaw returnFields policy) (hparse : parse source = .ok doc) :
    projectDocument returnFields policy parse source = .ok (.json (prune returnFields policy "" doc)) := by
  have hsource : source ≠ [] := by
    rintro rfl
    exact hempty doc hparse
  rw [projectDocument, if_neg (by exact hraw), if_neg hsource, hparse]

theorem stable_prune (hempty : ∀ value, parse [] ≠ .ok value) (hraw : ¬ ReturnedRaw returnFields policy) :
    Stable returnFields policy parse (prune returnFields policy "" doc) := by
  intro source hparse
  refine ⟨_, projectDocument_of_pruned hempty hraw hparse, ?_⟩
  rw [DocumentOut.value, prune_prune]

theorem returnsWanted_prune_iff :
    ReturnsWanted returnFields policy doc (prune returnFields policy "" doc) ↔
      ∀ l ∈ leaves doc, kept returnFields policy "" l.1 = true ↔ Wanted returnFields policy (pathOf "" l.1) := by
  rw [ReturnsWanted, leaves_prune]
  simp only [mem_filter]
  constructor
  · intro h l hl
    have hl' := h l.1 l.2
    exact ⟨fun hkept => (hl'.mp ⟨hl, hkept⟩).2, fun hwanted => (hl'.mpr ⟨hl, hwanted⟩).2⟩
  · intro h place leaf
    exact and_congr_right fun hl => h (place, leaf) hl

/-- Where the settings fit together at the leaves of the document, projection returns the leaves that
are wanted, and projecting again changes nothing. -/
theorem projection_exact (hempty : ∀ value, parse [] ≠ .ok value) (hparse : parse source = .ok doc)
    (hsettled : Settled returnFields policy doc) :
    ∃ out result, projectDocument returnFields policy parse source = .ok out ∧ out.value parse = .ok result ∧
      ReturnsWanted returnFields policy doc result ∧ Stable returnFields policy parse result := by
  by_cases hraw : ReturnedRaw returnFields policy
  · -- without anything hidden the document is returned as it is, however often
    refine ⟨_, doc, projectDocument_of_raw hraw, hparse, fun place leaf => ?_, fun again hagain =>
      ⟨_, projectDocument_of_raw hraw, hagain⟩⟩
    exact ⟨fun hl => ⟨hl, hsettled.wanted_of_raw hraw hl⟩, And.left⟩
  · refine ⟨_, _, projectDocument_of_pruned hempty hraw hparse, rfl, ?_, stable_prune hempty hraw⟩
    exact returnsWanted_prune_iff.mpr fun l hl => hsettled.kept_iff_wanted hraw hl

def authorText : ByteSeq := utf8 "\x7b\"author\":\x7b\"email\":\"e\",\"name\":\"n\"\x7d\x7d"

def author : Json := .object [("author", .object [("email", .string "e"), ("name", .string "n")])]

def parseAuthor (bytes : ByteSeq) : Except String Json := if bytes = authorText then .ok author else .error "Eof"

theorem parseAuthor_text : parseAuthor authorText = .ok author := if_pos rfl

theorem parseAuthor_nil (value : Json) : parseAuthor [] ≠ .ok value := by
  rw [parseAuthor, if_neg (by decide)]
  intro h
  cases h

def withoutEmail : ReturnFields := SortedMap.empty.insert "author/email" false

def listedAuthor : IndexPolicy :=
  .new .empty [{ FieldPolicy.new "author" .struct with subfields := [.new "email" .text, .new "name" .text] }]

theorem flagsAgree_of_nearest {a : Bool} (hlisted : Nearest (listed policy) path a)
    (htop : Nearest (topList policy) path a) : FlagsAgree policy path :=
  fun _ => ⟨fun h => nearest_unique hlisted h ▸ htop, fun h => nearest_unique htop h ▸ hlisted⟩

/-- The struct and its fields are listed, and the request leaves one of them out. -/
theorem projection_exact_author :
    ∃ out result, projectDocument (some withoutEmail) listedAuthor parseAuthor authorText = .ok out ∧
      out.value parseAuthor = .ok result ∧ ReturnsWanted (some withoutEmail) listedAuthor author result ∧
        Stable (some withoutEmail) listedAuthor parseAuthor result := by
  have hemail : Nearest (requested (some withoutEmail)) "author/email" false := nearest_self rfl
  have hauthor : Nearest (topList listedAuthor) "author" true := nearest_self rfl
  have hagree : ∀ path ∈ ["author", "author/name"], FlagsAgree listedAuthor path := by
    rw [forall_mem_cons, forall_mem_singleton]
    exact ⟨flagsAgree_of_nearest (nearest_self rfl) hauthor,
      flagsAgree_of_nearest (nearest_self rfl) ((nearest_parent rfl (by decide)).mpr hauthor)⟩
  have hsilent : Silent (requested (some withoutEmail)) "author" :=
    silent_of_parent rfl fun above h => by
      rw [show parentPath "author" = none by decide] at h
      cases h
  have hwanted : Wanted (some withoutEmail) listedAuthor "author" :=
    Or.inr ⟨hsilent, Or.inl (nearest_self rfl)⟩
  have hname : Wanted (some withoutEmail) listedAuthor "author/name" :=
    Or.inr ⟨silent_of_parent rfl fun above h => Option.some_inj.mp
      ((show parentPath "author/name" = some "author" by decide).symm.trans h) ▸ hsilent, Or.inl (nearest_self rfl)⟩
  have hleaves : leaves author = [([.key "author", .key "email"], .string "e"),
    ([.key "author", .key "name"], .string "n")] := rfl
  have hraw : ¬ ReturnedRaw (some withoutEmail) listedAuthor := fun h => by cases h.1
  refine projection_exact parseAuthor_nil parseAuthor_text ⟨fun h => absurd h hraw, fun _ => ?_, fun _ => ?_, fun _ => ?_⟩
  all_goals rw [hleaves, forall_mem_cons, forall_mem_singleton]
  · refine ⟨fun path hpath hquiet => ?_, fun path hpath _ => hagree path hpath⟩
    rcases mem_cons.mp hpath with rfl | hpath
    · exact hagree _ mem_cons_self
    · rw [mem_singleton.mp hpath] at hquiet
      exact absurd hquiet (not_silent_of_nearest hemail)
  · refine ⟨fun h => absurd h (not_wanted_of_requested hemail), fun _ path hpath => ?_⟩
    rcases mem_cons.mp hpath with rfl | hpath
    · exact hwanted
    · rw [mem_singleton.mp hpath]
      exact hname
  · exact ⟨fun hkeys => absurd hkeys (cons_ne_nil _ _), fun hkeys => absurd hkeys (cons_ne_nil _ _)⟩

def hiddenEmail : IndexPolicy :=
  .new .empty [{ FieldPolicy.new "author" .struct with
    subfields := [{ FieldPolicy.new "email" .text with list := false }, .new "name" .text] }]

/-- A field that a struct hides is returned. -/
theorem hidden_returned :
    ∃ result, projectDocument none hiddenEmail parseAuthor authorText = .ok (.json result) ∧
      ¬ ReturnsWanted none hiddenEmail author result := by
  have hraw : ¬ ReturnedRaw none hiddenEmail := fun h => absurd h.2 (by decide)
  refine ⟨_, projectDocument_of_pruned parseAuthor_nil hraw parseAuthor_text, fun h => ?_⟩
  rw [returnsWanted_prune_iff] at h
  have hsilent : Silent (requested none) "author/email" := fun _ _ => rfl
  have hhidden : Nearest (listed hiddenEmail) "author/email" false := nearest_self rfl
  have hauthor : Nearest (topList hiddenEmail) "author" true := nearest_self rfl
  have hemail : Nearest (topList hiddenEmail) "author/email" true := (nearest_parent rfl (by decide)).mpr hauthor
  refine not_wanted_of_hidden hsilent hhidden ((h ([.key "author", .key "email"], .string "e") mem_cons_self).mp ?_)
  rw [kept_iff]
  intro path hpath
  have hnone : ∀ path, Nearest (topList hiddenEmail) path true → includePath none hiddenEmail path = true := by
    intro path hpath
    rw [includePath, policyList, upward_eq_some.mpr hpath]
    rfl
  rcases mem_cons.mp hpath with rfl | hpath
  · exact hnone _ hauthor
  · rw [mem_singleton.mp hpath]
    exact hnone _ hemail

end DocumentProjection
