/-
A trie whose nodes stand in a list.

A node knows its children by their places in the list; the root is the first node.
`Labelled` gives every node the path to it: the nodes are the places of distinct paths,
the children of a node those of the paths one key longer, and its values those inserted
there.
-/
import Mathlib.Data.List.Nodup
import Riets.Fallible

namespace WordTrie

open List Fallible Option Nat

variable {α β : Type} [DecidableEq α]

theorem getElem?_concat_iff {γ : Type} (l : List γ) (a b : γ) (j : ℕ) :
    (l ++ [a])[j]? = some b ↔ l[j]? = some b ∨ j = l.length ∧ b = a := by
  grind

theorem getElem?_set_cases {γ : Type} {l : List γ} {i j : ℕ} {a b : γ}
    (h : (l.set i a)[j]? = some b) : j = i ∧ b = a ∨ j ≠ i ∧ l[j]? = some b := by
  grind

/-- A node: the numbers of its children, and the values that end here. -/
structure TrieNode (α β : Type) where
  children : List (α × ℕ)
  terminals : List β

/-- The node that a key leads to. -/
def child (nodes : List (TrieNode α β)) (node : ℕ) (key : α) : Fallible (Option ℕ) := do
  let parent ← Fallible.index nodes node
  return parent.children.lookup key

/-- The child under a key, made when there is none. -/
def descend (nodes : List (TrieNode α β)) (node : ℕ) (key : α) :
    Fallible (List (TrieNode α β) × ℕ) := do
  let existing ← child nodes node key
  match existing with
  | some next => .ok (nodes, next)
  | none => do
    let id := nodes.length
    let pushed := nodes ++ [⟨[], []⟩]
    let parent ← Fallible.index pushed node
    let linked ← setAt pushed node { parent with children := (key, id) :: parent.children }
    return (linked, id)

/-- The value is put at the end of its path. -/
def insert (nodes : List (TrieNode α β)) (path : List α) (value : β) :
    Fallible (List (TrieNode α β)) := do
  let (nodes, node) ← path.foldlM (fun state key => descend state.1 state.2 key) (nodes, 0)
  let last ← Fallible.index nodes node
  setAt nodes node { last with terminals := last.terminals ++ [value] }

/-- All entries in one trie, whose root is node 0. -/
def build (entries : List (List α × β)) : Fallible (List (TrieNode α β)) :=
  entries.foldlM (fun nodes entry => insert nodes entry.1 entry.2) [⟨[], []⟩]

/-- Each node has a path of its own, and holds the entries of this path. -/
structure Labelled (nodes : List (TrieNode α β)) (paths : List (List α)) (entries : List (List α × β)) :
    Prop where
  length : paths.length = nodes.length
  root : paths[0]? = some []
  nodup : paths.Nodup
  closed : ∀ p k, p ++ [k] ∈ paths → p ∈ paths
  children : ∀ (i : ℕ) (node : TrieNode α β) (p : List α), nodes[i]? = some node →
    paths[i]? = some p → ∀ k j, node.children.lookup k = some j ↔ paths[j]? = some (p ++ [k])
  terminals : ∀ (i : ℕ) (node : TrieNode α β) (p : List α), nodes[i]? = some node →
    paths[i]? = some p → node.terminals = (entries.filter fun e => e.1 = p).map Prod.snd
  present : ∀ e ∈ entries, e.1 ∈ paths

variable {nodes : List (TrieNode α β)} {paths : List (List α)} {entries : List (List α × β)}

namespace Labelled

variable {i : ℕ} {p : List α}

section

variable (h : Labelled nodes paths entries)
include h

theorem node (hp : paths[i]? = some p) :
    ∃ node, nodes[i]? = some node := by
  have hi := (List.getElem?_eq_some_iff.1 hp).1
  rw [h.length] at hi
  exact ⟨_, getElem?_eq_getElem hi⟩

theorem index_eq {j : ℕ} (hi : paths[i]? = some p)
    (hj : paths[j]? = some p) : i = j :=
  (getElem?_inj (List.getElem?_eq_some_iff.1 hi).1 h.nodup).1 (hi.trans hj.symm)

theorem of_append (q : List α) (hq : p ++ q ∈ paths) :
    p ∈ paths := by
  induction q using reverseRecOn with
  | nil => rwa [append_nil] at hq
  | append_singleton q k ih =>
    rw [← append_assoc] at hq
    exact ih (h.closed _ k hq)

theorem child_eq (hp : paths[i]? = some p)
    (key : α) : ∃ next, child nodes i key = .ok next ∧
      ∀ j, next = some j ↔ paths[j]? = some (p ++ [key]) := by
  obtain ⟨parent, hparent⟩ := h.node hp
  refine ⟨parent.children.lookup key, ?_, h.children i parent p hparent hp key⟩
  rw [child, index_of_some hparent]
  rfl

theorem no_entry {key : α}
    (hnone : ∀ j : ℕ, paths[j]? ≠ some (p ++ [key])) {e : List α × β} (he : e ∈ entries) (q : List α) :
    e.1 ≠ p ++ key :: q := by
  intro heq
  have hmem := h.present e he
  rw [heq, append_cons] at hmem
  obtain ⟨j, hj⟩ := mem_iff_getElem?.1 (h.of_append q hmem)
  exact hnone j hj

theorem grow {parent : TrieNode α β}
    (hp : paths[i]? = some p) (hparent : nodes[i]? = some parent) {key : α} (hnew : p ++ [key] ∉ paths) :
    Labelled ((nodes ++ [(⟨[], []⟩ : TrieNode α β)]).set i { parent with children := (key, nodes.length) :: parent.children })
      (paths ++ [p ++ [key]]) entries := by
  have hpaths : ∀ (j : ℕ) q, (paths ++ [p ++ [key]])[j]? = some q ↔
      paths[j]? = some q ∨ j = nodes.length ∧ q = p ++ [key] := by
    intro j q
    rw [getElem?_concat_iff, h.length]
  have hnodes : ∀ (j : ℕ) (node : TrieNode α β),
      ((nodes ++ [(⟨[], []⟩ : TrieNode α β)]).set i { parent with children := (key, nodes.length) :: parent.children })[j]? =
        some node →
      j = i ∧ node = { parent with children := (key, nodes.length) :: parent.children } ∨
        j ≠ i ∧ nodes[j]? = some node ∨ j = nodes.length ∧ node = ⟨[], []⟩ := by
    intro j node hnode
    obtain hset | ⟨hj, hpushed⟩ := getElem?_set_cases hnode
    · exact Or.inl hset
    · obtain hold | hlast := (getElem?_concat_iff _ _ _ j).1 hpushed
      · exact Or.inr (Or.inl ⟨hj, hold⟩)
      · exact Or.inr (Or.inr hlast)
  have hi : i < nodes.length := (List.getElem?_eq_some_iff.1 hparent).1
  have hout : ∀ q : List α, paths[nodes.length]? ≠ some q := by
    intro q hq
    have hlt := (List.getElem?_eq_some_iff.1 hq).1
    have hlen := h.length
    omega
  refine ⟨?_, ?_, ?_, ?_, ?_, ?_, ?_⟩
  · rw [length_append, length_set, length_append, h.length]
    rfl
  · exact (hpaths 0 []).2 (Or.inl h.root)
  · rw [nodup_append]
    refine ⟨h.nodup, nodup_singleton _, fun q hq r hr heq => ?_⟩
    rw [heq, mem_singleton.1 hr] at hq
    exact hnew hq
  · intro q k hq
    rw [mem_append]
    obtain hq | hq := mem_append.1 hq
    · exact Or.inl (h.closed q k hq)
    · obtain ⟨rfl, -⟩ := append_inj' (mem_singleton.1 hq) rfl
      exact Or.inl (mem_of_getElem? hp)
  · intro j node q hnode hq k next
    obtain ⟨rfl, rfl⟩ | ⟨hj, hnode⟩ | ⟨rfl, rfl⟩ := hnodes j node hnode
    · -- the parent
      have hqp : q = p := by
        obtain hq | ⟨hj, -⟩ := (hpaths j q).1 hq
        · exact some_inj.1 (hq.symm.trans hp)
        · omega
      rw [hqp, hpaths, ← h.children j parent p hparent hp k next, lookup_cons]
      by_cases hk : k = key
      · rw [hk, beq_self_eq_true]
        constructor
        · intro hnext
          exact Or.inr ⟨(some_inj.1 hnext).symm, rfl⟩
        · rintro (hnext | ⟨rfl, -⟩)
          · have hmem := mem_of_getElem? ((h.children j parent p hparent hp key next).1 hnext)
            exact absurd hmem hnew
          · rfl
      · rw [beq_false_of_ne hk]
        constructor
        · exact Or.inl
        · rintro (hnext | ⟨-, heq⟩)
          · exact hnext
          · obtain ⟨-, hkey⟩ := append_inj' heq rfl
            exact absurd (cons_eq_cons.1 hkey).1 hk
    · -- the other nodes
      have hq' : paths[j]? = some q := by
        obtain hq | ⟨rfl, -⟩ := (hpaths j q).1 hq
        · exact hq
        · rw [getElem?_eq_none le_rfl] at hnode
          cases hnode
      rw [hpaths, ← h.children j node q hnode hq' k next]
      constructor
      · exact Or.inl
      · rintro (hnext | ⟨-, heq⟩)
        · exact hnext
        · obtain ⟨rfl, -⟩ := append_inj' heq rfl
          exact absurd (h.index_eq hq' hp) hj
    · -- the new node
      have hqp : q = p ++ [key] := by
        obtain hq | ⟨-, hq⟩ := (hpaths nodes.length q).1 hq
        · exact absurd hq (hout q)
        · exact hq
      rw [hpaths, hqp]
      constructor
      · intro hnext
        cases hnext
      · rintro (hnext | ⟨-, heq⟩)
        · exact absurd (h.closed _ k (mem_of_getElem? hnext)) hnew
        · have hlen := congrArg List.length heq
          rw [length_append, length_singleton] at hlen
          omega
  · intro j node q hnode hq
    obtain ⟨rfl, rfl⟩ | ⟨hj, hnode⟩ | ⟨rfl, rfl⟩ := hnodes j node hnode
    · obtain hq | ⟨hj, -⟩ := (hpaths j q).1 hq
      · exact h.terminals j parent q hparent hq
      · omega
    · obtain hq | ⟨rfl, -⟩ := (hpaths j q).1 hq
      · exact h.terminals j node q hnode hq
      · rw [getElem?_eq_none le_rfl] at hnode
        cases hnode
    · obtain hq | ⟨-, rfl⟩ := (hpaths nodes.length q).1 hq
      · exact absurd hq (hout q)
      · have hnone : (entries.filter fun e => e.1 = p ++ [key]) = [] := by
          rw [filter_eq_nil_iff]
          intro e he heq
          exact hnew (of_decide_eq_true heq ▸ h.present e he)
        rw [hnone]
        rfl
  · intro e he
    exact mem_append_left _ (h.present e he)

theorem descend_labelled
    (hp : paths[i]? = some p) (key : α) :
    ∃ nodes' paths' next, descend nodes i key = .ok (nodes', next) ∧
      Labelled nodes' paths' entries ∧ paths'[next]? = some (p ++ [key]) := by
  obtain ⟨next, hchild, hnext⟩ := h.child_eq hp key
  rw [descend, hchild, ok_bind]
  cases next with
  | some j => exact ⟨nodes, paths, j, rfl, h, (hnext j).1 rfl⟩
  | none =>
    obtain ⟨parent, hparent⟩ := h.node hp
    have hi : i < nodes.length := (List.getElem?_eq_some_iff.1 hparent).1
    have hnew : p ++ [key] ∉ paths := by
      intro hmem
      obtain ⟨j, hj⟩ := mem_iff_getElem?.1 hmem
      cases (hnext j).2 hj
    have hpushed : (nodes ++ [⟨[], []⟩])[i]? = some parent := by
      rw [getElem?_append_left hi, hparent]
    have hlen : i < (nodes ++ [(⟨[], []⟩ : TrieNode α β)]).length := by
      rw [length_append]
      exact Nat.lt_add_right _ hi
    simp only [index_of_some hpushed, ok_bind, setAt_of_lt hlen, pure_eq]
    refine ⟨_, paths ++ [p ++ [key]], nodes.length, rfl, h.grow hp hparent hnew, ?_⟩
    rw [← h.length, getElem?_append_right le_rfl, Nat.sub_self]
    rfl

theorem path_labelled (hp : paths[i]? = some p)
    (q : List α) : ∃ nodes' paths' last,
      q.foldlM (fun state key => descend state.1 state.2 key) (nodes, i) = .ok (nodes', last) ∧
        Labelled nodes' paths' entries ∧ paths'[last]? = some (p ++ q) := by
  induction q generalizing nodes paths i p with
  | nil =>
    refine ⟨nodes, paths, i, rfl, h, ?_⟩
    rw [append_nil, hp]
  | cons key q ih =>
    obtain ⟨nodes₁, paths₁, next, hdescend, h₁, hnext⟩ := h.descend_labelled hp key
    obtain ⟨nodes₂, paths₂, last, hfold, h₂, hlast⟩ := ih h₁ hnext
    refine ⟨nodes₂, paths₂, last, ?_, h₂, ?_⟩
    · rw [foldlM_cons, hdescend, ok_bind, hfold]
    · rw [append_cons, hlast]

theorem push {last : TrieNode α β}
    (hp : paths[i]? = some p) (hlast : nodes[i]? = some last) (value : β) :
    Labelled (nodes.set i { last with terminals := last.terminals ++ [value] }) paths
      (entries ++ [(p, value)]) := by
  refine ⟨?_, h.root, h.nodup, h.closed, ?_, ?_, ?_⟩
  · rw [length_set, h.length]
  · intro j node q hnode hq
    obtain ⟨rfl, rfl⟩ | ⟨-, hnode⟩ := getElem?_set_cases hnode
    · exact h.children j last q hlast hq
    · exact h.children j node q hnode hq
  · intro j node q hnode hq
    rw [filter_append, map_append]
    obtain ⟨rfl, rfl⟩ | ⟨hj, hnode⟩ := getElem?_set_cases hnode
    · obtain rfl : p = q := some_inj.1 (hp.symm.trans hq)
      have hhere : ([(p, value)].filter fun e => e.1 = p) = [(p, value)] := by simp
      rw [h.terminals j last p hlast hp, hhere]
      rfl
    · have hne : p ≠ q := by
        rintro rfl
        exact hj (h.index_eq hq hp)
      rw [h.terminals j node q hnode hq, filter_cons_of_neg (by simpa using hne)]
      simp
  · intro e he
    obtain he | he := mem_append.1 he
    · exact h.present e he
    · rw [mem_singleton.1 he]
      exact mem_of_getElem? hp

theorem insert_labelled (path : List α) (value : β) :
    ∃ nodes' paths', insert nodes path value = .ok nodes' ∧
      Labelled nodes' paths' (entries ++ [(path, value)]) := by
  obtain ⟨nodes₁, paths₁, i, hfold, h₁, hi⟩ := h.path_labelled h.root path
  obtain ⟨last, hlast⟩ := h₁.node hi
  refine ⟨_, paths₁, ?_, h₁.push hi hlast value⟩
  rw [insert, hfold, ok_bind]
  simp only [index_of_some hlast, ok_bind]
  exact setAt_of_lt (List.getElem?_eq_some_iff.1 hlast).1 _

end

end Labelled

theorem root_labelled : Labelled ([⟨[], []⟩] : List (TrieNode α β)) [[]] [] := by
  refine ⟨rfl, rfl, nodup_singleton _, ?_, ?_, ?_, ?_⟩
  · intro p k hmem
    have hnil := mem_singleton.1 hmem
    simp at hnil
  · intro i node p hnode hp k j
    obtain ⟨hi, rfl⟩ : i = 0 ∧ node = ⟨[], []⟩ := by
      cases i with
      | zero => exact ⟨rfl, (some_inj.1 hnode).symm⟩
      | succ i => cases hnode
    constructor
    · intro hnone
      cases hnone
    · intro hj
      have hnil := mem_singleton.1 (mem_of_getElem? hj)
      simp at hnil
  · intro i node p hnode hp
    cases i with
    | zero =>
      obtain rfl : ⟨[], []⟩ = node := some_inj.1 hnode
      rfl
    | succ i => cases hnode
  · intro e he
    cases he

theorem build_labelled (entries : List (List α × β)) :
    ∃ nodes paths, build entries = .ok nodes ∧ Labelled nodes paths entries := by
  have hfold : ∀ (rest done : List (List α × β)) (nodes : List (TrieNode α β)) paths,
      Labelled nodes paths done → ∃ nodes' paths',
        rest.foldlM (fun nodes entry => insert nodes entry.1 entry.2) nodes = .ok nodes' ∧
          Labelled nodes' paths' (done ++ rest) := by
    intro rest
    induction rest with
    | nil =>
      intro done nodes paths h
      refine ⟨nodes, paths, rfl, ?_⟩
      rwa [append_nil]
    | cons entry rest ih =>
      intro done nodes paths h
      obtain ⟨nodes₁, paths₁, hinsert, h₁⟩ := h.insert_labelled entry.1 entry.2
      obtain ⟨nodes₂, paths₂, hrest, h₂⟩ := ih _ _ _ h₁
      refine ⟨nodes₂, paths₂, ?_, ?_⟩
      · rw [foldlM_cons, hinsert, ok_bind, hrest]
      · rwa [append_cons]
  exact hfold entries [] _ _ root_labelled

/-- The longest beginning under which something is found. -/
def longest (found : ℕ → List β) : ℕ → Option (ℕ × List β)
  | 0 => none
  | n + 1 => if (found (n + 1)).isEmpty then longest found n else some (n + 1, found (n + 1))

variable {found : ℕ → List β}

theorem longest_eq_none {n : ℕ} :
    longest found n = none ↔ ∀ len, 0 < len → len ≤ n → found len = [] := by
  induction n with
  | zero =>
    constructor
    · intro _ len hpos hle
      omega
    · intro _
      rfl
  | succ n ih =>
    rw [longest]
    constructor
    · intro h len hpos hle
      split_ifs at h with hempty
      obtain hlt | rfl := lt_or_eq_of_le hle
      · exact ih.1 h len hpos (le_of_lt_succ hlt)
      · exact isEmpty_iff.1 hempty
    · intro h
      rw [if_pos (isEmpty_iff.2 (h (n + 1) (succ_pos n) le_rfl))]
      exact ih.2 fun len hpos hle => h len hpos (le_succ_of_le hle)

theorem longest_eq_some {n len : ℕ} {l : List β}
    (h : longest found n = some (len, l)) :
    0 < len ∧ len ≤ n ∧ l = found len ∧ l ≠ [] ∧ ∀ m, len < m → m ≤ n → found m = [] := by
  induction n with
  | zero => cases h
  | succ n ih =>
    rw [longest] at h
    split_ifs at h with hempty
    · obtain ⟨hpos, hle, hl, hne, hafter⟩ := ih h
      refine ⟨hpos, le_succ_of_le hle, hl, hne, fun m hlt hm => ?_⟩
      obtain hm | rfl := lt_or_eq_of_le hm
      · exact hafter m hlt (le_of_lt_succ hm)
      · exact isEmpty_iff.1 hempty
    · cases h
      refine ⟨succ_pos n, le_rfl, rfl, fun hnil => ?_, fun m hlt hm => ?_⟩
      · exact hempty (isEmpty_iff.2 hnil)
      · omega

theorem longest_add {n : ℕ} (k : ℕ)
    (h : ∀ len, n < len → len ≤ n + k → found len = []) : longest found (n + k) = longest found n := by
  induction k with
  | zero => rfl
  | succ k ih =>
    rw [← add_assoc, longest, h (n + k + 1) (by omega) le_rfl]
    exact ih fun len hlt hle => h len hlt (by omega)

end WordTrie
