/-
The array-row tables of an index.

A row table is positional: it stores the documents and the parents of the rows
`base, base + 1, …` and no row id.  `push_row` and `merge_from` append, and that
the appended rows continue the table is only asserted in debug builds.
-/
import Riets.IndexWorker
import Riets.SearchDatabase

open List IndexAction MemIndex

/-! ### The rows of a batch -/

structure Row where
  id : ArrayRowId
  doc : DocId
  parent : Option ArrayRowId
  deriving DecidableEq, Repr

namespace Row

def stored (e : Row) : DocId × ArrayRowId := (e.doc, e.parent.getD noParentRow)

end Row

def AnalyzedArrayRow.row (docId : DocId) (row : AnalyzedArrayRow) : Row :=
  ⟨row.arrayRowId, docId, row.parent⟩

def AnalyzedDocument.rows (doc : AnalyzedDocument) : List Row :=
  doc.arrayRows.map (AnalyzedArrayRow.row doc.docId)

def rowsOf (docs : List AnalyzedDocument) : List Row := docs.flatMap AnalyzedDocument.rows

theorem rowsOf_append (docs docs' : List AnalyzedDocument) :
    rowsOf (docs ++ docs') = rowsOf docs ++ rowsOf docs' := flatMap_append

namespace ArrayRowIndex

def push (r : ArrayRowIndex) (e : Row) : ArrayRowIndex := r.pushRow e.id e.doc e.parent

def InOrder (r : ArrayRowIndex) : List Row → Prop
  | [] => True
  | e :: rest => r.IsNext e.id ∧ (r.push e).InOrder rest

instance decidableInOrder (r : ArrayRowIndex) : (l : List Row) → Decidable (r.InOrder l)
  | [] => inferInstanceAs (Decidable True)
  | e :: rest =>
    have := decidableInOrder (r.push e) rest
    inferInstanceAs (Decidable (_ ∧ _))

theorem rowAt_foldl_push_of_not_mem {r : ArrayRowIndex} {rows : List Row} (h : r.InOrder rows)
    {row : ℕ} (hrow : row ∉ rows.map Row.id) : (rows.foldl push r).rowAt row = r.rowAt row := by
  induction rows generalizing r with
  | nil => rfl
  | cons e rest ih =>
    obtain ⟨hne, hrest⟩ : row ≠ e.id ∧ row ∉ rest.map Row.id := by simpa using hrow
    rw [foldl_cons, ih h.2 hrest, push, rowAt_pushRow h.1, if_neg hne]

theorem rowAt_foldl_push {r : ArrayRowIndex} {rows : List Row} (h : r.InOrder rows)
    (hnodup : (rows.map Row.id).Nodup) {e : Row} (he : e ∈ rows) :
    (rows.foldl push r).rowAt e.id = some e.stored := by
  induction rows generalizing r with
  | nil => cases he
  | cons first rest ih =>
    obtain ⟨hfirst, hrest⟩ := nodup_cons.mp hnodup
    rcases mem_cons.mp he with rfl | he
    · rw [foldl_cons, rowAt_foldl_push_of_not_mem h.2 hfirst, push, rowAt_pushRow h.1, if_pos rfl]
      rfl
    · exact ih h.2 hrest he

end ArrayRowIndex

theorem MemIndex.ofDocuments_arrayRowIndex (docs : List AnalyzedDocument) :
    (ofDocuments docs).arrayRowIndex
      = (rowsOf docs).foldl ArrayRowIndex.push ArrayRowIndex.empty := by
  have hall : ∀ (docs : List AnalyzedDocument) (m : MemIndex),
      (docs.foldl addAnalyzedDocument m).arrayRowIndex
        = (rowsOf docs).foldl ArrayRowIndex.push m.arrayRowIndex := by
    intro docs
    induction docs with
    | nil => exact fun _ => rfl
    | cons doc docs ih =>
      intro m
      have hrows : rowsOf (doc :: docs) = doc.rows ++ rowsOf docs := flatMap_cons
      rw [foldl_cons, ih, hrows, foldl_append, addAnalyzedDocument_arrayRowIndex,
        AnalyzedDocument.rows, foldl_map]
      rfl
  exact hall docs new

/-! ### One row in one part -/

namespace Reader

open List

def Full (e : Row) (r : Reader) : Prop := r.arrayRowIndex.rowAt e.id = some e.stored

def Lacks (row : ℕ) (r : Reader) : Prop := r.arrayRowIndex.rowAt row = none

theorem findSome?_of_agree {α β : Type*} {f : α → Option β} {b : β} {l : List α}
    (hall : ∀ a ∈ l, f a = none ∨ f a = some b) (hex : ∃ a ∈ l, f a = some b) :
    l.findSome? f = some b := by
  induction l with
  | nil =>
    obtain ⟨a, ha, -⟩ := hex
    cases ha
  | cons a l ih =>
    rw [findSome?_cons]
    rcases hall a mem_cons_self with hnone | hsome
    · rw [hnone]
      refine ih (fun c hc => hall c (mem_cons_of_mem _ hc)) ?_
      obtain ⟨c, hc, hcb⟩ := hex
      rcases mem_cons.mp hc with rfl | hc
      · rw [hnone] at hcb
        cases hcb
      · exact ⟨c, hc, hcb⟩
    · rw [hsome]

variable {groups : List (List Reader)} {deleted : DeleteSet}
  (hchain : ∀ group ∈ groups, ArrayRowIndex.empty.Chain (group.map arrayRowIndex))
include hchain

theorem rowAt_gathersIn {r : Reader} {group : List Reader} (h : GathersIn groups deleted r group)
    (row : ℕ) :
    r.arrayRowIndex.rowAt row = group.findSome? fun g => g.arrayRowIndex.rowAt row := by
  obtain ⟨hgathers, rfl | hmem⟩ := h
  · exact hgathers.rowAt trivial row
  · exact hgathers.rowAt (hchain group hmem) row

theorem lacks_gathersIn {row : ℕ} (r : Reader) (group : List Reader)
    (h : GathersIn groups deleted r group) (hg : ∀ g ∈ group, g.Lacks row) : r.Lacks row := by
  rw [Lacks, rowAt_gathersIn hchain h, findSome?_eq_none_iff]
  exact hg

theorem full_gathersIn {e : Row} (r : Reader) (group : List Reader) (b : Reader)
    (rest : List Reader) (h : GathersIn groups deleted r group) (hperm : group.Perm (b :: rest))
    (hfull : b.Full e) (hrest : ∀ c ∈ rest, c.Lacks e.id) : r.Full e := by
  rw [Full, rowAt_gathersIn hchain h]
  refine findSome?_of_agree (fun g hg => ?_) ⟨b, hperm.mem_iff.mpr mem_cons_self, hfull⟩
  rcases mem_cons.mp (hperm.mem_iff.mp hg) with rfl | hg
  · exact .inr hfull
  · exact .inl (hrest g hg)

end Reader

namespace World

open List ArrayRowIndex MemIndex Reader

variable {w : World}

/-- Every row the action pushes is the next one of its table, and every table it
merges continues the one before. -/
def RowsContinue (w : World) (a : IndexAction) : Prop :=
  ArrayRowIndex.empty.InOrder (rowsOf a.documents) ∧
    ∀ group ∈ w.groups a, ArrayRowIndex.empty.Chain (group.map Reader.arrayRowIndex)

def RunContinues (w : World) : List IndexAction → Prop
  | [] => True
  | a :: as => w.RowsContinue a ∧ (w.step a).RunContinues as

instance (w : World) (a : IndexAction) : Decidable (w.RowsContinue a) :=
  inferInstanceAs (Decidable (_ ∧ _))

instance decidableRunContinues (w : World) : (as : List IndexAction) → Decidable (w.RunContinues as)
  | [] => inferInstanceAs (Decidable True)
  | a :: as =>
    have := decidableRunContinues (w.step a) as
    inferInstanceAs (Decidable (_ ∧ _))

/-- Each of the rows is in one part only, and no part knows a later row. -/
structure Placed (w : World) (rows : List Row) (later : ℕ → Prop) : Prop where
  once : ∀ e ∈ rows, CarriedOnce (Full e) (Lacks e.id) w.index.readers
  lacks : ∀ row, later row → ∀ r ∈ w.index.readers, r.Lacks row
  root : w.index.hasRoot = true
  mem : w.index.mem.docIdRange = none → w.index.mem.arrayRowIndex.isEmpty

theorem lacks_added {a : IndexAction} (h : empty.InOrder (rowsOf a.documents))
    {row : ℕ} (hrow : row ∉ (rowsOf a.documents).map Row.id) :
    ∀ r ∈ IndexAction.added a, r.Lacks row := by
  cases a with
  | mergeIntoMemtable docs =>
    intro r hr
    obtain rfl := mem_singleton.mp hr
    have hsame : ((rowsOf docs).foldl push empty).rowAt row = _ :=
      rowAt_foldl_push_of_not_mem h hrow
    show (ofDocuments docs).arrayRowIndex.rowAt row = none
    rw [ofDocuments_arrayRowIndex, hsame]
    exact rowAt_of_isEmpty rfl row
  | _ => simp [IndexAction.added]

theorem full_added {a : IndexAction} (h : empty.InOrder (rowsOf a.documents))
    (hnodup : ((rowsOf a.documents).map Row.id).Nodup) {e : Row} (he : e ∈ rowsOf a.documents) :
    ∃ r, IndexAction.added a = [r] ∧ r.Full e := by
  cases a with
  | mergeIntoMemtable docs =>
    refine ⟨.mem (ofDocuments docs), rfl, ?_⟩
    show (ofDocuments docs).arrayRowIndex.rowAt e.id = some e.stored
    rw [ofDocuments_arrayRowIndex]
    exact rowAt_foldl_push h hnodup he
  | _ => cases he

theorem mem_rows_step (hinv : Inv w) (hroot : w.index.hasRoot = true) (a : IndexAction)
    (h : w.index.mem.docIdRange = none → w.index.mem.arrayRowIndex.isEmpty) :
    (w.step a).index.mem.docIdRange = none → (w.step a).index.mem.arrayRowIndex.isEmpty := by
  obtain ⟨-, -, hsame | hnew | ⟨docs, rfl⟩⟩ := tables_step hinv hroot a
  · rw [hsame]
    exact h
  · rw [hnew]
    exact fun _ => rfl
  · intro hnone
    have hneither : ¬ (w.index.mem.Tracked ∨ (ofDocuments docs).Tracked) :=
      fun htracked => tracked_mergeFrom htracked hnone
    rw [not_or] at hneither
    have hdocs : docs = [] := by
      by_contra hne
      exact hneither.2 (tracked_ofDocuments hne)
    show (w.index.mem.mergeFrom (ofDocuments docs)).arrayRowIndex.isEmpty
    rw [mergeFrom_arrayRowIndex, hdocs]
    exact h (not_not.mp hneither.1)

theorem Placed.step {rows : List Row} {later later' : ℕ → Prop} {a : IndexAction}
    (h : Placed w rows later) (hinv : Inv w) (hcont : w.RowsContinue a)
    (hnodup : ((rows ++ rowsOf a.documents).map Row.id).Nodup)
    (hnew : ∀ e ∈ rowsOf a.documents, later e.id)
    (hlater : ∀ row, later' row → later row ∧ row ∉ (rowsOf a.documents).map Row.id) :
    Placed (w.step a) (rows ++ rowsOf a.documents) later' := by
  obtain ⟨horder, hchain⟩ := hcont
  obtain ⟨deleted, -, hregroup⟩ := step_regroupIn hinv a
  rw [map_append, nodup_append] at hnodup
  obtain ⟨-, hbatch, hdisj⟩ := hnodup
  have hunique : ∀ e : Row, CarriedOnce (Full e) (Lacks e.id)
      (IndexAction.added a ++ w.index.readers) →
      CarriedOnce (Full e) (Lacks e.id) (w.step a).index.readers := fun e =>
    hregroup.unique (full_gathersIn hchain) (lacks_gathersIn hchain)
  refine ⟨fun e he => hunique e ?_, fun row hrow => ?_, (tables_step hinv h.root a).1,
    mem_rows_step hinv h.root a h.mem⟩
  · rcases mem_append.mp he with he | he
    · -- a row that was there: the new table lacks it
      obtain ⟨b, rest, hperm, hfull, hrest⟩ := h.once e he
      have hout : e.id ∉ (rowsOf a.documents).map Row.id := fun hmem =>
        hdisj e.id (mem_map_of_mem he) e.id hmem rfl
      refine ⟨b, IndexAction.added a ++ rest, ?_, hfull, fun c hc => ?_⟩
      · exact (hperm.append_left _).trans perm_middle
      · rcases mem_append.mp hc with hc | hc
        · exact lacks_added horder hout c hc
        · exact hrest c hc
    · -- a row of the batch: no part knew it
      obtain ⟨r, hr, hfull⟩ := full_added horder hbatch he
      rw [hr]
      exact ⟨r, w.index.readers, Perm.refl _, hfull, h.lacks e.id (hnew e he)⟩
  · obtain ⟨hold, hout⟩ := hlater row hrow
    refine hregroup.all_of_all (lacks_gathersIn hchain) fun r hr => ?_
    rcases mem_append.mp hr with hr | hr
    · exact lacks_added horder hout r hr
    · exact h.lacks row hold r hr

def rowsOfActions (as : List IndexAction) : List Row := rowsOf (as.flatMap documents)

theorem rowsOfActions_cons (a : IndexAction) (as : List IndexAction) :
    rowsOfActions (a :: as) = rowsOf a.documents ++ rowsOfActions as := by
  rw [rowsOfActions, flatMap_cons, rowsOf_append]
  rfl

theorem Placed.run {rows : List Row} {later later' : ℕ → Prop} {as : List IndexAction}
    (h : Placed w rows later) (hinv : Inv w) (hcont : w.RunContinues as)
    (hnodup : ((rows ++ rowsOfActions as).map Row.id).Nodup)
    (hnew : ∀ e ∈ rowsOfActions as, later e.id)
    (hlater : ∀ row, later' row → later row ∧ row ∉ (rowsOfActions as).map Row.id) :
    Placed (w.run as) (rows ++ rowsOfActions as) later' := by
  induction as generalizing w rows later with
  | nil =>
    have hrows : rows ++ rowsOfActions [] = rows := append_nil rows
    rw [hrows]
    exact ⟨h.once, fun row hrow => h.lacks row (hlater row hrow).1, h.root, h.mem⟩
  | cons a as ih =>
    rw [rowsOfActions_cons] at hnodup hnew hlater ⊢
    have hnewRows : ((rowsOf a.documents ++ rowsOfActions as).map Row.id).Nodup := by
      rw [map_append] at hnodup
      exact (nodup_append.mp hnodup).2.1
    rw [map_append, nodup_append] at hnewRows
    obtain ⟨-, -, hdisj⟩ := hnewRows
    rw [← append_assoc] at hnodup ⊢
    have hfirstRows : ((rows ++ rowsOf a.documents).map Row.id).Nodup := by
      rw [map_append] at hnodup
      exact (nodup_append.mp hnodup).1
    -- later than the first action: what is later than the run, or comes with the rest of it
    have hfirst : Placed (w.step a) (rows ++ rowsOf a.documents)
        (fun row => later' row ∨ row ∈ (rowsOfActions as).map Row.id) := by
      refine h.step hinv hcont.1 hfirstRows (fun e he => hnew e (mem_append_left _ he)) ?_
      rintro row (hrow | hrow)
      · obtain ⟨hold, hout⟩ := hlater row hrow
        rw [map_append, mem_append, not_or] at hout
        exact ⟨hold, hout.1⟩
      · obtain ⟨e, he, rfl⟩ := mem_map.mp hrow
        exact ⟨hnew e (mem_append_right _ he), fun hmem => hdisj e.id hmem e.id hrow rfl⟩
    refine ih hfirst (inv_step hinv a) hcont.2 hnodup (fun e he => .inr (mem_map_of_mem he)) ?_
    intro row hrow
    obtain ⟨-, hout⟩ := hlater row hrow
    rw [map_append, mem_append, not_or] at hout
    exact ⟨.inl hrow, hout.2⟩

end World

namespace IndexSnapshot

open ArrayRowIndex List

def Answers (s : IndexSnapshot) (e : Row) : Prop :=
  s.docOfRow e.id = some e.doc ∧ s.parentOfRow e.id = e.parent

instance (s : IndexSnapshot) (e : Row) : Decidable (s.Answers e) :=
  inferInstanceAs (Decidable (_ ∧ _))

theorem docOfRow_eq (s : IndexSnapshot) (row : ℕ) :
    s.docOfRow row = s.readers.findSome? fun r => r.arrayRowIndex.docOf row := by
  rw [docOfRow, readers, findSome?_cons]
  cases hdoc : s.mem.arrayRowIndex.docOf row with
  | none => simp [Reader.arrayRowIndex, hdoc]
  | some d => simp [Reader.arrayRowIndex, hdoc]

theorem parentOfRow_eq (s : IndexSnapshot) (row : ℕ) :
    s.parentOfRow row = s.readers.findSome? fun r => r.arrayRowIndex.parentOf row := by
  rw [parentOfRow, readers, findSome?_cons]
  cases hparent : s.mem.arrayRowIndex.parentOf row with
  | none => simp [Reader.arrayRowIndex, hparent]
  | some p => simp [Reader.arrayRowIndex, hparent]

theorem answers_of_once {s : IndexSnapshot} {e : Row} (hparent : e.parent ≠ some noParentRow)
    (h : CarriedOnce (Reader.Full e) (Reader.Lacks e.id) s.readers) : s.Answers e := by
  obtain ⟨b, rest, hperm, hfull, hrest⟩ := h
  have hb : b ∈ s.readers := hperm.mem_iff.mpr mem_cons_self
  have hall : ∀ r ∈ s.readers, r.arrayRowIndex.rowAt e.id = none ∨
      r.arrayRowIndex.rowAt e.id = some e.stored := by
    intro r hr
    rcases mem_cons.mp (hperm.mem_iff.mp hr) with rfl | hr
    · exact .inr hfull
    · exact .inl (hrest r hr)
  have hmark : Option.filter (fun p => p ≠ noParentRow) (some e.stored.2) = e.parent := by
    cases hp : e.parent with
    | none => simp [Row.stored, hp]
    | some p =>
      have hne : p ≠ noParentRow := fun heq => hparent (hp.trans (congrArg some heq))
      simp [Row.stored, hp, hne]
  constructor
  · rw [docOfRow_eq]
    refine Reader.findSome?_of_agree (fun r hr => ?_) ⟨b, hb, ?_⟩
    · rw [docOf_eq]
      rcases hall r hr with hnone | hsome
      · exact .inl (by rw [hnone]; rfl)
      · exact .inr (by rw [hsome]; rfl)
    · rw [docOf_eq, show b.arrayRowIndex.rowAt e.id = some e.stored from hfull]
      rfl
  · have hparentOf : ∀ r ∈ s.readers, r.arrayRowIndex.parentOf e.id = none ∨
        r.arrayRowIndex.parentOf e.id = e.parent := by
      intro r hr
      rw [parentOf_eq]
      rcases hall r hr with hnone | hsome
      · exact .inl (by rw [hnone]; rfl)
      · exact .inr (by rw [hsome]; exact hmark)
    rw [parentOfRow_eq]
    cases hp : e.parent with
    | none =>
      rw [findSome?_eq_none_iff]
      intro r hr
      rcases hparentOf r hr with hnone | hsome
      · exact hnone
      · exact hsome.trans hp
    | some p =>
      rw [hp] at hparentOf
      refine Reader.findSome?_of_agree hparentOf ⟨b, hb, ?_⟩
      rw [parentOf_eq, show b.arrayRowIndex.rowAt e.id = some e.stored from hfull]
      exact hmark.trans hp

end IndexSnapshot

namespace World

open ArrayRowIndex

variable {w : World} {rows : List Row} {later : ℕ → Prop}

theorem Placed.answers (h : Placed w rows later) {e : Row} (he : e ∈ rows)
    (hparent : e.parent ≠ some noParentRow) : w.index.snapshot.Answers e :=
  IndexSnapshot.answers_of_once hparent (h.once e he)

theorem Placed.published (h : Placed w rows later) (hinv : Inv w) {busy : ℕ → Bool}
    (hcont : w.RowsContinue (.publishSnapshot busy)) (hnodup : (rows.map Row.id).Nodup) {e : Row}
    (he : e ∈ rows) (hparent : e.parent ≠ some noParentRow) :
    (w.index.publishSnapshot busy).2.Answers e := by
  have hrows : rows ++ rowsOf (publishSnapshot busy).documents = rows :=
    append_nil rows
  have hsealed : Placed (w.step (.publishSnapshot busy)) rows later := by
    have hstep : Placed (w.step (.publishSnapshot busy))
        (rows ++ rowsOf (publishSnapshot busy).documents) later :=
      h.step hinv hcont (by rwa [hrows]) (fun e he => absurd he not_mem_nil)
        (fun row hrow => ⟨hrow, not_mem_nil⟩)
    rwa [hrows] at hstep
  -- sealing leaves an active table without rows, so leaving it out changes no answer
  have hempty : (w.index.sealMem busy).mem.arrayRowIndex.isEmpty := by
    rcases LsmIndex.sealMem_cases (i := w.index) busy with ⟨-, hnone, hsame⟩ | ⟨-, hnew⟩
    · rw [hsame]
      exact h.mem hnone
    · rw [hnew]
      rfl
  obtain ⟨hdoc, hpar⟩ := hsealed.answers he hparent
  have hnone := rowAt_of_isEmpty hempty e.id
  have hnew : new.arrayRowIndex.rowAt e.id = none := rowAt_of_isEmpty rfl _
  constructor
  · rw [← hdoc]
    show Option.or (new.arrayRowIndex.docOf e.id) _
      = Option.or ((w.index.sealMem busy).mem.arrayRowIndex.docOf e.id) _
    rw [docOf_eq, docOf_eq, hnone, hnew]
    rfl
  · rw [← hpar]
    show Option.or (new.arrayRowIndex.parentOf e.id) _
      = Option.or ((w.index.sealMem busy).mem.arrayRowIndex.parentOf e.id) _
    rw [parentOf_eq, parentOf_eq, hnone, hnew]
    rfl

end World

/-! ### The actions of the index worker -/

namespace World

open List

def mergeActions (w : World) (threshold : ℕ) (busy : ℕ → Bool) (syncOk : Bool)
    (staged : List AnalyzedDocument) : List IndexAction :=
  if (w.step (.mergeIntoMemtable staged)).index.memtableSize ≥ threshold then
    [.mergeIntoMemtable staged, .queueFlush busy syncOk]
  else [.mergeIntoMemtable staged]

def stageActions (threshold : ℕ) (busy : ℕ → Bool) (syncOk : ℕ → Bool) :
    World → ℕ → List AnalyzedDocument → List AnalyzedDocument → List IndexAction
  | w, n, staged, [] => w.mergeActions threshold busy (syncOk n) staged
  | w, n, staged, doc :: rest =>
    if (ofDocuments (staged ++ [doc])).estimatedBytes ≥ threshold then
      w.mergeActions threshold busy (syncOk n) (staged ++ [doc]) ++
        if (w.mergeStaged threshold busy (syncOk n) (staged ++ [doc])).1 then
          stageActions threshold busy syncOk
            (w.mergeStaged threshold busy (syncOk n) (staged ++ [doc])).2 (n + 1) [] rest
        else []
    else stageActions threshold busy syncOk w n (staged ++ [doc]) rest

theorem run_mergeActions (w : World) (threshold : ℕ) (busy : ℕ → Bool) (syncOk : Bool)
    (staged : List AnalyzedDocument) :
    w.run (w.mergeActions threshold busy syncOk staged)
      = (w.mergeStaged threshold busy syncOk staged).2 := by
  simp only [mergeActions, mergeStaged]
  split_ifs <;> rfl

theorem documents_mergeActions (w : World) (threshold : ℕ) (busy : ℕ → Bool) (syncOk : Bool)
    (staged : List AnalyzedDocument) :
    (w.mergeActions threshold busy syncOk staged).flatMap documents = staged := by
  rw [mergeActions]
  split_ifs <;> simp [documents]

theorem run_stageActions (threshold : ℕ) (busy : ℕ → Bool) (syncOk : ℕ → Bool) (w : World) (n : ℕ)
    (staged docs : List AnalyzedDocument) :
    w.run (stageActions threshold busy syncOk w n staged docs)
      = (stageAndMerge threshold busy syncOk w n staged docs).2 := by
  induction docs generalizing w n staged with
  | nil => exact run_mergeActions w threshold busy (syncOk n) staged
  | cons doc rest ih =>
    rw [stageActions, stageAndMerge]
    split_ifs with hsize hok
    · rw [run_append, run_mergeActions, ih]
      rcases hmerge : w.mergeStaged threshold busy (syncOk n) (staged ++ [doc]) with ⟨ok, w'⟩
      rw [hmerge] at hok
      obtain rfl : ok = true := hok
      rfl
    · rw [append_nil, run_mergeActions]
      rcases hmerge : w.mergeStaged threshold busy (syncOk n) (staged ++ [doc]) with ⟨ok, w'⟩
      rw [hmerge] at hok
      obtain rfl : ok = false := by simpa using hok
      rfl
    · exact ih w n (staged ++ [doc])

theorem documents_stageActions (threshold : ℕ) (busy : ℕ → Bool) (syncOk : ℕ → Bool) (w : World)
    (n : ℕ) (staged docs : List AnalyzedDocument) :
    ((stageActions threshold busy syncOk w n staged docs).flatMap documents).Sublist
      (staged ++ docs) := by
  induction docs generalizing w n staged with
  | nil =>
    rw [stageActions, documents_mergeActions, append_nil]
  | cons doc rest ih =>
    rw [stageActions]
    have happend : staged ++ doc :: rest = (staged ++ [doc]) ++ rest := by simp
    split_ifs with hsize hok
    · rw [flatMap_append, documents_mergeActions, happend]
      exact (ih _ (n + 1) []).append_left _
    · rw [append_nil, documents_mergeActions, happend]
      exact sublist_append_left _ _
    · rw [happend]
      exact ih w n (staged ++ [doc])

end World

def Command.documents : Command → List AnalyzedDocument
  | .addDocuments docs _ => docs
  | _ => []

namespace IndexWorker

open List

variable {k : IndexWorker}

def handleActions (k : IndexWorker) (outcome : Outcome) : List IndexAction :=
  match k.queue with
  | [] => []
  | .addDocuments docs _ :: _ =>
    if outcome.lost then []
    else World.stageActions k.flushThreshold outcome.busy outcome.syncOk k.world 0 [] docs
  | .deleteDocument docId _ :: _ => [.deleteDocument docId outcome.appendOk]
  | .flush _ :: _ =>
    .queueFlush outcome.busy (outcome.syncOk 0) ::
      if (k.world.index.queueFlush outcome.busy (outcome.syncOk 0)).1.isOk then [.takeFlushJobs]
      else []

def actions (k : IndexWorker) : WorkerStep → List IndexAction
  | .handle outcome => k.handleActions outcome
  | .segmentWritten seq writeOk appendOk => [.completeFlush seq writeOk appendOk]
  | .publishSnapshot busy => [.publishSnapshot busy]
  | .takeFlushJobs => [.takeFlushJobs]
  | .planCompaction config quiet fileSize => [.planCompaction config quiet fileSize]
  | .runCompaction jobId ok => [.runCompaction jobId ok]
  | .installCompaction jobId openOk manifestOk clearOk =>
    [.installCompaction jobId openOk manifestOk clearOk]

def queued (k : IndexWorker) : List AnalyzedDocument := k.queue.flatMap Command.documents

theorem handle_world (k : IndexWorker) (outcome : Outcome) :
    (k.handle outcome).world = k.world.run (k.handleActions outcome) := by
  cases hqueue : k.queue with
  | nil => simp only [handle, handleActions, hqueue, World.run_nil]
  | cons command rest =>
    cases command with
    | addDocuments docs ack =>
      simp only [handle, handleActions, hqueue]
      split_ifs
      · rfl
      · exact (World.run_stageActions _ _ _ _ _ _ _).symm
    | deleteDocument docId ack =>
      simp only [handle, handleActions, hqueue]
      rfl
    | flush ack =>
      simp only [handle, handleActions, hqueue]
      split_ifs <;> rfl

theorem work_world (k : IndexWorker) (s : WorkerStep) :
    (k.work s).world = k.world.run (k.actions s) := by
  cases s with
  | handle outcome => exact k.handle_world outcome
  | _ => rfl

theorem handle_queued (k : IndexWorker) (outcome : Outcome) :
    ∃ docs, k.queued = docs ++ (k.handle outcome).queued ∧
      ((k.handleActions outcome).flatMap documents).Sublist docs := by
  cases hqueue : k.queue with
  | nil =>
    refine ⟨[], ?_, ?_⟩
    · simp only [queued, handle, hqueue, flatMap_nil, append_nil]
    · simp only [handleActions, hqueue, flatMap_nil]
      exact Sublist.refl _
  | cons command rest =>
    refine ⟨command.documents, ?_, ?_⟩
    · cases command with
      | addDocuments docs ack =>
        simp only [queued, handle, hqueue, flatMap_cons]
        split_ifs <;> rfl
      | deleteDocument docId ack =>
        simp only [queued, handle, hqueue, flatMap_cons]
        rfl
      | flush ack =>
        simp only [queued, handle, hqueue, flatMap_cons]
        split_ifs <;> rfl
    · cases command with
      | addDocuments docs ack =>
        simp only [handleActions, hqueue]
        split_ifs
        · exact nil_sublist _
        · exact World.documents_stageActions _ _ _ _ _ [] docs
      | deleteDocument docId ack =>
        simp only [handleActions, hqueue]
        exact Sublist.refl _
      | flush ack =>
        simp only [handleActions, hqueue]
        split_ifs <;> exact Sublist.refl _

theorem work_queued (k : IndexWorker) (s : WorkerStep) :
    ∃ docs, k.queued = docs ++ (k.work s).queued ∧
      ((k.actions s).flatMap documents).Sublist docs := by
  cases s with
  | handle outcome => exact k.handle_queued outcome
  | _ => exact ⟨[], rfl, Sublist.refl _⟩

end IndexWorker

def indexDocuments : List (DocId × DocumentContent) → ArrayRowAllocator →
    List AnalyzedDocument × ArrayRowAllocator
  | [], allocator => ([], allocator)
  | (docId, content) :: rest, allocator =>
    let first := indexDocument docId content allocator
    let others := indexDocuments rest first.2
    (first.1 :: others.1, others.2)

/-- Row ids taken between two allocators: all different, parents taken before the
second one. -/
structure Taken (a b : ArrayRowAllocator) (rows : List Row) : Prop where
  le : a.next ≤ b.next
  range : ∀ e ∈ rows, a.next ≤ e.id ∧ e.id < b.next
  nodup : (rows.map Row.id).Nodup
  parent : ∀ e ∈ rows, ∀ p, e.parent = some p → p < b.next

theorem Taken.nil (a : ArrayRowAllocator) : Taken a a [] where
  le := le_rfl
  range _ h := absurd h not_mem_nil
  nodup := nodup_nil
  parent _ h := absurd h not_mem_nil

theorem Taken.append {a b c : ArrayRowAllocator} {rows rows' : List Row} (h : Taken a b rows)
    (h' : Taken b c rows') : Taken a c (rows ++ rows') where
  le := h.le.trans h'.le
  range e he := by
    rcases mem_append.mp he with he | he
    · exact ⟨(h.range e he).1, lt_of_lt_of_le (h.range e he).2 h'.le⟩
    · exact ⟨h.le.trans (h'.range e he).1, (h'.range e he).2⟩
  nodup := by
    rw [map_append, nodup_append]
    refine ⟨h.nodup, h'.nodup, fun i hi j hj => ?_⟩
    obtain ⟨e, he, rfl⟩ := mem_map.mp hi
    obtain ⟨e', he', rfl⟩ := mem_map.mp hj
    exact (lt_of_lt_of_le (h.range e he).2 (h'.range e' he').1).ne
  parent e he p hp := by
    rcases mem_append.mp he with he | he
    · exact lt_of_lt_of_le (h.parent e he p hp) h'.le
    · exact h'.parent e he p hp

mutual

theorem taken_indexElement (docId : DocId) (parent : Option ArrayRowId) (element : ArrayElement)
    {a : ArrayRowAllocator} (hp : ∀ p, parent = some p → p < a.next) :
    Taken a (indexElement parent element a).2
      ((indexElement parent element a).1.map (AnalyzedArrayRow.row docId)) := by
  cases element with
  | mk target children =>
    have hstep : a.next < a.alloc.2.next := Nat.lt_succ_self a.next
    have hself : ∀ p, some a.alloc.1 = some p → p < a.alloc.2.next := by
      intro p hp
      obtain rfl := Option.some_inj.mp hp
      exact hstep
    have hnested := taken_indexArrays docId (some a.alloc.1) children hself
    simp only [indexElement, map_append, map_singleton]
    refine ⟨hstep.le.trans hnested.le, fun e he => ?_, ?_, fun e he p hep => ?_⟩
    · rcases mem_append.mp he with he | he
      · exact ⟨hstep.le.trans (hnested.range e he).1, (hnested.range e he).2⟩
      · obtain rfl := mem_singleton.mp he
        exact ⟨le_rfl, lt_of_lt_of_le hstep hnested.le⟩
    · -- the id of the element itself is below those of its children
      rw [map_append, nodup_append]
      refine ⟨hnested.nodup, nodup_singleton _, fun i hi j hj => ?_⟩
      obtain ⟨e, he, rfl⟩ := mem_map.mp hi
      obtain rfl := mem_singleton.mp hj
      exact (lt_of_lt_of_le hstep (hnested.range e he).1).ne'
    · rcases mem_append.mp he with he | he
      · exact hnested.parent e he p hep
      · obtain rfl := mem_singleton.mp he
        exact (hp p hep).trans (lt_of_lt_of_le hstep hnested.le)

theorem taken_indexArrays (docId : DocId) (parent : Option ArrayRowId)
    (elements : List ArrayElement) {a : ArrayRowAllocator}
    (hp : ∀ p, parent = some p → p < a.next) :
    Taken a (indexArrays parent elements a).2
      ((indexArrays parent elements a).1.map (AnalyzedArrayRow.row docId)) := by
  cases elements with
  | nil =>
    rw [indexArrays]
    exact Taken.nil a
  | cons element rest =>
    have hfirst := taken_indexElement docId parent element hp
    have hrest := taken_indexArrays docId parent rest
      fun p h => lt_of_lt_of_le (hp p h) hfirst.le
    rw [indexArrays, map_append]
    exact hfirst.append hrest

end

theorem taken_indexDocuments (docs : List (DocId × DocumentContent)) (a : ArrayRowAllocator) :
    Taken a (indexDocuments docs a).2 (rowsOf (indexDocuments docs a).1) := by
  induction docs generalizing a with
  | nil => exact Taken.nil a
  | cons doc rest ih =>
    obtain ⟨docId, content⟩ := doc
    have hfirst := taken_indexArrays docId none content.arrays (a := a)
      fun p h => by cases h
    exact hfirst.append (ih (indexDocument docId content a).2)

/-! ### Runs of a shard -/

structure RowShard where
  worker : IndexWorker
  allocator : ArrayRowAllocator

inductive RowStep where
  /-- A batch gets its row ids and is sent: an import batch, an upsert or a batch
  of a reindex. -/
  | indexDocuments (docs : List (DocId × DocumentContent))
  | deleteDocument (docId : DocId)
  | flush
  | work (step : WorkerStep)

namespace RowShard

open List ArrayRowIndex World

def start (manifest : List (ℕ × Segment)) (deleted : DeleteSet) (flushThreshold : ℕ) : RowShard where
  worker := IndexWorker.start manifest deleted flushThreshold
  allocator := .startingAt ((LsmIndex.persistent manifest deleted).maxArrayRow + 1)

def step (s : RowShard) : RowStep → RowShard
  | .indexDocuments docs =>
    let indexed := indexDocuments docs s.allocator
    ⟨s.worker.send (.addDocuments indexed.1), indexed.2⟩
  | .deleteDocument docId => { s with worker := s.worker.send (.deleteDocument docId) }
  | .flush => { s with worker := s.worker.send .flush }
  | .work step => { s with worker := s.worker.work step }

def run (s : RowShard) (steps : List RowStep) : RowShard := steps.foldl step s

def actions (s : RowShard) : RowStep → List IndexAction
  | .work step => s.worker.actions step
  | _ => []

def indexed (s : RowShard) : List RowStep → List AnalyzedDocument
  | [] => []
  | step :: steps => (s.actions step).flatMap documents ++ (s.step step).indexed steps

/-- Every row a run pushes and every table it merges continues what is there. -/
def Continues (s : RowShard) : List RowStep → Prop
  | [] => True
  | step :: steps => s.worker.world.RunContinues (s.actions step) ∧ (s.step step).Continues steps

instance decidableContinues (s : RowShard) : (steps : List RowStep) → Decidable (s.Continues steps)
  | [] => inferInstanceAs (Decidable True)
  | step :: steps =>
    have := decidableContinues (s.step step) steps
    inferInstanceAs (Decidable (_ ∧ _))

/-- The rows of the documents merged so far are placed; those of the documents
under way are known to no part. -/
structure Ok (s : RowShard) (done : List AnalyzedDocument) : Prop where
  inv : World.Inv s.worker.world
  nodup : ((rowsOf (done ++ s.worker.queued)).map Row.id).Nodup
  lt : ∀ e ∈ rowsOf (done ++ s.worker.queued), e.id < s.allocator.next
  parent : ∀ e ∈ rowsOf (done ++ s.worker.queued), ∀ p, e.parent = some p → p < s.allocator.next
  placed : Placed s.worker.world (rowsOf done) fun row =>
    row ∈ (rowsOf s.worker.queued).map Row.id ∨ s.allocator.next ≤ row

theorem queued_send (k : IndexWorker) (command : ℕ → Command) :
    (k.send command).queued = k.queued ++ (command k.nextAck).documents := by
  rw [IndexWorker.queued, IndexWorker.queued, IndexWorker.send, flatMap_append, flatMap_singleton]

variable {s : RowShard} {done : List AnalyzedDocument}

theorem Ok.batch (h : Ok s done) (docs : List (DocId × DocumentContent)) :
    Ok (s.step (.indexDocuments docs)) done := by
  have htaken := taken_indexDocuments docs s.allocator
  have hqueued : (s.step (.indexDocuments docs)).worker.queued
      = s.worker.queued ++ (indexDocuments docs s.allocator).1 :=
    queued_send s.worker (.addDocuments (indexDocuments docs s.allocator).1)
  have hrows : rowsOf (done ++ (s.step (.indexDocuments docs)).worker.queued)
      = rowsOf (done ++ s.worker.queued) ++ rowsOf (indexDocuments docs s.allocator).1 := by
    rw [hqueued, ← append_assoc, rowsOf_append]
  have hnext : (s.step (.indexDocuments docs)).allocator = (indexDocuments docs s.allocator).2 := rfl
  refine ⟨h.inv, ?_, fun e he => ?_, fun e he p hp => ?_, ?_⟩
  · rw [hrows, map_append, nodup_append]
    refine ⟨h.nodup, htaken.nodup, fun i hi j hj => ?_⟩
    obtain ⟨e, he, rfl⟩ := mem_map.mp hi
    obtain ⟨e', he', rfl⟩ := mem_map.mp hj
    exact (lt_of_lt_of_le (h.lt e he) (htaken.range e' he').1).ne
  · rw [hrows] at he
    rcases mem_append.mp he with he | he
    · exact lt_of_lt_of_le (h.lt e he) htaken.le
    · exact (htaken.range e he).2
  · rw [hrows] at he
    rcases mem_append.mp he with he | he
    · exact lt_of_lt_of_le (h.parent e he p hp) htaken.le
    · exact htaken.parent e he p hp
  · refine ⟨h.placed.once, fun row hrow => h.placed.lacks row ?_, h.placed.root, h.placed.mem⟩
    rw [hqueued, rowsOf_append, map_append, mem_append, hnext] at hrow
    rcases hrow with (hrow | hrow) | hrow
    · exact .inl hrow
    · obtain ⟨e, he, rfl⟩ := mem_map.mp hrow
      exact .inr (htaken.range e he).1
    · exact .inr (htaken.le.trans hrow)

theorem Ok.send (h : Ok s done) (command : ℕ → Command)
    (hdocs : ∀ ack, (command ack).documents = []) :
    Ok { s with worker := s.worker.send command } done := by
  have hqueued : (s.worker.send command).queued = s.worker.queued := by
    rw [queued_send, hdocs, append_nil]
  exact ⟨h.inv, by rw [hqueued]; exact h.nodup, by rw [hqueued]; exact h.lt,
    by rw [hqueued]; exact h.parent, by rw [hqueued]; exact h.placed⟩

theorem Ok.work (h : Ok s done) (step : WorkerStep)
    (hcont : s.worker.world.RunContinues (s.worker.actions step)) :
    Ok (s.step (.work step))
      (done ++ (s.worker.actions step).flatMap documents) := by
  obtain ⟨docs, hqueue, hsub⟩ := s.worker.work_queued step
  obtain ⟨merged, hmerged⟩ : ∃ merged,
      merged = (s.worker.actions step).flatMap documents := ⟨_, rfl⟩
  rw [← hmerged] at hsub ⊢
  -- what is merged or still waits was waiting before, in the same order
  have hsublist : (rowsOf (done ++ merged ++ (s.worker.work step).queued)).Sublist
      (rowsOf (done ++ s.worker.queued)) := by
    rw [hqueue, append_assoc]
    exact ((hsub.append_right _).append_left done).flatMap _
  have hworld : (s.step (.work step)).worker.world
      = s.worker.world.run (s.worker.actions step) := s.worker.work_world step
  have hnodup := (hsublist.map Row.id).nodup h.nodup
  refine ⟨?_, hnodup, fun e he => h.lt e (hsublist.subset he),
    fun e he => h.parent e (hsublist.subset he), ?_⟩
  · rw [hworld]
    exact inv_run h.inv _
  · have hrows : rowsOfActions (s.worker.actions step) = rowsOf merged := by
      rw [rowsOfActions, ← hmerged]
    rw [hworld, rowsOf_append, ← hrows]
    rw [rowsOf_append, rowsOf_append, ← hrows, map_append, nodup_append] at hnodup
    obtain ⟨hplaced, -, hdisj⟩ := hnodup
    refine h.placed.run h.inv hcont hplaced (fun e he => .inl ?_) fun row hrow => ?_
    · rw [hrows] at he
      refine mem_map_of_mem ?_
      rw [hqueue, rowsOf_append]
      exact mem_append_left _ ((hsub.flatMap _).subset he)
    · rcases hrow with hrow | hrow
      · refine ⟨.inl ?_, fun hmem => ?_⟩
        · rw [hqueue, rowsOf_append, map_append]
          exact mem_append_right _ hrow
        · refine hdisj row ?_ row hrow rfl
          rw [map_append]
          exact mem_append_right _ hmem
      · refine ⟨.inr hrow, fun hmem => ?_⟩
        obtain ⟨e, he, rfl⟩ := mem_map.mp hmem
        have hlt : e.id < s.allocator.next := by
          refine h.lt e (hsublist.subset ?_)
          rw [rowsOf_append, rowsOf_append, ← hrows]
          exact mem_append_left _ (mem_append_right _ he)
        exact absurd hrow (not_le.mpr hlt)

theorem Ok.step (h : Ok s done) (step : RowStep)
    (hcont : s.worker.world.RunContinues (s.actions step)) :
    Ok (s.step step) (done ++ (s.actions step).flatMap documents) := by
  have hnil : ∀ s' : RowShard, Ok s' done →
      Ok s' (done ++ ([] : List IndexAction).flatMap documents) := by
    intro s' h'
    rw [flatMap_nil, append_nil]
    exact h'
  cases step with
  | indexDocuments docs => exact hnil _ (h.batch docs)
  | deleteDocument docId => exact hnil _ (h.send _ fun _ => rfl)
  | flush => exact hnil _ (h.send _ fun _ => rfl)
  | work step => exact h.work step hcont

theorem Ok.run {steps : List RowStep} (h : Ok s done) (hcont : s.Continues steps) :
    Ok (s.run steps) (done ++ s.indexed steps) := by
  induction steps generalizing s done with
  | nil =>
    have hnil : done ++ s.indexed [] = done := append_nil done
    rw [hnil]
    exact h
  | cons step steps ih =>
    have hstep := ih (h.step step hcont.1) hcont.2
    rw [append_assoc] at hstep
    exact hstep

theorem lacks_opened (manifest : List (ℕ × Segment)) (deleted : DeleteSet) {row : ℕ}
    (hrow : (LsmIndex.persistent manifest deleted).maxArrayRow + 1 ≤ row) :
    ∀ r ∈ (LsmIndex.persistent manifest deleted).readers, r.Lacks row := by
  have hfold : ∀ (l : List (ℕ × Segment)) (n : ℕ), n ≤ l.foldl (fun n e =>
      max n (e.2.arrayRowIndex.maxArrayRow.getD 0)) n ∧ ∀ e ∈ l,
      e.2.arrayRowIndex.maxArrayRow.getD 0 ≤ l.foldl (fun n e =>
        max n (e.2.arrayRowIndex.maxArrayRow.getD 0)) n := by
    intro l
    induction l with
    | nil => exact fun n => ⟨le_rfl, fun e he => by cases he⟩
    | cons first rest ih =>
      intro n
      obtain ⟨hle, hall⟩ := ih (max n (first.2.arrayRowIndex.maxArrayRow.getD 0))
      refine ⟨(le_max_left _ _).trans hle, fun e he => ?_⟩
      rcases mem_cons.mp he with rfl | he
      · exact (le_max_right _ _).trans hle
      · exact hall e he
  intro r hr
  rcases mem_cons.mp hr with rfl | hr
  · exact rowAt_of_isEmpty rfl row
  · have hseg : r ∈ (manifest.map Prod.snd).map Reader.seg := hr
    obtain ⟨segment, hsegment, rfl⟩ := mem_map.mp hseg
    obtain ⟨e, he, rfl⟩ := mem_map.mp hsegment
    by_cases hempty : e.2.arrayRowIndex.isEmpty = true
    · exact rowAt_of_isEmpty hempty row
    · have hmax := (hfold manifest 0).2 e he
      rw [maxArrayRow, if_neg hempty, Option.getD_some] at hmax
      have hpos : 0 < e.2.arrayRowIndex.rowToDoc.length :=
        length_pos_iff.mpr fun hnil => hempty (isEmpty_iff.mpr hnil)
      have hend : e.2.arrayRowIndex.base + e.2.arrayRowIndex.rowToDoc.length - 1 + 1
          = e.2.arrayRowIndex.base + e.2.arrayRowIndex.rowToDoc.length :=
        Nat.sub_add_cancel (Nat.le_add_left_of_le hpos)
      exact rowAt_eq_none (hend ▸ (Nat.succ_le_succ hmax).trans hrow)

theorem ok_start (manifest : List (ℕ × Segment)) (hnodup : (manifest.map Prod.fst).Nodup)
    (deleted : DeleteSet) (flushThreshold : ℕ) : Ok (start manifest deleted flushThreshold) [] where
  inv := (Fresh.opened manifest deleted hnodup).inv
  nodup := nodup_nil
  lt _ h := absurd h not_mem_nil
  parent _ h := absurd h not_mem_nil
  placed :=
    { once := fun _ h => absurd h not_mem_nil
      lacks := fun row hrow => by
        rcases hrow with hrow | hrow
        · exact absurd hrow not_mem_nil
        · exact lacks_opened manifest deleted hrow
      root := rfl
      mem := fun _ => rfl }

/-- In every run of batches, deletes, flushes and compactions in which each row
and each table continues what it is added to, every row of a document that was
merged is answered with its document and its parent, by the index and by every
snapshot published in a step that continues the tables.  The allocator stops
before it runs out of numbers. -/
theorem rows_correct (manifest : List (ℕ × Segment)) (hmanifest : (manifest.map Prod.fst).Nodup)
    (deleted : DeleteSet) (flushThreshold : ℕ) (steps : List RowStep)
    (hcont : (start manifest deleted flushThreshold).Continues steps)
    (hroom : ((start manifest deleted flushThreshold).run steps).allocator.next < 2 ^ 64) :
    let s := (start manifest deleted flushThreshold).run steps
    ∀ e ∈ rowsOf ((start manifest deleted flushThreshold).indexed steps),
      s.worker.world.index.snapshot.Answers e ∧
      ∀ busy, s.worker.world.RowsContinue (.publishSnapshot busy) →
        (s.worker.world.index.publishSnapshot busy).2.Answers e := by
  intro s e he
  have hok : Ok s _ := (ok_start manifest hmanifest deleted flushThreshold).run hcont
  rw [nil_append] at hok
  have hrows : rowsOf ((start manifest deleted flushThreshold).indexed steps ++ s.worker.queued)
      = _ ++ rowsOf s.worker.queued := rowsOf_append _ _
  have hparent : e.parent ≠ some noParentRow := by
    intro hp
    have hlt := hok.parent e (hrows ▸ mem_append_left _ he) _ hp
    have hle : s.allocator.next ≤ noParentRow := Nat.le_sub_one_of_lt hroom
    exact absurd hlt (not_lt.mpr hle)
  have hnodup := hok.nodup
  rw [hrows, map_append] at hnodup
  exact ⟨hok.placed.answers he hparent, fun busy hpublish =>
    hok.placed.published hok.inv hpublish (nodup_append.mp hnodup).1 he hparent⟩

/-! ### Rows that do not continue the table -/

def wordTarget : AnalyzedTarget := ⟨[⟨0, 1, [⟨"red", [0], 1⟩]⟩], [], []⟩

def oneElement (children : List ArrayElement) : DocumentContent :=
  ⟨⟨[], [], []⟩, [.mk wordTarget children]⟩

/-- The worker handles the next command; `lost` says whether the analysis of the
batch panicked. -/
def handled (lost : Bool) : RowStep := .work (.handle ⟨lost, fun _ => false, fun _ => true, true⟩)

def nestedRun : List RowStep :=
  [.indexDocuments [(1, oneElement [.mk wordTarget []])], handled false]

def lostRun : List RowStep :=
  [.indexDocuments [(1, oneElement [])], .indexDocuments [(2, oneElement [])],
    .indexDocuments [(3, oneElement [])], handled false, handled true, handled false]

/-- The inner element is pushed before the outer one: the table starts at its row
and the outer row has no document. -/
theorem nested_rows_wrong :
    let s := (start [] ∅ 1000).run nestedRun
    (⟨1, 1, none⟩ : Row) ∈ rowsOf ((start [] ∅ 1000).indexed nestedRun) ∧
      ¬ s.worker.world.index.snapshot.Answers ⟨1, 1, none⟩ := by
  decide +kernel

/-- The row of the third document is filed under the number of the lost one. -/
example : ((start [] ∅ 1000).run lostRun).worker.world.index.snapshot.docOfRow 2 = some 3 ∧
    ((start [] ∅ 1000).run lostRun).worker.world.index.snapshot.docOfRow 3 = none := by
  decide +kernel

def flatRun : List RowStep :=
  [.indexDocuments [(1, oneElement []), (2, oneElement [])], handled false,
    .indexDocuments [(3, oneElement [])], handled false, .flush, handled false,
    .work (.segmentWritten 0 true true)]

theorem flat_rows_correct :
    let s := (start [] ∅ 1000).run flatRun
    s.worker.world.index.snapshot.Answers ⟨3, 3, none⟩ :=
  (rows_correct [] nodup_nil ∅ 1000 flatRun (by decide +kernel) (by decide +kernel)
    ⟨3, 3, none⟩ (by decide +kernel)).1

end RowShard
