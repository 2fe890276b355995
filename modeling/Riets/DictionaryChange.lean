/-
What a failed change of the dictionary leaves behind.

A document is compiled and compared with the file before the file is replaced, so most
failures change nothing.  The sync of the directory comes after the rename: when it fails
the call fails, with the new text in the file and the old one in the manager.
-/
import Riets.DictionaryFile
import Riets.SynonymRun

namespace DictionaryState

open DictionaryDocument

variable {toml : TomlParser} {tables : UnicodeTables} {analyze : String → List String}

/-! ### One call -/

structure SameInUse (w w' : DictionaryState toml) : Prop where
  text : w'.manager.file.text = w.manager.file.text
  synonyms : w'.manager.store = w.manager.store

structure Same (w w' : DictionaryState toml) : Prop extends SameInUse w w' where
  disk : w'.disk = w.disk

theorem writeAtomic_cases (disk : Option ByteSeq) (path : DictionaryPath) (bytes : ByteSeq)
    (fault : Option (WriteStep × String)) :
    ((∃ message, writeAtomic disk path bytes fault = (disk, .error message)) ∧
        ¬ (path.fileName.isSome ∧ ∃ message, fault = some (.syncDir, message))) ∨
      (∃ message, path.fileName.isSome ∧ fault = some (.syncDir, message) ∧
        writeAtomic disk path bytes fault = (some bytes, .error message)) ∨
      fault = none ∧ writeAtomic disk path bytes fault = (some bytes, .ok ()) := by
  cases hname : path.fileName with
  | none =>
    refine Or.inl ⟨?_, fun h => by cases h.1⟩
    cases fault with
    | none => exact ⟨"path has no file name", by simp [writeAtomic, hname]⟩
    | some fault =>
      obtain ⟨step, message⟩ := fault
      by_cases hstep : step = .createDir
      · exact ⟨message, by simp [writeAtomic, hstep]⟩
      · exact ⟨"path has no file name", by cases step <;> simp_all [writeAtomic]⟩
  | some name =>
    cases fault with
    | none => exact Or.inr (Or.inr ⟨rfl, by simp [writeAtomic, hname]⟩)
    | some fault =>
      obtain ⟨step, message⟩ := fault
      cases step with
      | syncDir => exact Or.inr (Or.inl ⟨message, rfl, rfl, by simp [writeAtomic, hname]⟩)
      | createDir => exact Or.inl ⟨⟨message, by simp [writeAtomic]⟩, by simp⟩
      | openTmp => exact Or.inl ⟨⟨message, by simp [writeAtomic, hname]⟩, by simp⟩
      | writeTmp => exact Or.inl ⟨⟨message, by simp [writeAtomic, hname]⟩, by simp⟩
      | syncTmp => exact Or.inl ⟨⟨message, by simp [writeAtomic, hname]⟩, by simp⟩
      | rename => exact Or.inl ⟨⟨message, by simp [writeAtomic, hname]⟩, by simp⟩

structure Unsynced (disk : Option ByteSeq) (doc : DictionaryDocument toml) (f : IoFaults) : Prop where
  path : ∃ path, doc.path = some path ∧ path.fileName.isSome
  check : f.check = none
  same : disk.map fingerprint = doc.diskFingerprint
  write : ∃ message, f.write = some (.syncDir, message)

variable {disk : Option ByteSeq} {path : DictionaryPath}

theorem checkUnchanged_eq_ok {expected : Option ℕ}
    {fault : Option String} :
    checkUnchanged disk path expected fault = .ok () ↔ fault = none ∧ disk.map fingerprint = expected := by
  cases fault with
  | none =>
    have heq : checkUnchanged disk path expected none =
        if disk.map fingerprint = expected then .ok () else .error (.conflict path.path) := rfl
    rw [heq]
    split_ifs with h
    · exact ⟨fun _ => ⟨rfl, h⟩, fun _ => rfl⟩
    · constructor
      · intro herr
        cases herr
      · rintro ⟨-, heq⟩
        exact absurd heq h
  | some message =>
    constructor
    · intro herr
      cases herr
    · rintro ⟨hnone, -⟩
      cases hnone

theorem save_cases (doc : DictionaryDocument toml) (disk : Option ByteSeq) (f : IoFaults) :
    ((∃ e, doc.save disk f = (disk, .error e)) ∧ ¬ Unsynced disk doc f) ∨
      (∃ e, doc.save disk f = (some (utf8 doc.text), .error e)) ∧ Unsynced disk doc f ∨
      doc.save disk f =
          (some (utf8 doc.text), .ok { doc with diskFingerprint := some (fingerprint (utf8 doc.text)) }) ∧
        ¬ Unsynced disk doc f := by
  cases hpath : doc.path with
  | none =>
    refine Or.inl ⟨⟨.noPath doc.name, by simp only [save, hpath]⟩, fun h => ?_⟩
    obtain ⟨path, hsome, -⟩ := h.path
    rw [hpath] at hsome
    cases hsome
  | some path =>
    cases hcheck : checkUnchanged disk path doc.diskFingerprint f.check with
    | error e =>
      refine Or.inl ⟨⟨e, by simp only [save, hpath, hcheck]⟩, fun h => ?_⟩
      rw [checkUnchanged_eq_ok.2 ⟨h.check, h.same⟩] at hcheck
      cases hcheck
    | ok u =>
      obtain ⟨hread, hsame⟩ := checkUnchanged_eq_ok.1 hcheck
      obtain ⟨⟨message, hwrite⟩, hnot⟩ | ⟨message, hname, hfault, hwrite⟩ | ⟨hfault, hwrite⟩ :=
        writeAtomic_cases disk path (utf8 doc.text) f.write
      · refine Or.inl ⟨⟨.io path.path message,
          by simp only [save, hpath, hcheck, hwrite]⟩, fun h => hnot ?_⟩
        obtain ⟨path', hsome, hname⟩ := h.path
        rw [hpath] at hsome
        cases hsome
        exact ⟨hname, h.write⟩
      · refine Or.inr (Or.inl ⟨⟨.io path.path message,
          by simp only [save, hpath, hcheck, hwrite]⟩, ⟨path, hpath, hname⟩, hread,
          hsame, message, hfault⟩)
      · refine Or.inr (Or.inr ⟨by simp only [save, hpath, hcheck, hwrite], fun h => ?_⟩)
        obtain ⟨message, hsync⟩ := h.write
        rw [hfault] at hsync
        cases hsync

/-- The sync of the directory does not fail, unless the call fails before it or the file has the text
of the document already. -/
def SyncKept (tables : UnicodeTables) (analyze : String → List String) (w : DictionaryState toml)
    (doc : DictionaryDocument toml) (f : IoFaults) : Prop :=
  (∃ synonyms, w.manager.synonyms tables analyze (doc.boundTo w.manager.file) = .ok synonyms) →
    Unsynced w.disk (doc.boundTo w.manager.file) f → w.disk = some (utf8 doc.text)

variable {w : DictionaryState toml} {doc : DictionaryDocument toml} {f : IoFaults}

theorem replaceDocument_manager {e : ConfigError} (h : (w.replaceDocument tables analyze doc f).2 = .error e) :
    (w.replaceDocument tables analyze doc f).1.manager = w.manager := by
  cases hcompile : w.manager.synonyms tables analyze (doc.boundTo w.manager.file) with
  | error e' => simp only [replaceDocument, hcompile]
  | ok synonyms =>
    obtain ⟨⟨e', hsave⟩, -⟩ | ⟨⟨e', hsave⟩, -⟩ | ⟨hsave, -⟩ :=
      save_cases (doc.boundTo w.manager.file) w.disk f
    · simp only [replaceDocument, hcompile, hsave]
    · simp only [replaceDocument, hcompile, hsave]
    · simp only [replaceDocument, hcompile, hsave] at h
      cases h

theorem Same.refl (w : DictionaryState toml) : Same w w := ⟨⟨rfl, rfl⟩, rfl⟩

theorem replaceDocument_kept_iff (w : DictionaryState toml) (doc : DictionaryDocument toml) (f : IoFaults) :
    (∀ e, (w.replaceDocument tables analyze doc f).2 = .error e →
        Same w (w.replaceDocument tables analyze doc f).1) ↔
      SyncKept tables analyze w doc f := by
  rw [replaceDocument]
  cases hcompile : w.manager.synonyms tables analyze (doc.boundTo w.manager.file) with
  | error e =>
    constructor
    · rintro - ⟨synonyms, hok⟩
      rw [hcompile] at hok
      cases hok
    · intro _ _ _
      exact Same.refl w
  | ok synonyms =>
    have htext : (doc.boundTo w.manager.file).text = doc.text := rfl
    obtain ⟨⟨e, hsave⟩, hnot⟩ | ⟨⟨e, hsave⟩, hunsynced⟩ | ⟨hsave, hnot⟩ :=
      save_cases (doc.boundTo w.manager.file) w.disk f
    · simp only [hsave]
      constructor
      · intro _ _ hunsynced
        exact absurd hunsynced hnot
      · intro _ _ _
        exact Same.refl w
    · simp only [hsave, htext]
      constructor
      · intro hsame _ _
        exact (hsame e rfl).disk.symm
      · intro hkept _ _
        exact ⟨⟨rfl, rfl⟩, (hkept ⟨synonyms, hcompile⟩ hunsynced).symm⟩
    · simp only [hsave]
      constructor
      · intro _ _ hunsynced
        exact absurd hunsynced hnot
      · intro _ _ herr
        cases herr

theorem reload_kept (w : DictionaryState toml) (f : IoFaults) (e : ConfigError)
    (h : (w.reload tables analyze f).2 = .error e) : SameInUse w (w.reload tables analyze f).1 := by
  cases hpath : w.manager.file.path with
  | none =>
    simp only [reload, hpath]
    exact ⟨rfl, rfl⟩
  | some path =>
    cases hload : loadOrSeed toml w.disk path newDatabaseDictionary f with
    | mk disk loaded =>
      cases loaded with
      | error e' =>
        simp only [reload, hpath, hload]
        exact ⟨rfl, rfl⟩
      | ok fresh =>
        cases hcompile : w.manager.synonyms tables analyze fresh with
        | error e' =>
          simp only [reload, hpath, hload, hcompile]
          exact ⟨rfl, rfl⟩
        | ok synonyms =>
          simp only [reload, hpath, hload, hcompile] at h
          cases h

/-! ### Any calls -/

structure InSync (tables : UnicodeTables) (analyze : String → List String) (w : DictionaryState toml) :
    Prop where
  disk : w.disk = some (utf8 w.manager.file.text)
  synonyms : w.manager.synonyms tables analyze w.manager.file = .ok w.manager.store

theorem synonyms_congr (m m' : SynonymManager toml) (hdefault : m'.default = m.default)
    {doc' : DictionaryDocument toml} (hname : doc'.name = doc.name) (htext : doc'.text = doc.text)
    (hfile : doc'.file = doc.file) : m'.synonyms tables analyze doc' = m.synonyms tables analyze doc := by
  rw [SynonymManager.synonyms, SynonymManager.synonyms, compileDatabase, compileDatabase, hdefault, hname,
    htext, hfile]

theorem replaceDocument_ok (w : DictionaryState toml)
    (h : (w.replaceDocument tables analyze doc f).2 = .ok ()) :
    InSync tables analyze (w.replaceDocument tables analyze doc f).1 := by
  rw [replaceDocument] at h ⊢
  cases hcompile : w.manager.synonyms tables analyze (doc.boundTo w.manager.file) with
  | error e =>
    rw [hcompile] at h
    cases h
  | ok synonyms =>
    rw [hcompile] at h
    obtain ⟨⟨e, hsave⟩, -⟩ | ⟨⟨e, hsave⟩, -⟩ | ⟨hsave, -⟩ :=
      save_cases (doc.boundTo w.manager.file) w.disk f
    · simp only [hsave] at h
      cases h
    · simp only [hsave] at h
      cases h
    · simp only [hsave]
      refine ⟨rfl, ?_⟩
      rw [← hcompile]
      exact synonyms_congr _ _ rfl rfl rfl rfl

theorem parse_text {name text : String}
    (h : parse toml name text = .ok doc) : doc.text = text ∧ doc.diskFingerprint = none := by
  rw [parse] at h
  split at h
  · cases h
    exact ⟨rfl, rfl⟩
  · cases h

theorem load_ok {missing : String} {fault : Option String}
    (h : load toml disk path missing fault = .ok doc) :
    (disk = none ∧ doc.diskFingerprint = none) ∨
      disk = some (utf8 doc.text) ∧ doc.diskFingerprint.isSome := by
  cases fault with
  | some message => cases h
  | none =>
    cases disk with
    | none =>
      cases hparse : parse toml path.path missing with
      | error e =>
        simp only [load, hparse] at h
        cases h
      | ok parsed =>
        simp only [load, hparse] at h
        cases h
        exact Or.inl ⟨rfl, (parse_text hparse).2⟩
    | some bytes =>
      cases htext : ofUtf8 bytes with
      | none =>
        simp only [load, htext] at h
        cases h
      | some text =>
        cases hparse : parse toml path.path text with
        | error e =>
          simp only [load, htext, hparse] at h
          cases h
        | ok parsed =>
          simp only [load, htext, hparse] at h
          cases h
          refine Or.inr ⟨?_, rfl⟩
          show some bytes = some (utf8 parsed.text)
          rw [(parse_text hparse).1, utf8_of_ofUtf8 htext]

variable {disk' : Option ByteSeq}

theorem loadOrSeed_ok {seed : String}
    (h : loadOrSeed toml disk path seed f = (disk', .ok doc)) :
    disk' = some (utf8 doc.text) := by
  rw [loadOrSeed] at h
  cases hload : load toml disk path seed f.load with
  | error e =>
    rw [hload] at h
    cases h
  | ok loaded =>
    simp only [hload] at h
    split_ifs at h with hthere
    · cases h
      obtain ⟨-, hnone⟩ | ⟨hdisk, -⟩ := load_ok hload
      · rw [hnone] at hthere
        cases hthere
      · exact hdisk
    · cases hparse : parse toml loaded.name seed with
      | error e =>
        simp only [hparse] at h
        cases h
      | ok seeded =>
        simp only [hparse] at h
        obtain ⟨⟨e, hsave⟩, -⟩ | ⟨⟨e, hsave⟩, -⟩ | ⟨hsave, -⟩ := save_cases (seeded.boundTo loaded) disk f
        · rw [hsave] at h
          cases h
        · rw [hsave] at h
          cases h
        · rw [hsave] at h
          cases h
          rfl

theorem loadOrSeed_disk (toml : TomlParser) (bytes : ByteSeq) (path : DictionaryPath) (seed : String) (f : IoFaults) :
    (loadOrSeed toml (some bytes) path seed f).1 = some bytes := by
  rw [loadOrSeed]
  cases hload : load toml (some bytes) path seed f.load with
  | error e => rfl
  | ok loaded =>
    obtain ⟨hnone, -⟩ | ⟨-, hthere⟩ := load_ok hload
    · cases hnone
    · simp only [if_pos hthere]

theorem reload_inSync (h : InSync tables analyze w) (f : IoFaults) :
    InSync tables analyze (w.reload tables analyze f).1 := by
  cases hpath : w.manager.file.path with
  | none =>
    simp only [reload, hpath]
    exact h
  | some path =>
    have hdisk := loadOrSeed_disk toml (utf8 w.manager.file.text) path newDatabaseDictionary f
    rw [← h.disk] at hdisk
    cases hload : loadOrSeed toml w.disk path newDatabaseDictionary f with
    | mk disk loaded =>
      rw [hload] at hdisk
      cases loaded with
      | error e =>
        simp only [reload, hpath, hload]
        exact ⟨hdisk.trans h.disk, h.synonyms⟩
      | ok fresh =>
        cases hcompile : w.manager.synonyms tables analyze fresh with
        | error e =>
          simp only [reload, hpath, hload, hcompile]
          exact ⟨hdisk.trans h.disk, h.synonyms⟩
        | ok synonyms =>
          simp only [reload, hpath, hload, hcompile]
          refine ⟨loadOrSeed_ok hload, ?_⟩
          rw [← hcompile]
          exact synonyms_congr _ _ rfl rfl rfl rfl

theorem replaceDocument_inSync (h : InSync tables analyze w)
    (hkept : SyncKept tables analyze w doc f) :
    InSync tables analyze (w.replaceDocument tables analyze doc f).1 := by
  cases hresult : (w.replaceDocument tables analyze doc f).2 with
  | ok u => exact replaceDocument_ok w hresult
  | error e =>
    have hdisk := ((replaceDocument_kept_iff w doc f).2 hkept e hresult).disk
    have hmanager := replaceDocument_manager hresult
    refine ⟨?_, ?_⟩
    · rw [hdisk, hmanager]
      exact h.disk
    · rw [hmanager]
      exact h.synonyms

def CallKept (tables : UnicodeTables) (analyze : String → List String) (w : DictionaryState toml) :
    DictionaryCall toml → Prop
  | .replace doc f => SyncKept tables analyze w doc f
  | .reload _ => True

/-- All calls of a run keep to it, each in the state it is made in. -/
def RunKept (tables : UnicodeTables) (analyze : String → List String) (w : DictionaryState toml) :
    List (DictionaryCall toml) → Prop
  | [] => True
  | c :: calls => CallKept tables analyze w c ∧ RunKept tables analyze (w.call tables analyze c) calls

theorem call_inSync (h : InSync tables analyze w) {c : DictionaryCall toml}
    (hkept : CallKept tables analyze w c) : InSync tables analyze (w.call tables analyze c) := by
  cases c with
  | replace doc f => exact replaceDocument_inSync h hkept
  | reload f => exact reload_inSync h f

theorem run_inSync (h : InSync tables analyze w) {calls : List (DictionaryCall toml)}
    (hkept : RunKept tables analyze w calls) : InSync tables analyze (w.run tables analyze calls) := by
  induction calls generalizing w with
  | nil => exact h
  | cons c calls ih => exact ih (call_inSync h hkept.1) hkept.2

theorem openDatabase_inSync {default : SynonymDictionary}
    {m : SynonymManager toml}
    (h : openDatabase tables analyze default path disk f = (disk', .ok m)) :
    InSync tables analyze ⟨disk', m⟩ := by
  rw [openDatabase] at h
  cases hload : loadOrSeed toml disk path newDatabaseDictionary f with
  | mk disk loaded =>
    cases loaded with
    | error e =>
      simp only [hload] at h
      cases h
    | ok file =>
      simp only [hload] at h
      split at h
      · cases h
      · rename_i synonyms hcompile
        cases h
        refine ⟨loadOrSeed_ok hload, ?_⟩
        rw [← hcompile]
        exact synonyms_congr _ _ rfl rfl rfl rfl

/-- A failed call of `replaceDocument` leaves everything just when it keeps to the condition, a failed
reload leaves the text and the synonyms, and from an opened database on the file, the text and the
synonyms are of one dictionary as long as all calls keep to it. -/
theorem change_kept_iff (toml : TomlParser) (tables : UnicodeTables) (analyze : String → List String) :
    (∀ (w : DictionaryState toml) doc f,
      (∀ e, (w.replaceDocument tables analyze doc f).2 = .error e →
          Same w (w.replaceDocument tables analyze doc f).1) ↔ SyncKept tables analyze w doc f) ∧
      (∀ (w : DictionaryState toml) f e, (w.reload tables analyze f).2 = .error e →
        SameInUse w (w.reload tables analyze f).1) ∧
      ∀ default path disk f disk' (m : SynonymManager toml),
        openDatabase tables analyze default path disk f = (disk', .ok m) →
        ∀ calls, RunKept tables analyze ⟨disk', m⟩ calls →
          InSync tables analyze ((⟨disk', m⟩ : DictionaryState toml).run tables analyze calls) := by
  refine ⟨replaceDocument_kept_iff, reload_kept, ?_⟩
  intro default path disk f disk' m hopen calls hkept
  exact run_inSync (openDatabase_inSync hopen) hkept

def noGroups : TomlParser := fun _ => .ok ⟨true, [], []⟩

/-- A manager on the file `a`. -/
def managed : DictionaryState noGroups where
  disk := some (utf8 "a")
  manager :=
    { default := ⟨[], [], .default⟩
      file := ⟨"dictionary.toml", some ⟨"db/dictionary.toml", some "dictionary.toml"⟩, "a",
        ⟨true, [], []⟩, some (fingerprint (utf8 "a")), rfl⟩
      store := ⟨[⟨[], [], .default⟩, DictionaryBuilder.dictionary
        ⟨[], { RomanConfig.default with enabled := false }⟩ asciiTables fun word => [word]]⟩ }

/-- The document `b`, sent over the API. -/
def sent : DictionaryDocument noGroups := ⟨"db", none, "b", ⟨true, [], []⟩, none, rfl⟩

def unsynced : DictionaryState noGroups × Except ConfigError Unit :=
  managed.replaceDocument asciiTables (fun word => [word]) sent
    ⟨none, none, some (.syncDir, "input/output error")⟩

/-- The sync of the directory fails: the call fails, the file is `b` and the text in use is `a`. -/
theorem sync_failed :
    InSync asciiTables (fun word => [word]) managed ∧ (∃ e, unsynced.2 = .error e) ∧
      ¬ Same managed unsynced.1 ∧ ¬ InSync asciiTables (fun word => [word]) unsynced.1 := by
  have hcompile : managed.manager.synonyms asciiTables (fun word => [word])
      (sent.boundTo managed.manager.file) = .ok managed.manager.store := rfl
  have hreached : Unsynced managed.disk (sent.boundTo managed.manager.file)
      ⟨none, none, some (.syncDir, "input/output error")⟩ :=
    ⟨⟨_, rfl, rfl⟩, rfl, rfl, "input/output error", rfl⟩
  have hunsynced : ∃ e, unsynced = (⟨some (utf8 "b"), managed.manager⟩, .error e) := by
    obtain ⟨-, hnot⟩ | ⟨⟨e, hsave⟩, -⟩ | ⟨-, hnot⟩ := save_cases (sent.boundTo managed.manager.file)
      managed.disk ⟨none, none, some (.syncDir, "input/output error")⟩
    · exact absurd hreached hnot
    · refine ⟨e, ?_⟩
      simp only [unsynced, replaceDocument, hcompile, hsave]
      rfl
    · exact absurd hreached hnot
  have hne : utf8 "b" ≠ utf8 "a" := fun h => absurd (utf8_injective h) (by decide)
  obtain ⟨e, he⟩ := hunsynced
  rw [he]
  refine ⟨⟨rfl, rfl⟩, ⟨e, rfl⟩, fun h => ?_, fun h => ?_⟩
  · exact hne (Option.some_inj.1 h.disk)
  · exact hne (Option.some_inj.1 h.disk)

end DictionaryState
