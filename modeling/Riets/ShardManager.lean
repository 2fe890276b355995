/-
The settings of a database.

A manager holds the policy, the options and the analyzers of a database; each
of its shards holds a policy and options of its own, and a running shard has a
database that analyses with a policy.

A shard is a thread: a command may find it gone.  A save may fail before the
new file takes its place or after.  Both are given to an operation as faults.
Reading and writing the text of the files is left open (`SettingsCodec`).
-/
import Riets.PolicyResolve

inductive TierKind where
  | name
  | exact
  | phrase
  | fuzzy
  | all
  | allButOne
  | any
  deriving DecidableEq, Repr

def TierKind.debug : TierKind → String
  | .name => "Name"
  | .exact => "Exact"
  | .phrase => "Phrase"
  | .fuzzy => "Fuzzy"
  | .all => "All"
  | .allButOne => "AllButOne"
  | .any => "Any"

structure SearchOptions where
  cascade : List (TierKind × ℕ)
  deriving DecidableEq, Repr

namespace SearchOptions

def validateRanks (seen : List ℕ) : List (TierKind × ℕ) → Except String Unit
  | [] => pure ()
  | (kind, rank) :: rest =>
    if rank ∈ seen then throw s!"search.cascade: rank {rank} is given twice (at {kind.debug})"
    else validateRanks (rank :: seen) rest

def validate (o : SearchOptions) : Except String Unit := validateRanks [] o.cascade

end SearchOptions

/-- The options; `S` stands for those that only background work reads. -/
structure DatabaseOptions (S : Type) where
  bootable : Bool
  search : SearchOptions
  rest : S

abbrev AllFields := SortedMap String FieldKind

structure SettingsFiles where
  policyFile : String
  optionsFile : String
  registryFile : Option FieldRegistry
  allFieldsFile : AllFields

structure SettingsCodec (S : Type) where
  renderPolicy : IndexPolicy → String
  parsePolicy : String → Except String IndexPolicy
  renderOptions : DatabaseOptions S → String
  parseOptions : String → Except String (DatabaseOptions S)

inductive SaveOutcome where
  | done
  | unwritten (error : String)
  | unsynced (error : String)
  deriving DecidableEq, Repr

namespace SaveOutcome

def result : SaveOutcome → Except String Unit
  | done => .ok ()
  | unwritten error => .error error
  | unsynced error => .error error

def file {α : Type} (o : SaveOutcome) (old new : α) : α :=
  match o with
  | done => new
  | unwritten _ => old
  | unsynced _ => new

@[simp] theorem file_self {α : Type} (o : SaveOutcome) (a : α) : o.file a a = a := by
  cases o <;> rfl

end SaveOutcome

/-! ### Shards -/

structure ShardSettings (S : Type) where
  policy : IndexPolicy
  options : DatabaseOptions S
  database : Option IndexPolicy

inductive StartOutcome where
  | opens
  | fails (error : String)
  deriving DecidableEq, Repr

inductive StopOutcome where
  | stops
  | early (error : String)
  | late (error : String)
  deriving DecidableEq, Repr

namespace ShardSettings

variable {S : Type}

/-- `ShardDb::set_policy`; a running reindex refuses it. -/
def setPolicy (policy : IndexPolicy) (reindexing : Bool) (s : ShardSettings S) :
    Except String Unit × ShardSettings S :=
  match policy.validate with
  | .error e => (.error e, s)
  | .ok () =>
    if reindexing then (.error "a reindex is running on this shard", s)
    else (.ok (), { s with policy := policy, database := s.database.map fun _ => policy })

def setOptions (options : DatabaseOptions S) (reindexing : Bool) (s : ShardSettings S) :
    Except String Unit × ShardSettings S :=
  if reindexing then (.error "a reindex is running on this shard", s)
  else (.ok (), { s with options := options })

/-- `apply_config` and `ShardDb::start`: a database that is open stays as it is. -/
def start (policy : IndexPolicy) (options : DatabaseOptions S) (outcome : StartOutcome) (s : ShardSettings S) :
    Except String Unit × ShardSettings S :=
  match s.database with
  | some p => (.ok (), ⟨policy, options, some p⟩)
  | none =>
    match outcome with
    | .opens => (.ok (), ⟨policy, options, some policy⟩)
    | .fails e => (.error e, ⟨policy, options, none⟩)

def stop (outcome : StopOutcome) (s : ShardSettings S) : Except String Unit × ShardSettings S :=
  match s.database with
  | none => (.ok (), s)
  | some _ =>
    match outcome with
    | .stops => (.ok (), { s with database := none })
    | .early e => (.error e, s)
    | .late e => (.error e, { s with database := none })

end ShardSettings

abbrev ShardHandle (S : Type) := Option (ShardSettings S)

namespace ShardHandle

variable {S Φ : Type}

/-- `ShardHandle::call`: `fate` is what the command finds, nothing if the thread has ended by then. -/
def call (id : ℕ) (cmd : Φ → ShardSettings S → Except String Unit × ShardSettings S) (fate : Option Φ)
    (h : ShardHandle S) : Except String Unit × ShardHandle S :=
  match h, fate with
  | some s, some found => ((cmd found s).1, some (cmd found s).2)
  | _, _ => (.error s!"shard {id} is not running", none)

def callAll (cmd : Φ → ShardSettings S → Except String Unit × ShardSettings S) (fates : ℕ → Option Φ)
    (shards : List (ShardHandle S)) : List (Except String Unit × ShardHandle S) :=
  shards.mapIdx fun id h => call id cmd (fates id) h

def sendAll (cmd : Φ → ShardSettings S → Except String Unit × ShardSettings S) (fates : ℕ → Option Φ)
    (shards : List (ShardHandle S)) : List (ShardHandle S) :=
  (callAll cmd fates shards).map Prod.snd

end ShardHandle

/-- An error among the answers of the shards; which one depends on the order they come in. -/
def firstError {α : Type} (results : List (Except String Unit × α)) : Option String :=
  results.findSome? fun r =>
    match r.1 with
    | .ok () => none
    | .error e => some e

/-! ### The manager -/

structure ShardManager (S : Type) where
  shards : List (ShardHandle S)
  files : SettingsFiles
  policy : IndexPolicy
  options : DatabaseOptions S
  analyzerSet : AnalyzerSet
  allFields : AllFields

namespace SettingsFiles

/-- `IndexPolicy::resolve` saves the registry when it has new paths. -/
def keepRegistry (files : SettingsFiles) (resolved : IndexPolicy) : SettingsFiles :=
  if resolved.registry.len ≠ (FieldRegistry.load files.registryFile).len then
    { files with registryFile := some resolved.registry }
  else files

/-- `IndexPolicy::save`: the policy is checked and resolved again.  A failure to do so leaves
`policy.json` as it is, and counts as `unwritten`. -/
def savePolicy {S : Type} (codec : SettingsCodec S) (outcome : SaveOutcome) (policy : IndexPolicy)
    (files : SettingsFiles) : Except String Unit × IndexPolicy × SettingsFiles :=
  match policy.validate with
  | .error e => (.error e, policy, files)
  | .ok () =>
    let policy := policy.resolve files.registryFile
    let files := files.keepRegistry policy
    (outcome.result, policy,
      { files with policyFile := outcome.file files.policyFile (codec.renderPolicy policy) })

inductive LoadFault where
  | unread (error : String)
  /-- after the registry was saved, `policy.json.full` was not written -/
  | fullUnwritten (error : String)
  deriving DecidableEq, Repr

def loadPolicy {S : Type} (codec : SettingsCodec S) (fault : Option LoadFault) (files : SettingsFiles) :
    Except String IndexPolicy × SettingsFiles :=
  match fault with
  | some (.unread e) => (.error e, files)
  | _ =>
    match codec.parsePolicy files.policyFile with
    | .error e => (.error e, files)
    | .ok policy =>
      match policy.validate with
      | .error e => (.error e, files)
      | .ok () =>
        let policy := policy.resolve files.registryFile
        match fault with
        | some (.fullUnwritten e) => (.error e, files.keepRegistry policy)
        | _ => (.ok policy, files.keepRegistry policy)

end SettingsFiles

structure OptionsFaults where
  reindexRunning : Bool
  firstSave : SaveOutcome
  fan : ℕ → Option Bool
  secondSave : SaveOutcome
  back : ℕ → Option Bool

structure PolicyFaults where
  reindexRunning : Bool
  resolve : Option String
  fan : ℕ → Option Bool
  firstSave : SaveOutcome
  back : ℕ → Option Bool
  secondSave : SaveOutcome
  fieldsSave : SaveOutcome

namespace ShardManager

open ShardSettings SettingsFiles ShardHandle AnalyzerSet

variable {S : Type}

def setOptionsAll (codec : SettingsCodec S) (f : OptionsFaults) (options : DatabaseOptions S)
    (m : ShardManager S) : Except String Unit × ShardManager S :=
  if f.reindexRunning then
    (.error "a reindex is running; change the config when it has finished", m)
  else
    match options.search.validate with
    | .error e => (.error e, m)
    | .ok () =>
      let saved (outcome : SaveOutcome) (m : ShardManager S) : ShardManager S :=
        { m with files := { m.files with
            optionsFile := outcome.file m.files.optionsFile (codec.renderOptions options) } }
      let m := saved f.firstSave m
      match f.firstSave.result with
      | .error e => (.error e, m)
      | .ok () =>
        let m := { m with options := options }
        let answers := callAll (setOptions options) f.fan m.shards
        let m := { m with shards := sendAll (setOptions options) f.fan m.shards }
        let (failure, m) :=
          match firstError answers with
          | some e => (some e, m)
          | none =>
            match f.secondSave.result with
            | .error e => (some e, saved f.secondSave m)
            | .ok () => (none, saved f.secondSave m)
        let previous := m.options
        match failure with
        | some e =>
          (.error e, { m with
            shards := sendAll (setOptions previous) f.back m.shards })
        | none => (.ok (), { m with options := options })

def retyped (policy : IndexPolicy) (entry : String × FieldKind) : FieldKind :=
  match policy.fields.find? fun f => f.name = entry.1 with
  | some field => field.kind
  | none => entry.2

def retypedFields (policy : IndexPolicy) (fields : AllFields) : AllFields where
  entries := fields.entries.map fun e => (e.1, retyped policy e)
  ascending := by
    exact List.pairwise_map.mpr fields.ascending

def updateAllFieldsFromPolicy (outcome : SaveOutcome) (m : ShardManager S) :
    Except String Unit × ShardManager S :=
  let updated := retypedFields m.policy m.allFields
  if updated ≠ m.allFields then
    let files := { m.files with allFieldsFile := outcome.file m.files.allFieldsFile updated }
    match outcome.result with
    | .error e => (.error e, { m with files := files })
    | .ok () => (.ok (), { m with files := files, allFields := updated })
  else (.ok (), m)

/-- What `set_policy_all` does with a resolved policy. -/
def setResolvedPolicy (codec : SettingsCodec S) (libs : TextLibraries) (f : PolicyFaults)
    (policy : IndexPolicy) (m : ShardManager S) : Except String (Option String) × ShardManager S :=
  let previous := m.policy
  let answers := callAll (setPolicy policy) f.fan m.shards
  let m := { m with shards := sendAll (setPolicy policy) f.fan m.shards }
  let (failure, policy, m) :=
    match firstError answers with
    | some e => (some e, policy, m)
    | none =>
      match m.files.savePolicy codec f.firstSave policy with
      | (.error e, policy, files) => (some e, policy, { m with files := files })
      | (.ok (), policy, files) => (none, policy, { m with files := files })
  match failure with
  | some e =>
    (.error e, { m with
      shards := sendAll (setPolicy previous) f.back m.shards })
  | none =>
    let changed := m.policy.analyzers ≠ policy.analyzers ∨ m.policy.fields ≠ policy.fields
    match m.files.savePolicy codec f.secondSave policy with
    | (.error e, _, files) => (.error e, { m with files := files })
    | (.ok (), policy, files) =>
      let m := { m with
        files := files
        analyzerSet := fromPolicy libs policy.analyzers
        policy := policy }
      match m.updateAllFieldsFromPolicy f.fieldsSave with
      | (.error e, m) => (.error e, m)
      | (.ok (), m) =>
        (.ok (if changed then
          some "policy changed; reindex required to apply to existing documents" else none), m)

def setPolicyAll (codec : SettingsCodec S) (libs : TextLibraries) (f : PolicyFaults)
    (policy : IndexPolicy) (m : ShardManager S) : Except String (Option String) × ShardManager S :=
  match policy.validate with
  | .error e => (.error e, m)
  | .ok () =>
    if f.reindexRunning then
      (.error "a reindex is running; change the policy when it has finished", m)
    else
      match f.resolve with
      | some e => (.error e, m)
      | none =>
        let policy := policy.resolve m.files.registryFile
        setResolvedPolicy codec libs f policy { m with files := m.files.keepRegistry policy }

/-! ### The life of a manager -/

structure StartFaults where
  policy : Option LoadFault
  options : Option String
  fan : ℕ → Option StartOutcome

def loadOptions (codec : SettingsCodec S) (fault : Option String) (files : SettingsFiles) :
    Except String (DatabaseOptions S) :=
  match fault with
  | some e => .error e
  | none => codec.parseOptions files.optionsFile

def start (codec : SettingsCodec S) (f : StartFaults) (m : ShardManager S) :
    Except String Unit × ShardManager S :=
  let loaded := m.files.loadPolicy codec f.policy
  let m := { m with files := loaded.2 }
  match loaded.1 with
  | .error e => (.error e, m)
  | .ok policy =>
    match loadOptions codec f.options m.files with
    | .error e => (.error e, m)
    | .ok options =>
      let answers := callAll (ShardSettings.start policy options) f.fan m.shards
      let m := { m with
        policy := policy
        options := options
        shards := sendAll (ShardSettings.start policy options) f.fan m.shards }
      match firstError answers with
      | some e => (.error e, m)
      | none => (.ok (), m)

def stop (fan : ℕ → Option StopOutcome) (m : ShardManager S) : Except String Unit × ShardManager S :=
  let answers := callAll ShardSettings.stop fan m.shards
  let m := { m with shards := sendAll ShardSettings.stop fan m.shards }
  match firstError answers with
  | some e => (.error e, m)
  | none => (.ok (), m)

def restart (codec : SettingsCodec S) (fan : ℕ → Option StopOutcome) (f : StartFaults) (m : ShardManager S) :
    Except String Unit × ShardManager S :=
  match m.stop fan with
  | (.error e, m) => (.error e, m)
  | (.ok (), m) => m.start codec f

/-- A manager whose shards were all opened with its settings, and started if `boot`. -/
def opened (libs : TextLibraries) (shardCount : ℕ) (boot : Bool) (policy : IndexPolicy)
    (options : DatabaseOptions S) (allFields : AllFields) (files : SettingsFiles) : ShardManager S where
  shards := List.replicate shardCount (some ⟨policy, options, if boot then some policy else none⟩)
  files := files
  policy := policy
  options := options
  analyzerSet := fromPolicy libs policy.analyzers
  allFields := allFields

/-- `ShardManager::create`; with `fault`, some step of it fails. -/
def create (codec : SettingsCodec S) (libs : TextLibraries) (fault : Option String)
    (options : DatabaseOptions S) (shardCount : ℕ) (registryFile : Option FieldRegistry) :
    Except String (ShardManager S) :=
  if shardCount = 0 then .error "num_shards must be > 0"
  else
    match fault with
    | some e => .error e
    | none =>
      let policy := IndexPolicy.defaultDocument.resolve registryFile
      let files : SettingsFiles := ⟨codec.renderPolicy policy, codec.renderOptions options, registryFile, .empty⟩
      .ok (opened libs shardCount options.bootable policy options .empty (files.keepRegistry policy))

/-- `ShardManager::load`: the shard folders were found to be `shard-0` and on. -/
def load (codec : SettingsCodec S) (libs : TextLibraries) (policyFault : Option LoadFault)
    (fault : Option String) (manualLoad : Bool) (shardCount : ℕ) (files : SettingsFiles) :
    Except String (ShardManager S) :=
  match files.loadPolicy codec policyFault with
  | (.error e, _) => .error e
  | (.ok policy, files) =>
    match loadOptions codec fault files with
    | .error e => .error e
    | .ok options =>
      .ok (opened libs shardCount (options.bootable && manualLoad) policy options files.allFieldsFile files)

end ShardManager
