/-
The analyzers in use.

The manager keeps a set of analyzers beside the policy, for queries; a shard
analyses documents with the policy it has.  They agree (`InUse`) when a
database is created or loaded.  `start` takes a policy from the file, sends it
to the shards and leaves the analyzers of the manager alone; `set_policy_all`
replaces them, but can fail with a shard keeping the new policy.
-/
import Riets.PolicyChange

variable {S : Type}

inductive ManagerStep (S : Type) where
  | start (f : ShardManager.StartFaults)
  | stop (fan : ℕ → Option StopOutcome)
  | restart (fan : ℕ → Option StopOutcome) (f : ShardManager.StartFaults)
  | setPolicyAll (f : PolicyFaults) (policy : IndexPolicy)
  /-- `policy.json` is edited on disk -/
  | edit (text : String)

/-- The shard, and its database if it runs, use the analyzers `set`. -/
def ShardSettings.Uses (libs : TextLibraries) (set : AnalyzerSet) (s : ShardSettings S) : Prop :=
  AnalyzerSet.fromPolicy libs s.policy.analyzers = set ∧
    ∀ p, s.database = some p → AnalyzerSet.fromPolicy libs p.analyzers = set

namespace ShardManager

open ShardHandle AnalyzerSet ShardSettings SettingsFiles

def step (codec : SettingsCodec S) (libs : TextLibraries) (m : ShardManager S) : ManagerStep S → ShardManager S
  | .start f => (m.start codec f).2
  | .stop fan => (m.stop fan).2
  | .restart fan f => (m.restart codec fan f).2
  | .setPolicyAll f policy => (m.setPolicyAll codec libs f policy).2
  | .edit text => { m with files := { m.files with policyFile := text } }

/-- The analyzers of the manager are those of its policy and of the policy of every reachable shard. -/
structure InUse (libs : TextLibraries) (m : ShardManager S) : Prop where
  manager : fromPolicy libs m.policy.analyzers = m.analyzerSet
  shards : ∀ (id : ℕ) s, m.shards[id]? = some (some s) → s.Uses libs m.analyzerSet

def AllStop (fan : ℕ → Option StopOutcome) (shards : List (ShardHandle S)) : Prop :=
  ∀ (id : ℕ) h, shards[id]? = some h →
    ∃ s found, h = some s ∧ fan id = some found ∧ (s.database = none ∨ found = .stops)

def Reads (codec : SettingsCodec S) (f : StartFaults) (files : SettingsFiles) (policy : IndexPolicy)
    (options : DatabaseOptions S) : Prop :=
  f.policy = none ∧ codec.parsePolicy files.policyFile = .ok policy ∧ policy.validate = .ok () ∧
    f.options = none ∧ codec.parseOptions files.optionsFile = .ok options

def StartFaithful (codec : SettingsCodec S) (libs : TextLibraries) (f : StartFaults) (m : ShardManager S) : Prop :=
  ∀ policy options, Reads codec f m.files policy options →
    fromPolicy libs policy.analyzers = m.analyzerSet

/-- A shard that took the policy keeps it, and the manager does not take it: the second save failed, or
something failed before and the shard is there for the rollback and refuses it. -/
def Stays (f : PolicyFaults) (m : ShardManager S) (id : ℕ) : Prop :=
  (AllAccept f.fan m.shards ∧ f.firstSave = .done ∧ f.secondSave ≠ .done) ∨
    (¬ (AllAccept f.fan m.shards ∧ f.firstSave = .done) ∧
      ∃ found', f.back id = some found' ∧ ¬ (found' = false ∧ m.policy.validate = .ok ()))

/-- No shard stays with the policy alone, unless it has the analyzers in use. -/
def PolicyFaithful (libs : TextLibraries) (f : PolicyFaults) (policy : IndexPolicy) (m : ShardManager S) : Prop :=
  policy.validate = .ok () → f.reindexRunning = false → f.resolve = none →
    ∀ (id : ℕ) s, m.shards[id]? = some (some s) → f.fan id = some false → Stays f m id →
      fromPolicy libs policy.analyzers = m.analyzerSet

/-- The operation brings no analyzers into use but those the manager has or takes. -/
def Faithful (codec : SettingsCodec S) (libs : TextLibraries) (m : ShardManager S) : ManagerStep S → Prop
  | .start f => StartFaithful codec libs f m
  | .stop _ => True
  | .restart fan f => AllStop fan m.shards → StartFaithful codec libs f m
  | .setPolicyAll f policy => PolicyFaithful libs f policy m
  | .edit _ => True

/-! ### Starting and stopping -/

theorem keepRegistry_optionsFile (files : SettingsFiles) (policy : IndexPolicy) :
    (files.keepRegistry policy).optionsFile = files.optionsFile := by
  unfold keepRegistry
  split_ifs
  · rfl
  · rfl

theorem loadPolicy_outcome (codec : SettingsCodec S) (fault : Option LoadFault)
    (files : SettingsFiles) :
    (∃ policy, (fault = none ∧ codec.parsePolicy files.policyFile = .ok policy ∧ policy.validate = .ok ()) ∧
        files.loadPolicy codec fault = (.ok (policy.resolve files.registryFile),
            files.keepRegistry (policy.resolve files.registryFile))) ∨
      ((∀ policy, ¬ (fault = none ∧ codec.parsePolicy files.policyFile = .ok policy ∧ policy.validate = .ok ())) ∧
        ∃ e files', files.loadPolicy codec fault = (.error e, files')) := by
  unfold loadPolicy
  cases hparse : codec.parsePolicy files.policyFile with
  | error e =>
    right
    refine ⟨fun policy h => (by cases h.2.1), ?_⟩
    match fault with
    | none => exact ⟨e, files, rfl⟩
    | some (.unread e') => exact ⟨e', files, rfl⟩
    | some (.fullUnwritten _) => exact ⟨e, files, rfl⟩
  | ok policy =>
    cases hvalid : policy.validate with
    | error e =>
      right
      refine ⟨fun p h => ?_, ?_⟩
      · obtain ⟨_, hp, hok⟩ := h
        cases hp
        rw [hvalid] at hok
        cases hok
      · match fault with
        | none => exact ⟨e, files, by simp only [hvalid]⟩
        | some (.unread e') => exact ⟨e', files, rfl⟩
        | some (.fullUnwritten _) => exact ⟨e, files, by simp only [hvalid]⟩
    | ok u =>
      match fault with
      | none => exact .inl ⟨policy, ⟨rfl, rfl, hvalid⟩, by simp only [hvalid]⟩
      | some (.unread e') => exact .inr ⟨fun p h => (by cases h.1), e', files, rfl⟩
      | some (.fullUnwritten e') =>
        exact .inr ⟨fun p h => (by cases h.1), e', _, by simp only [hvalid]; rfl⟩

theorem start_outcome (codec : SettingsCodec S) (f : StartFaults) (m : ShardManager S) :
    (∃ policy options files result, Reads codec f m.files policy options ∧
        m.start codec f = (result, { m with
          files := files
          policy := policy.resolve m.files.registryFile
          options := options
          shards := sendAll
            (ShardSettings.start (policy.resolve m.files.registryFile) options) f.fan m.shards })) ∨
      ((∀ policy options, ¬ Reads codec f m.files policy options) ∧
        ∃ files result, m.start codec f = (result, { m with files := files })) := by
  unfold start
  rcases loadPolicy_outcome codec f.policy m.files with ⟨policy, ⟨hfault, hparse, hvalid⟩, hload⟩ | ⟨hnone, e, files, hload⟩
  · simp only [hload, loadOptions, keepRegistry_optionsFile]
    cases hoptions : f.options with
    | some e =>
      refine .inr ⟨fun p o h => ?_, _, _, rfl⟩
      rw [h.2.2.2.1] at hoptions
      cases hoptions
    | none =>
      cases hparsed : codec.parseOptions m.files.optionsFile with
      | error e =>
        refine .inr ⟨fun p o h => ?_, _, _, rfl⟩
        rw [h.2.2.2.2] at hparsed
        cases hparsed
      | ok options =>
        left
        refine ⟨policy, options, m.files.keepRegistry (policy.resolve m.files.registryFile), ?_⟩
        cases hfirst : firstError (callAll
          (ShardSettings.start (policy.resolve m.files.registryFile) options) f.fan m.shards) with
        | none => exact ⟨.ok (), ⟨hfault, hparse, hvalid, hoptions, hparsed⟩, by simp only [hfirst]⟩
        | some e => exact ⟨.error e, ⟨hfault, hparse, hvalid, hoptions, hparsed⟩, by simp only [hfirst]⟩
  · simp only [hload]
    exact .inr ⟨fun p o h => hnone p ⟨h.1, h.2.1, h.2.2.1⟩, files, .error e, rfl⟩

variable {codec : SettingsCodec S} {libs : TextLibraries} {f : PolicyFaults} {policy : IndexPolicy}
  {m : ShardManager S}

theorem uses_start_iff {set : AnalyzerSet}
    {options : DatabaseOptions S} {s : ShardSettings S} (outcome : StartOutcome) (h : s.Uses libs set) :
    (ShardSettings.start policy options outcome s).2.Uses libs set ↔
      fromPolicy libs policy.analyzers = set := by
  unfold ShardSettings.start
  cases hdatabase : s.database with
  | some p =>
    have hp := h.2 p hdatabase
    simp [Uses, hp]
  | none =>
    cases outcome with
    | opens => simp [Uses]
    | fails e => simp [Uses]

theorem uses_stop {set : AnalyzerSet} {s : ShardSettings S} (outcome : StopOutcome)
    (h : s.Uses libs set) : (ShardSettings.stop outcome s).2.Uses libs set := by
  unfold ShardSettings.stop
  cases hdatabase : s.database with
  | none => exact h
  | some p =>
    cases outcome with
    | stops => exact ⟨h.1, fun _ hp => by cases hp⟩
    | early e => exact h
    | late e => exact ⟨h.1, fun _ hp => by cases hp⟩

theorem inUse_start_iff {f : StartFaults} (h : InUse libs m) :
    InUse libs (m.start codec f).2 ↔ StartFaithful codec libs f m := by
  rcases start_outcome codec f m with ⟨policy, options, files, result, hreads, heq⟩ | ⟨hnone, files, result, heq⟩
  · rw [heq]
    constructor
    · intro h' policy' options' hreads'
      obtain rfl : policy = policy' := Except.ok.inj (hreads.2.1.symm.trans hreads'.2.1)
      exact h'.manager
    · intro hfaithful
      have hset := hfaithful policy options hreads
      refine ⟨hset, forall_sendAll_iff.mpr fun id s found hat _ => ?_⟩
      exact (uses_start_iff found (h.shards id s hat)).mpr hset
  · rw [heq]
    exact iff_of_true ⟨h.manager, h.shards⟩ fun policy options hreads => absurd hreads (hnone policy options)

theorem stop_snd (fan : ℕ → Option StopOutcome) (m : ShardManager S) :
    (m.stop fan).2 = { m with shards := sendAll ShardSettings.stop fan m.shards } := by
  unfold stop
  cases hfirst : firstError (callAll ShardSettings.stop fan m.shards) with
  | none => simp only [hfirst]
  | some e => simp only [hfirst]

theorem inUse_stop (fan : ℕ → Option StopOutcome) (h : InUse libs m) : InUse libs (m.stop fan).2 := by
  rw [stop_snd]
  refine ⟨h.manager, forall_sendAll_iff.mpr fun id s found hat _ => ?_⟩
  exact uses_stop found (h.shards id s hat)

theorem stop_ok_iff {fan : ℕ → Option StopOutcome} : (m.stop fan).1 = .ok () ↔ AllStop fan m.shards := by
  have hnone : (m.stop fan).1 = .ok () ↔ firstError (callAll ShardSettings.stop fan m.shards) = none := by
    unfold stop
    cases hfirst : firstError (callAll ShardSettings.stop fan m.shards) with
    | none => simp [hfirst]
    | some e => simp [hfirst]
  have hone : ∀ (s : ShardSettings S) found,
      (ShardSettings.stop found s).1 = .ok () ↔ s.database = none ∨ found = .stops := by
    intro s found
    unfold ShardSettings.stop
    cases s.database with
    | none => simp
    | some p =>
      cases found with
      | stops => simp
      | early e => simp
      | late e => simp
  rw [hnone, firstError_callAll_eq_none]
  refine forall_congr' fun id => forall_congr' fun handle => imp_congr_right fun _ => ?_
  rw [call_ok]
  simp only [hone]

theorem inUse_restart_iff {fan : ℕ → Option StopOutcome} {f : StartFaults} (h : InUse libs m) :
    InUse libs (m.restart codec fan f).2 ↔ (AllStop fan m.shards → StartFaithful codec libs f m) := by
  have hstopped := inUse_stop fan h
  have hsame : StartFaithful codec libs f (m.stop fan).2 ↔ StartFaithful codec libs f m := by
    rw [stop_snd]
    exact Iff.rfl
  unfold restart
  rcases hstop : m.stop fan with ⟨answer, m'⟩
  rw [hstop] at hstopped hsame
  cases answer with
  | error e =>
    refine iff_of_true hstopped fun hall => ?_
    rw [← stop_ok_iff, hstop] at hall
    cases hall
  | ok u =>
    have hall : AllStop fan m.shards := stop_ok_iff.mp (by rw [hstop])
    rw [inUse_start_iff hstopped, hsame]
    exact ⟨fun hfaithful _ => hfaithful, fun hfaithful => hfaithful hall⟩

theorem uses_use_iff {set : AnalyzerSet} {s : ShardSettings S} :
    (s.use policy).Uses libs set ↔ fromPolicy libs policy.analyzers = set := by
  unfold Uses use
  constructor
  · intro h
    exact h.1
  · intro h
    refine ⟨h, fun p hp => ?_⟩
    obtain ⟨q, _, rfl⟩ := Option.map_eq_some_iff.mp hp
    exact h

theorem inUse_rolledBack_iff (hvalid : policy.validate = .ok ()) {file : String} (h : InUse libs m)
    (hfailed : ¬ (AllAccept f.fan m.shards ∧ f.firstSave = .done)) :
    InUse libs (m.policyRolledBack f policy file) ↔
      ∀ (id : ℕ) s, m.shards[id]? = some (some s) → f.fan id = some false → Stays f m id →
        fromPolicy libs policy.analyzers = m.analyzerSet := by
  have hshards : InUse libs (m.policyRolledBack f policy file) ↔
      ∀ (id : ℕ) s found found', m.shards[id]? = some (some s) → f.fan id = some found →
        f.back id = some found' →
        (setPolicy m.policy found' (setPolicy policy found s).2).2.Uses libs m.analyzerSet := by
    constructor
    · intro h' id s found found' hat hfound hfound'
      exact h'.shards id _ (sendAll_eq_some.mpr
        ⟨_, found', sendAll_eq_some.mpr ⟨s, found, hat, hfound, rfl⟩, hfound', rfl⟩)
    · intro h'
      refine ⟨h.manager, fun id s' hat => ?_⟩
      obtain ⟨s₁, found', hat₁, hfound', rfl⟩ := sendAll_eq_some.mp hat
      obtain ⟨s, found, hat₀, hfound, rfl⟩ := sendAll_eq_some.mp hat₁
      exact h' id s found found' hat₀ hfound hfound'
  rw [hshards]
  simp only [setPolicy_setPolicy hvalid]
  constructor
  · intro h' id s hat hfound hstays
    rcases hstays with ⟨haccepted, hfirst, _⟩ | ⟨_, found', hfound', hrefused⟩
    · exact absurd ⟨haccepted, hfirst⟩ hfailed
    · have := h' id s false found' hat hfound hfound'
      rw [if_neg hrefused, if_pos rfl] at this
      exact uses_use_iff.mp this
  · intro h' id s found found' hat hfound hfound'
    split_ifs with hback hnew
    · exact uses_use_iff.mpr h.manager
    · subst hnew
      exact uses_use_iff.mpr (h' id s hat hfound (.inr ⟨hfailed, found', hfound', hback⟩))
    · exact h.shards id s hat

theorem PolicyOutcome.inUse_iff (hvalid : policy.validate = .ok ()) (h : InUse libs m)
    {r : Except String (Option String) × ShardManager S} (hr : PolicyOutcome codec libs f policy m r) :
    InUse libs r.2 ↔
      ∀ (id : ℕ) s, m.shards[id]? = some (some s) → f.fan id = some false → Stays f m id →
        fromPolicy libs policy.analyzers = m.analyzerSet := by
  cases hr with
  | refused refuses e => exact inUse_rolledBack_iff hvalid h fun hfine => refuses hfine.1
  | unwritten accepted first => exact inUse_rolledBack_iff hvalid h fun hfine => by simp [first] at hfine
  | unsynced accepted first => exact inUse_rolledBack_iff hvalid h fun hfine => by simp [first] at hfine
  | second accepted first second e =>
    constructor
    · intro h' id s hat hfound _
      have := forall_sendAll_iff.mp h'.shards id s false hat hfound
      rw [setPolicy_snd_of_taken ⟨rfl, hvalid⟩] at this
      exact uses_use_iff.mp this
    · intro h'
      refine ⟨h.manager, forall_sendAll_iff.mpr fun id s found hat hfound => ?_⟩
      obtain rfl : false = found := Option.some.inj ((accepted id (some s) hat).2.symm.trans hfound)
      rw [setPolicy_snd_of_taken ⟨rfl, hvalid⟩]
      exact uses_use_iff.mpr (h' id s hat hfound (.inl ⟨accepted, first, second⟩))
  | swapped accepted first second result files fields file fine =>
    -- the manager and all shards have the new policy
    refine iff_of_true ⟨rfl, forall_sendAll_iff.mpr fun id s found hat hfound => ?_⟩ ?_
    · obtain rfl : false = found := Option.some.inj ((accepted id (some s) hat).2.symm.trans hfound)
      rw [setPolicy_snd_of_taken ⟨rfl, hvalid⟩]
      exact uses_use_iff.mpr rfl
    · rintro id s _ _ (⟨_, _, hsecond⟩ | ⟨hfailed, _⟩)
      · exact absurd second hsecond
      · exact absurd ⟨accepted, first⟩ hfailed

theorem inUse_setPolicyAll_iff (h : InUse libs m) :
    InUse libs (m.setPolicyAll codec libs f policy).2 ↔ PolicyFaithful libs f policy m := by
  by_cases hbegun : policy.validate ≠ .ok () ∨ f.reindexRunning = true ∨ f.resolve ≠ none
  · rw [setPolicyAll_of_not_begun codec libs hbegun]
    refine iff_of_true h fun hvalid hreindex hresolve => ?_
    simp [hvalid, hreindex, hresolve] at hbegun
  · obtain ⟨hvalid, hreindex, hresolve⟩ :
        policy.validate = .ok () ∧ ¬ f.reindexRunning = true ∧ f.resolve = none := by
      simpa only [not_or, not_not, ne_eq] using hbegun
    have hfaithful : PolicyFaithful libs f policy m ↔
        ∀ (id : ℕ) s, m.shards[id]? = some (some s) → f.fan id = some false → Stays f m id →
          fromPolicy libs policy.analyzers = m.analyzerSet := by
      unfold PolicyFaithful
      simp only [hvalid, hreindex, hresolve, forall_const]
    have hresolved : (policy.resolve m.files.registryFile).validate = .ok () :=
      (policy.validate_resolve m.files.registryFile).trans hvalid
    have hkept : InUse libs
        { m with files := m.files.keepRegistry (policy.resolve m.files.registryFile) } := ⟨h.manager, h.shards⟩
    rw [hfaithful]
    exact (setPolicyAll_of_begun codec libs (m := m) hvalid hreindex hresolve).inUse_iff hresolved hkept

/-! ### Runs -/

theorem inUse_step_iff (h : InUse libs m) (st : ManagerStep S) :
    InUse libs (m.step codec libs st) ↔ Faithful codec libs m st := by
  cases st with
  | start f => exact inUse_start_iff h
  | stop fan => exact iff_of_true (inUse_stop fan h) trivial
  | restart fan f => exact inUse_restart_iff h
  | setPolicyAll f policy => exact inUse_setPolicyAll_iff h
  | edit text => exact iff_of_true ⟨h.manager, h.shards⟩ trivial

theorem inUse_opened (libs : TextLibraries) (shardCount : ℕ) (boot : Bool) (policy : IndexPolicy)
    (options : DatabaseOptions S) (allFields : AllFields) (files : SettingsFiles) :
    InUse libs (opened libs shardCount boot policy options allFields files) := by
  refine ⟨rfl, fun id s hat => ?_⟩
  obtain ⟨_, hs⟩ := List.getElem?_eq_some_iff.mp hat
  simp only [opened, List.getElem_replicate, Option.some.injEq] at hs
  subst hs
  refine ⟨rfl, fun p hp => ?_⟩
  cases boot with
  | true => cases hp; rfl
  | false => cases hp

def Initial (codec : SettingsCodec S) (libs : TextLibraries) (m : ShardManager S) : Prop :=
  (∃ fault options shardCount registryFile, create codec libs fault options shardCount registryFile = .ok m) ∨
    ∃ policyFault fault manualLoad shardCount files,
      load codec libs policyFault fault manualLoad shardCount files = .ok m

theorem Initial.inUse (h : Initial codec libs m) : InUse libs m := by
  rcases h with ⟨fault, options, shardCount, registryFile, h⟩ | ⟨policyFault, fault, manualLoad, shardCount, files, h⟩
  · unfold create at h
    split at h
    · cases h
    · split at h
      · cases h
      · cases h
        exact inUse_opened ..
  · unfold load at h
    split at h
    · cases h
    · split at h
      · cases h
      · cases h
        exact inUse_opened ..

def AlwaysInUse (codec : SettingsCodec S) (libs : TextLibraries) (m : ShardManager S) : List (ManagerStep S) → Prop
  | [] => InUse libs m
  | st :: run => InUse libs m ∧ AlwaysInUse codec libs (m.step codec libs st) run

def AllFaithful (codec : SettingsCodec S) (libs : TextLibraries) (m : ShardManager S) : List (ManagerStep S) → Prop
  | [] => True
  | st :: run => Faithful codec libs m st ∧ AllFaithful codec libs (m.step codec libs st) run

theorem alwaysInUse_head {run : List (ManagerStep S)} (h : AlwaysInUse codec libs m run) : InUse libs m := by
  cases run with
  | nil => exact h
  | cons st run => exact h.1

theorem alwaysInUse_iff (h : InUse libs m) (run : List (ManagerStep S)) :
    AlwaysInUse codec libs m run ↔ AllFaithful codec libs m run := by
  induction run generalizing m with
  | nil => exact iff_of_true h trivial
  | cons st run ih =>
    have hstep := @inUse_step_iff _ codec _ _ h st
    constructor
    · rintro ⟨_, hrest⟩
      have hnext := alwaysInUse_head hrest
      exact ⟨hstep.mp hnext, (ih hnext).mp hrest⟩
    · rintro ⟨hst, hrest⟩
      exact ⟨h, (ih (hstep.mpr hst)).mpr hrest⟩

/-- Along every run of a manager the analyzers agree with the policies in use just when all its
operations are faithful. -/
theorem inUse_run_iff (codec : SettingsCodec S) (libs : TextLibraries) {m : ShardManager S}
    (h : Initial codec libs m) (run : List (ManagerStep S)) :
    AlwaysInUse codec libs m run ↔ AllFaithful codec libs m run :=
  alwaysInUse_iff h.inUse run

/-! ### A policy edited between a stop and a start -/

/-- `policy.json` after the edit: one field, and a default analyzer that does not split. -/
def keywordText : String :=
  "\x7b\"analyzers\": \x7b\"$default\": \x7b\"tokenizer\": \"keyword\"\x7d\x7d, " ++
    "\"document\": \x7b\"id\": \"id_auto\"\x7d\x7d"

def keywordPolicy : IndexPolicy :=
  .new (SortedMap.empty.insert "$default" { AnalyzerConfig.default with tokenizer := .keyword })
    [.new "id" .idAuto]

def keywordCodec : SettingsCodec Unit where
  renderPolicy p := ", ".intercalate (p.fields.map (·.name))
  parsePolicy text := if text = keywordText then .ok keywordPolicy else .error "policy must be a JSON object"
  renderOptions o := if o.bootable then "bootable = true" else "bootable = false"
  parseOptions text := .ok ⟨text = "bootable = true", ⟨[]⟩, ()⟩

def plainLibraries : TextLibraries := ⟨fun _ => none, fun _ => true⟩

def created : ShardManager Unit :=
  let policy := IndexPolicy.defaultDocument.resolve none
  let files : SettingsFiles := ⟨keywordCodec.renderPolicy policy, "bootable = true", none, .empty⟩
  opened plainLibraries 1 true policy ⟨true, ⟨[]⟩, ()⟩ .empty (files.keepRegistry policy)

theorem initial_created : Initial keywordCodec plainLibraries created :=
  .inl ⟨none, ⟨true, ⟨[]⟩, ()⟩, 1, none, rfl⟩

/-- Every shard takes the policy, and it is saved. -/
def noFaults : PolicyFaults := ⟨false, none, fun _ => some false, .done, fun _ => some false, .done, .done⟩

/-- The policy is replaced, and the text that is read when the shards start again says the same. -/
theorem inUse_run_iff_edit : AlwaysInUse keywordCodec plainLibraries created
    [.setPolicyAll noFaults keywordPolicy, .stop fun _ => some .stops, .edit keywordText,
      .start ⟨none, none, fun _ => some .opens⟩] := by
  refine (inUse_run_iff keywordCodec plainLibraries initial_created _).mpr ⟨?_, trivial, trivial, ?_, trivial⟩
  · rintro - - - id s hs - (⟨-, -, hfails⟩ | ⟨hfails, -⟩)
    · exact absurd rfl hfails
    · refine absurd ⟨fun id h hid => ⟨?_, rfl⟩, rfl⟩ hfails
      obtain rfl : h = _ := List.eq_of_mem_replicate (List.mem_of_getElem? hid)
      exact Option.some_ne_none _
  · rintro policy options ⟨-, hparse, -⟩
    obtain rfl : keywordPolicy = policy := by simpa [keywordCodec, step] using hparse
    decide

/-- After the start the manager has the new policy and still the old analyzers. -/
theorem inUse_run_edited :
    Initial keywordCodec plainLibraries created ∧
      ¬ AlwaysInUse keywordCodec plainLibraries created
        [.stop fun _ => some .stops, .edit keywordText, .start ⟨none, none, fun _ => some .opens⟩] := by
  refine ⟨initial_created, fun h => ?_⟩
  have hset := h.2.2.2.manager
  have htokenizer := congrArg (fun set => set.default.tokenizer) hset
  revert htokenizer
  decide

end ShardManager
