/-
What a failed change of the settings leaves behind.

A change of the options or of the policy is sent to all shards at once; when
one of them refuses, or a file cannot be saved, every shard is sent the value
the manager holds.  For the policy that is the previous one.  For the options
it is already the new one: the manager takes it, and `config.toml` is replaced,
before the shards are asked.
-/
import Riets.PolicyChange

variable {S : Type}

namespace ShardManager

open ShardSettings ShardHandle

/-! ### Options -/

/-- The options are what they were, in the manager, its file and every shard that is still there. -/
structure SameOptions (m m' : ShardManager S) : Prop where
  manager : m'.options = m.options
  file : m'.files.optionsFile = m.files.optionsFile
  shards : ∀ (id : ℕ) s s', m.shards[id]? = some (some s) → m'.shards[id]? = some (some s') →
    s'.options = s.options

/-- The options are already those of the manager, of the file and of every shard that takes them. -/
structure OptionsInForce (codec : SettingsCodec S) (f : OptionsFaults) (options : DatabaseOptions S)
    (m : ShardManager S) : Prop where
  manager : options = m.options
  file : codec.renderOptions options = m.files.optionsFile
  shards : ∀ (id : ℕ) s found found', m.shards[id]? = some (some s) → f.fan id = some found →
    f.back id = some found' → found = false ∨ found' = false → options = s.options

/-- Nothing fails once the file was replaced, or the options were in force before. -/
def OptionsKept (codec : SettingsCodec S) (f : OptionsFaults) (options : DatabaseOptions S)
    (m : ShardManager S) : Prop :=
  f.reindexRunning = true ∨ options.search.validate ≠ .ok () ∨
    match f.firstSave with
    | .unwritten _ => True
    | .unsynced _ => codec.renderOptions options = m.files.optionsFile
    | .done => (AllAccept f.fan m.shards ∧ f.secondSave = .done) ∨ OptionsInForce codec f options m

theorem SameOptions.refl (m : ShardManager S) : SameOptions m m :=
  ⟨rfl, rfl, fun id s s' hat hat' => by rw [hat] at hat'; cases hat'; rfl⟩

/-- The manager after a rollback: every shard was sent the new options twice. -/
def optionsRolledBack (codec : SettingsCodec S) (f : OptionsFaults) (options : DatabaseOptions S)
    (m : ShardManager S) : ShardManager S :=
  { m with
    files := { m.files with optionsFile := codec.renderOptions options }
    options := options
    shards := sendAll (setOptions options) f.back
      (sendAll (setOptions options) f.fan m.shards) }

theorem sameOptions_rolledBack_iff (codec : SettingsCodec S) (f : OptionsFaults) (options : DatabaseOptions S)
    (m : ShardManager S) :
    SameOptions m (m.optionsRolledBack codec f options) ↔ OptionsInForce codec f options m := by
  have hshards := @sendAll_sendAll_iff _ _ _ (setOptions options) f.fan m.shards
    (setOptions options) f.back fun s s' => s'.options = s.options
  simp only [setOptions_setOptions_options] at hshards
  constructor
  · intro h
    refine ⟨h.manager, h.file, fun id s found found' hat hfound hfound' htaken => ?_⟩
    have := hshards.mp h.shards id s found found' hat hfound hfound'
    rwa [if_pos htaken] at this
  · intro h
    refine ⟨h.manager, h.file, hshards.mpr fun id s found found' hat hfound hfound' => ?_⟩
    split_ifs with htaken
    · exact h.shards id s found found' hat hfound hfound' htaken
    · rfl

theorem setOptionsAll_of_saved (codec : SettingsCodec S) {f : OptionsFaults} {options : DatabaseOptions S}
    {m : ShardManager S} (hreindex : ¬ f.reindexRunning = true) (hvalid : options.search.validate = .ok ())
    (hsave : f.firstSave = .done) :
    ((AllAccept f.fan m.shards ∧ f.secondSave = .done) ∧ (m.setOptionsAll codec f options).1 = .ok ()) ∨
      (¬ (AllAccept f.fan m.shards ∧ f.secondSave = .done) ∧
        ∃ e, m.setOptionsAll codec f options = (.error e, m.optionsRolledBack codec f options)) := by
  unfold setOptionsAll
  rw [if_neg hreindex, hvalid, hsave]
  cases herror : firstError (callAll (setOptions options) f.fan m.shards) with
  | some e =>
    have hrefused : ¬ AllAccept f.fan m.shards := fun h => by
      rw [(firstError_callAll_accept setOptions_ok).mpr h] at herror
      cases herror
    refine .inr ⟨fun h => hrefused h.1, e, ?_⟩
    simp only [SaveOutcome.result, SaveOutcome.file, herror]
    rfl
  | none =>
    have haccepted := (firstError_callAll_accept setOptions_ok).mp herror
    cases hsecond : f.secondSave with
    | done =>
      refine .inl ⟨⟨haccepted, rfl⟩, ?_⟩
      simp only [SaveOutcome.result, herror]
    | unwritten e =>
      refine .inr ⟨fun h => (by cases h.2), e, ?_⟩
      simp only [SaveOutcome.result, SaveOutcome.file, herror]
      rfl
    | unsynced e =>
      refine .inr ⟨fun h => (by cases h.2), e, ?_⟩
      simp only [SaveOutcome.result, SaveOutcome.file, herror]
      rfl

theorem setOptionsAll_kept_iff (codec : SettingsCodec S) (f : OptionsFaults) (options : DatabaseOptions S)
    (m : ShardManager S) :
    (∀ e, (m.setOptionsAll codec f options).1 = .error e → SameOptions m (m.setOptionsAll codec f options).2) ↔
      OptionsKept codec f options m := by
  by_cases hreindex : f.reindexRunning = true
  · refine iff_of_true ?_ (.inl hreindex)
    rw [setOptionsAll, if_pos hreindex]
    exact fun _ _ => .refl m
  cases hvalid : options.search.validate with
  | error error =>
    refine iff_of_true ?_ (.inr (.inl (by simp [hvalid])))
    rw [setOptionsAll, if_neg hreindex, hvalid]
    exact fun _ _ => .refl m
  | ok u =>
    have hkept : OptionsKept codec f options m ↔ match f.firstSave with
        | .unwritten _ => True
        | .unsynced _ => codec.renderOptions options = m.files.optionsFile
        | .done => (AllAccept f.fan m.shards ∧ f.secondSave = .done) ∨ OptionsInForce codec f options m := by
      unfold OptionsKept
      simp only [hreindex, hvalid, ne_eq, not_true_eq_false, false_or, Bool.false_eq_true]
    rw [hkept]
    cases hsave : f.firstSave with
    | unwritten error =>
      refine iff_of_true ?_ trivial
      rw [setOptionsAll, if_neg hreindex, hvalid, hsave]
      exact fun _ _ => .refl m
    | unsynced error =>
      rw [setOptionsAll, if_neg hreindex, hvalid, hsave]
      constructor
      · intro h
        exact (h error rfl).file
      · intro h _ _
        exact ⟨rfl, h, (SameOptions.refl m).shards⟩
    | done =>
      rcases setOptionsAll_of_saved codec hreindex hvalid hsave with ⟨hfine, hok⟩ | ⟨hfailed, error, heq⟩
      · refine iff_of_true (fun e he => ?_) (.inl hfine)
        rw [hok] at he
        cases he
      · rw [heq]
        have hrolled := sameOptions_rolledBack_iff codec f options m
        constructor
        · intro h
          exact .inr (hrolled.mp (h error rfl))
        · rintro (hfine | hforce) _ _
          · exact absurd hfine hfailed
          · exact hrolled.mpr hforce

/-! ### Policies -/

/-- The policy is what it was, in the manager, its file and every shard that is still there. -/
structure SamePolicies (m m' : ShardManager S) : Prop where
  manager : m'.policy = m.policy
  file : m'.files.policyFile = m.files.policyFile
  shards : ∀ (id : ℕ) s s', m.shards[id]? = some (some s) → m'.shards[id]? = some (some s') → s.SamePolicy s'

theorem SamePolicies.refl (m : ShardManager S) : SamePolicies m m :=
  ⟨rfl, rfl, fun id s s' hat hat' => by rw [hat] at hat'; cases hat'; exact ⟨rfl, rfl⟩⟩

/-- Sending `policy` and then `previous` leaves every shard that is still there with the policy it had. -/
def RollbackRestores (f : PolicyFaults) (policy : IndexPolicy) (m : ShardManager S) : Prop :=
  ∀ (id : ℕ) s found found', m.shards[id]? = some (some s) → f.fan id = some found →
    f.back id = some found' →
    (found' = false ∧ m.policy.validate = .ok () → s.Holds m.policy) ∧
      (¬ (found' = false ∧ m.policy.validate = .ok ()) → found = false → s.Holds policy)

structure PolicyInForce (codec : SettingsCodec S) (policy : IndexPolicy) (m : ShardManager S) : Prop where
  file : codec.renderPolicy policy = m.files.policyFile
  shards : ∀ (id : ℕ) s, m.shards[id]? = some (some s) → s.Holds policy

/-- When the change of a resolved policy leaves things as they were, should it fail. -/
inductive ResolvedKept (codec : SettingsCodec S) (f : PolicyFaults) (policy : IndexPolicy)
    (m : ShardManager S) : Prop
  | fine (accepted : AllAccept f.fan m.shards) (first : f.firstSave = .done) (second : f.secondSave = .done)
      (fields : f.fieldsSave = .done ∨ retypedFields policy m.allFields = m.allFields)
  | refused (refuses : ¬ AllAccept f.fan m.shards) (restores : RollbackRestores f policy m)
  | unwritten (accepted : AllAccept f.fan m.shards) {error : String} (first : f.firstSave = .unwritten error)
      (restores : RollbackRestores f policy m)
  | unsynced (accepted : AllAccept f.fan m.shards) {error : String} (first : f.firstSave = .unsynced error)
      (file : codec.renderPolicy policy = m.files.policyFile) (restores : RollbackRestores f policy m)
  | second (accepted : AllAccept f.fan m.shards) (first : f.firstSave = .done) (second : f.secondSave ≠ .done)
      (force : PolicyInForce codec policy m)
  | fields (accepted : AllAccept f.fan m.shards) (first : f.firstSave = .done) (second : f.secondSave = .done)
      (manager : policy = m.policy) (force : PolicyInForce codec policy m)

section Regimes

variable {codec : SettingsCodec S} {f : PolicyFaults} {policy : IndexPolicy} {m : ShardManager S}

theorem resolvedKept_refused (hrefused : ¬ AllAccept f.fan m.shards) :
    ResolvedKept codec f policy m ↔ RollbackRestores f policy m := by
  constructor
  · intro h
    cases h with
    | refused _ restores => exact restores
    | _ => contradiction
  · exact .refused hrefused

variable (haccepted : AllAccept f.fan m.shards)
include haccepted

theorem resolvedKept_unwritten {error : String} (hfirst : f.firstSave = .unwritten error) :
    ResolvedKept codec f policy m ↔ RollbackRestores f policy m := by
  constructor
  · intro h
    cases h with
    | refused refuses => contradiction
    | unwritten _ _ restores => exact restores
    | _ => simp_all
  · exact .unwritten haccepted hfirst

theorem resolvedKept_unsynced {error : String} (hfirst : f.firstSave = .unsynced error) :
    ResolvedKept codec f policy m ↔
      codec.renderPolicy policy = m.files.policyFile ∧ RollbackRestores f policy m := by
  constructor
  · intro h
    cases h with
    | refused refuses => contradiction
    | unsynced _ _ file restores => exact ⟨file, restores⟩
    | _ => simp_all
  · exact fun h => .unsynced haccepted hfirst h.1 h.2

theorem resolvedKept_second (hfirst : f.firstSave = .done) (hsecond : f.secondSave ≠ .done) :
    ResolvedKept codec f policy m ↔ PolicyInForce codec policy m := by
  constructor
  · intro h
    cases h with
    | refused refuses => contradiction
    | second _ _ _ force => exact force
    | _ => simp_all
  · exact .second haccepted hfirst hsecond

theorem resolvedKept_fields (hfirst : f.firstSave = .done) (hsecond : f.secondSave = .done)
    (hfields : ¬ (f.fieldsSave = .done ∨ retypedFields policy m.allFields = m.allFields)) :
    ResolvedKept codec f policy m ↔ policy = m.policy ∧ PolicyInForce codec policy m := by
  constructor
  · intro h
    cases h with
    | refused refuses => contradiction
    | fine _ _ _ fields => exact absurd fields hfields
    | fields _ _ _ manager force => exact ⟨manager, force⟩
    | _ => simp_all
  · exact fun h => .fields haccepted hfirst hsecond h.1 h.2

end Regimes

/-- The change is not begun, or what it does leaves things as they were should it fail. -/
def PolicyKept (codec : SettingsCodec S) (f : PolicyFaults) (policy : IndexPolicy) (m : ShardManager S) : Prop :=
  policy.validate ≠ .ok () ∨ f.reindexRunning = true ∨ f.resolve ≠ none ∨
    ResolvedKept codec f (policy.resolve m.files.registryFile) m

theorem samePolicy_rolledBack_iff {policy previous : IndexPolicy} (hvalid : policy.validate = .ok ())
    (found found' : Bool) (s : ShardSettings S) :
    s.SamePolicy (setPolicy previous found' (setPolicy policy found s).2).2 ↔
      (found' = false ∧ previous.validate = .ok () → s.Holds previous) ∧
        (¬ (found' = false ∧ previous.validate = .ok ()) → found = false → s.Holds policy) := by
  rw [setPolicy_setPolicy hvalid]
  by_cases hback : found' = false ∧ previous.validate = .ok ()
  · rw [if_pos hback, samePolicy_use_iff]
    exact ⟨fun h => ⟨fun _ => h, fun hrefused => absurd hback hrefused⟩, fun h => h.1 hback⟩
  · rw [if_neg hback]
    split_ifs with hnew
    · rw [samePolicy_use_iff]
      exact ⟨fun h => ⟨fun htaken => absurd htaken hback, fun _ _ => h⟩, fun h => h.2 hback hnew⟩
    · exact iff_of_true ⟨rfl, rfl⟩ ⟨fun h => absurd h hback, fun _ h => absurd h hnew⟩

theorem samePolicies_rolledBack_iff {f : PolicyFaults} {policy : IndexPolicy} (hvalid : policy.validate = .ok ())
    {file : String} {m : ShardManager S} :
    SamePolicies m (m.policyRolledBack f policy file) ↔
      file = m.files.policyFile ∧ RollbackRestores f policy m := by
  have hshards := @sendAll_sendAll_iff _ _ _ (setPolicy policy) f.fan m.shards
    (setPolicy m.policy) f.back SamePolicy
  constructor
  · intro h
    refine ⟨h.file, fun id s found found' hat hfound hfound' => ?_⟩
    have := hshards.mp h.shards id s found found' hat hfound hfound'
    exact (samePolicy_rolledBack_iff hvalid found found' s).mp this
  · rintro ⟨hfile, hrestores⟩
    refine ⟨rfl, hfile, hshards.mpr fun id s found found' hat hfound hfound' => ?_⟩
    exact (samePolicy_rolledBack_iff hvalid found found' s).mpr
      (hrestores id s found found' hat hfound hfound')

theorem samePolicies_sent_iff (codec : SettingsCodec S) {f : PolicyFaults} {policy : IndexPolicy}
    (hvalid : policy.validate = .ok ()) {m m' : ShardManager S} (haccepted : AllAccept f.fan m.shards)
    (hfile : m'.files.policyFile = codec.renderPolicy policy)
    (hsent : m'.shards = sendAll (setPolicy policy) f.fan m.shards) :
    SamePolicies m m' ↔ m'.policy = m.policy ∧ PolicyInForce codec policy m := by
  have hshards := @sendAll_iff _ _ (setPolicy policy) f.fan m.shards SamePolicy
  constructor
  · intro h
    have hkept := h.shards
    rw [hsent] at hkept
    refine ⟨h.manager, hfile ▸ h.file, fun id s hat => ?_⟩
    have := hshards.mp hkept id s false hat (haccepted id (some s) hat).2
    rw [setPolicy_snd_of_taken ⟨rfl, hvalid⟩] at this
    exact samePolicy_use_iff.mp this
  · rintro ⟨hmanager, hforce⟩
    refine ⟨hmanager, hfile.trans hforce.file, ?_⟩
    rw [hsent]
    refine hshards.mpr fun id s found hat hfound => ?_
    obtain rfl : false = found := Option.some.inj ((haccepted id (some s) hat).2.symm.trans hfound)
    rw [setPolicy_snd_of_taken ⟨rfl, hvalid⟩]
    exact samePolicy_use_iff.mpr (hforce.shards id s hat)

theorem PolicyOutcome.kept_iff {codec : SettingsCodec S} {libs : TextLibraries} {f : PolicyFaults}
    {policy : IndexPolicy} {m : ShardManager S} (hvalid : policy.validate = .ok ())
    {r : Except String (Option String) × ShardManager S} (h : PolicyOutcome codec libs f policy m r) :
    (∀ e, r.1 = .error e → SamePolicies m r.2) ↔ ResolvedKept codec f policy m := by
  cases h with
  | refused refuses e =>
    have hrolled := @samePolicies_rolledBack_iff _ f _ hvalid m.files.policyFile m
    rw [resolvedKept_refused refuses]
    constructor
    · intro h
      exact (hrolled.mp (h e rfl)).2
    · intro h _ _
      exact hrolled.mpr ⟨rfl, h⟩
  | @unwritten accepted e first =>
    have hrolled := @samePolicies_rolledBack_iff _ f _ hvalid m.files.policyFile m
    rw [resolvedKept_unwritten accepted first]
    constructor
    · intro h
      exact (hrolled.mp (h e rfl)).2
    · intro h _ _
      exact hrolled.mpr ⟨rfl, h⟩
  | @unsynced accepted e first =>
    have hrolled := @samePolicies_rolledBack_iff _ f _ hvalid (codec.renderPolicy policy) m
    rw [resolvedKept_unsynced accepted first]
    constructor
    · intro h
      exact hrolled.mp (h e rfl)
    · intro h _ _
      exact hrolled.mpr h
  | second accepted first second e =>
    have hsent : SamePolicies m (m.policySent codec f policy) ↔ _ :=
      samePolicies_sent_iff codec hvalid accepted rfl rfl
    rw [resolvedKept_second accepted first second]
    constructor
    · intro h
      exact (hsent.mp (h e rfl)).2
    · intro h _ _
      exact hsent.mpr ⟨rfl, h⟩
  | swapped accepted first second result files fields file fine =>
    by_cases hfine : f.fieldsSave = .done ∨ retypedFields policy m.allFields = m.allFields
    · obtain ⟨r, rfl⟩ := fine.mpr hfine
      exact iff_of_true (fun e he => by cases he) (.fine accepted first second hfine)
    · rw [resolvedKept_fields accepted first second hfine]
      have hfailed : ∃ e, result = .error e := by
        cases result with
        | error e => exact ⟨e, rfl⟩
        | ok r => exact absurd (fine.mp ⟨r, rfl⟩) hfine
      obtain ⟨e, rfl⟩ := hfailed
      constructor
      · intro h
        exact (samePolicies_sent_iff codec hvalid accepted file rfl).mp (h e rfl)
      · intro h _ _
        exact (samePolicies_sent_iff codec hvalid accepted file rfl).mpr h

theorem ResolvedKept.files {codec : SettingsCodec S} {f : PolicyFaults} {policy : IndexPolicy}
    {m : ShardManager S} {files : SettingsFiles} (hfile : files.policyFile = m.files.policyFile)
    (h : ResolvedKept codec f policy m) : ResolvedKept codec f policy { m with files := files } := by
  have hforce (h : PolicyInForce codec policy m) : PolicyInForce codec policy { m with files := files } :=
    ⟨h.file.trans hfile.symm, h.shards⟩
  cases h with
  | fine ha h1 h2 h3 => exact .fine ha h1 h2 h3
  | refused hr hb => exact .refused hr hb
  | unwritten ha h1 hb => exact .unwritten ha h1 hb
  | unsynced ha h1 ht hb => exact .unsynced ha h1 (ht.trans hfile.symm) hb
  | second ha h1 h2 hf => exact .second ha h1 h2 (hforce hf)
  | fields ha h1 h2 hm hf => exact .fields ha h1 h2 hm (hforce hf)

theorem setPolicyAll_kept_iff (codec : SettingsCodec S) (libs : TextLibraries) (f : PolicyFaults)
    (policy : IndexPolicy) (m : ShardManager S) :
    (∀ e, (m.setPolicyAll codec libs f policy).1 = .error e →
        SamePolicies m (m.setPolicyAll codec libs f policy).2) ↔
      PolicyKept codec f policy m := by
  by_cases hbegun : policy.validate ≠ .ok () ∨ f.reindexRunning = true ∨ f.resolve ≠ none
  · rw [setPolicyAll_of_not_begun codec libs hbegun]
    refine iff_of_true (fun _ _ => .refl m) ?_
    unfold PolicyKept
    tauto
  · obtain ⟨hvalid, hreindex, hresolve⟩ :
        policy.validate = .ok () ∧ ¬ f.reindexRunning = true ∧ f.resolve = none := by
      simpa only [not_or, not_not, ne_eq] using hbegun
    have hkept : PolicyKept codec f policy m ↔
        ResolvedKept codec f (policy.resolve m.files.registryFile) m := by
      unfold PolicyKept
      simp only [hvalid, hreindex, hresolve, ne_eq, not_true_eq_false, false_or, Bool.false_eq_true]
    have hfile := m.files.keepRegistry_policyFile (policy.resolve m.files.registryFile)
    have hsame : ∀ m', SamePolicies
        { m with files := m.files.keepRegistry (policy.resolve m.files.registryFile) } m' ↔ SamePolicies m m' := by
      intro m'
      constructor
      · intro h
        exact ⟨h.manager, h.file.trans hfile, h.shards⟩
      · intro h
        exact ⟨h.manager, h.file.trans hfile.symm, h.shards⟩
    have hvalid' : (policy.resolve m.files.registryFile).validate = .ok () :=
      (policy.validate_resolve m.files.registryFile).trans hvalid
    have houtcome := (setPolicyAll_of_begun codec libs (m := m) hvalid hreindex hresolve).kept_iff hvalid'
    simp only [hsame] at houtcome
    rw [houtcome, hkept]
    exact ⟨.files (m := { m with files := _ }) hfile.symm, .files hfile⟩

/-- A failed change of the options leaves everything as it was exactly when one of the ways to fail
that restore it came up, and so does one of the policy. -/
theorem settings_kept_iff (codec : SettingsCodec S) (libs : TextLibraries) (fo : OptionsFaults)
    (fp : PolicyFaults) (options : DatabaseOptions S) (policy : IndexPolicy) (m : ShardManager S) :
    ((∀ e, (m.setOptionsAll codec fo options).1 = .error e → SameOptions m (m.setOptionsAll codec fo options).2) ↔
      OptionsKept codec fo options m) ∧
    ((∀ e, (m.setPolicyAll codec libs fp policy).1 = .error e →
        SamePolicies m (m.setPolicyAll codec libs fp policy).2) ↔
      PolicyKept codec fp policy m) :=
  ⟨setOptionsAll_kept_iff codec fo options m, setPolicyAll_kept_iff codec libs fp policy m⟩

def bootableCodec : SettingsCodec Unit where
  renderPolicy p := ", ".intercalate (p.fields.map (·.name))
  parsePolicy text := .ok (.new .empty ((text.splitOn ", ").map fun name => .new name .text))
  renderOptions o := if o.bootable then "bootable = true" else "bootable = false"
  parseOptions text := .ok ⟨text = "bootable = true", ⟨[]⟩, ()⟩

def oneGone : ShardManager Unit where
  shards := [some ⟨.defaultDocument, ⟨true, ⟨[]⟩, ()⟩, some .defaultDocument⟩, none]
  files := ⟨"id, title, body, year", "bootable = true", none, .empty⟩
  policy := .defaultDocument
  options := ⟨true, ⟨[]⟩, ()⟩
  analyzerSet := .fromPolicy ⟨fun _ => none, fun _ => true⟩ IndexPolicy.defaultDocument.analyzers
  allFields := .empty

def noSaveFails : OptionsFaults := ⟨false, .done, fun _ => some false, .done, fun _ => some false⟩

/-- The change fails because of the shard that is gone, and still the manager, the file and the other
shard have the new options. -/
theorem setOptionsAll_oneGone :
    let after := oneGone.setOptionsAll bootableCodec noSaveFails ⟨false, ⟨[]⟩, ()⟩
    after.1 = .error "shard 1 is not running" ∧ ¬ SameOptions oneGone after.2 ∧
      (oneGone.options.bootable = true ∧ after.2.options.bootable = false) ∧
      (oneGone.files.optionsFile = "bootable = true" ∧ after.2.files.optionsFile = "bootable = false") ∧
      (oneGone.shards.map fun h => h.map fun s => s.options.bootable) = [some true, none] ∧
      (after.2.shards.map fun h => h.map fun s => s.options.bootable) = [some false, none] := by
  refine ⟨by decide, fun h => ?_, ⟨rfl, rfl⟩, ⟨rfl, rfl⟩, rfl, rfl⟩
  cases congrArg DatabaseOptions.bootable h.manager

end ShardManager
