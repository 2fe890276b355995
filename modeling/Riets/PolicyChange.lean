/-
What a change of the policy does.

A command goes to every shard; a shard is reachable afterwards if it was before
and the command found it.  A resolved policy is sent to all shards, saved, saved
again and then taken by the manager, and at each of these steps the change can
end: `PolicyOutcome` lists what is left of it, and `setResolvedPolicy_outcome`
is the only place where the steps are followed.
-/
import Riets.ShardManager

variable {S : Type}

namespace ShardHandle

open List Option

variable {Φ Ψ : Type} {cmd : Φ → ShardSettings S → Except String Unit × ShardSettings S}
  {fates : ℕ → Option Φ} {shards : List (ShardHandle S)}

theorem call_eq_some {id : ℕ} {fate : Option Φ} {h : ShardHandle S} {s' : ShardSettings S} :
    (call id cmd fate h).2 = some s' ↔ ∃ s found, h = some s ∧ fate = some found ∧ (cmd found s).2 = s' := by
  cases h with
  | none => simp [call]
  | some s =>
    cases fate with
    | none => simp [call]
    | some found => simp [call]

theorem call_ok {id : ℕ} {fate : Option Φ} {h : ShardHandle S} :
    (call id cmd fate h).1 = .ok () ↔ ∃ s found, h = some s ∧ fate = some found ∧ (cmd found s).1 = .ok () := by
  cases h with
  | none => simp [call]
  | some s =>
    cases fate with
    | none => simp [call]
    | some found => simp [call]

theorem getElem?_sendAll (id : ℕ) :
    (sendAll cmd fates shards)[id]? = shards[id]?.map fun h => (call id cmd (fates id) h).2 := by
  rw [sendAll, callAll, getElem?_map, getElem?_mapIdx, Option.map_map]
  rfl

theorem sendAll_eq_some {id : ℕ} {s' : ShardSettings S} :
    (sendAll cmd fates shards)[id]? = some (some s') ↔
      ∃ s found, shards[id]? = some (some s) ∧ fates id = some found ∧ (cmd found s).2 = s' := by
  rw [getElem?_sendAll]
  constructor
  · intro h
    obtain ⟨handle, hat, hcall⟩ := map_eq_some_iff.mp h
    obtain ⟨s, found, rfl, hfound, hs⟩ := call_eq_some.mp hcall
    exact ⟨s, found, hat, hfound, hs⟩
  · rintro ⟨s, found, hat, hfound, hs⟩
    exact map_eq_some_iff.mpr ⟨some s, hat, call_eq_some.mpr ⟨s, found, rfl, hfound, hs⟩⟩

theorem sendAll_iff {R : ShardSettings S → ShardSettings S → Prop} :
    (∀ (id : ℕ) s s', shards[id]? = some (some s) → (sendAll cmd fates shards)[id]? = some (some s') → R s s') ↔
      ∀ (id : ℕ) s found, shards[id]? = some (some s) → fates id = some found → R s (cmd found s).2 := by
  constructor
  · intro h id s found hat hfound
    exact h id s _ hat (sendAll_eq_some.mpr ⟨s, found, hat, hfound, rfl⟩)
  · intro h id s s' hat hafter
    obtain ⟨s₀, found, hat₀, hfound, rfl⟩ := sendAll_eq_some.mp hafter
    obtain rfl : s₀ = s := by simpa using hat₀.symm.trans hat
    exact h id s₀ found hat hfound

theorem sendAll_sendAll_iff {cmd' : Ψ → ShardSettings S → Except String Unit × ShardSettings S}
    {fates' : ℕ → Option Ψ} {R : ShardSettings S → ShardSettings S → Prop} :
    (∀ (id : ℕ) s s', shards[id]? = some (some s) →
        (sendAll cmd' fates' (sendAll cmd fates shards))[id]? = some (some s') → R s s') ↔
      ∀ (id : ℕ) s found found', shards[id]? = some (some s) → fates id = some found → fates' id = some found' →
        R s (cmd' found' (cmd found s).2).2 := by
  constructor
  · intro h id s found found' hat hfound hfound'
    refine h id s _ hat (sendAll_eq_some.mpr ⟨(cmd found s).2, found', ?_, hfound', rfl⟩)
    exact sendAll_eq_some.mpr ⟨s, found, hat, hfound, rfl⟩
  · intro h id s s' hat hafter
    obtain ⟨s₁, found', hat₁, hfound', rfl⟩ := sendAll_eq_some.mp hafter
    obtain ⟨s₀, found, hat₀, hfound, rfl⟩ := sendAll_eq_some.mp hat₁
    obtain rfl : s₀ = s := by simpa using hat₀.symm.trans hat
    exact h id s₀ found found' hat hfound hfound'

theorem forall_sendAll_iff {P : ShardSettings S → Prop} :
    (∀ (id : ℕ) s', (sendAll cmd fates shards)[id]? = some (some s') → P s') ↔
      ∀ (id : ℕ) s found, shards[id]? = some (some s) → fates id = some found → P (cmd found s).2 := by
  constructor
  · intro h id s found hat hfound
    exact h id _ (sendAll_eq_some.mpr ⟨s, found, hat, hfound, rfl⟩)
  · intro h id s' hafter
    obtain ⟨s, found, hat, hfound, rfl⟩ := sendAll_eq_some.mp hafter
    exact h id s found hat hfound

theorem firstError_callAll_eq_none :
    firstError (callAll cmd fates shards) = none ↔
      ∀ id h, shards[id]? = some h → (call id cmd (fates id) h).1 = .ok () := by
  rw [firstError, findSome?_eq_none_iff]
  constructor
  · intro h id handle hat
    have hmem : call id cmd (fates id) handle ∈ callAll cmd fates shards := by
      refine mem_of_getElem? (i := id) ?_
      rw [callAll, getElem?_mapIdx, hat]
      rfl
    have hnone := h _ hmem
    split at hnone
    · assumption
    · cases hnone
  · intro h r hr
    obtain ⟨id, hat⟩ := mem_iff_getElem?.mp hr
    rw [callAll, getElem?_mapIdx] at hat
    obtain ⟨handle, hhandle, rfl⟩ := map_eq_some_iff.mp hat
    rw [h id handle hhandle]

end ShardHandle

/-! ### One shard -/

namespace ShardSettings

variable {policy previous : IndexPolicy} {options : DatabaseOptions S} {s : ShardSettings S} {found : Bool}

def Holds (s : ShardSettings S) (policy : IndexPolicy) : Prop :=
  s.policy = policy ∧ ∀ p, s.database = some p → p = policy

def SamePolicy (s s' : ShardSettings S) : Prop := s'.policy = s.policy ∧ s'.database = s.database

theorem setOptions_ok : (setOptions options found s).1 = .ok () ↔ found = false := by
  unfold setOptions
  cases found with
  | true => simp
  | false => simp

theorem setPolicy_ok (hvalid : policy.validate = .ok ()) :
    (setPolicy policy found s).1 = .ok () ↔ found = false := by
  unfold setPolicy
  rw [hvalid]
  cases found with
  | true => simp
  | false => simp

theorem setOptions_setOptions_options (found' : Bool) :
    (setOptions options found' (setOptions options found s).2).2.options =
      if found = false ∨ found' = false then options else s.options := by
  cases found with
  | true =>
    cases found' with
    | true => rfl
    | false => rfl
  | false =>
    cases found' with
    | true => rfl
    | false => rfl

def use (s : ShardSettings S) (policy : IndexPolicy) : ShardSettings S :=
  { s with policy := policy, database := s.database.map fun _ => policy }

theorem use_use (s : ShardSettings S) (policy previous : IndexPolicy) :
    (s.use policy).use previous = s.use previous := by
  simp only [use, Option.map_map]
  rfl

theorem samePolicy_use_iff : s.SamePolicy (s.use policy) ↔ s.Holds policy := by
  unfold SamePolicy Holds use
  cases s.database with
  | none => simp [eq_comm]
  | some p => simp [eq_comm]

theorem setPolicy_snd_of_taken (h : found = false ∧ policy.validate = .ok ()) :
    (setPolicy policy found s).2 = s.use policy := by
  unfold setPolicy
  rw [h.1, h.2]
  rfl

theorem setPolicy_snd_of_refused (h : ¬ (found = false ∧ policy.validate = .ok ())) :
    (setPolicy policy found s).2 = s := by
  unfold setPolicy
  cases hvalid : policy.validate with
  | error e => rfl
  | ok u =>
    cases found with
    | true => rfl
    | false => exact absurd ⟨rfl, hvalid⟩ h

theorem setPolicy_setPolicy (hvalid : policy.validate = .ok ()) (found' : Bool) :
    (setPolicy previous found' (setPolicy policy found s).2).2 =
      if found' = false ∧ previous.validate = .ok () then s.use previous
      else if found = false then s.use policy else s := by
  have hfirst : (setPolicy policy found s).2 = if found = false then s.use policy else s := by
    split_ifs with h
    · exact setPolicy_snd_of_taken ⟨h, hvalid⟩
    · exact setPolicy_snd_of_refused fun h' => h h'.1
  by_cases hback : found' = false ∧ previous.validate = .ok ()
  · rw [setPolicy_snd_of_taken hback, if_pos hback, hfirst]
    split_ifs
    · rw [use_use]
    · rfl
  · rw [setPolicy_snd_of_refused hback, if_neg hback, hfirst]

end ShardSettings

/-! ### All shards -/

def AllAccept (fates : ℕ → Option Bool) (shards : List (ShardHandle S)) : Prop :=
  ∀ id h, shards[id]? = some h → h ≠ none ∧ fates id = some false

theorem firstError_callAll_accept {cmd : Bool → ShardSettings S → Except String Unit × ShardSettings S}
    (hok : ∀ {found s}, (cmd found s).1 = .ok () ↔ found = false) {fates : ℕ → Option Bool}
    {shards : List (ShardHandle S)} :
    firstError (ShardHandle.callAll cmd fates shards) = none ↔ AllAccept fates shards := by
  rw [ShardHandle.firstError_callAll_eq_none]
  refine forall_congr' fun id => forall_congr' fun h => imp_congr_right fun _ => ?_
  rw [ShardHandle.call_ok]
  constructor
  · rintro ⟨s, found, rfl, hfound, hs⟩
    exact ⟨Option.some_ne_none s, by rw [hfound, hok.mp hs]⟩
  · rintro ⟨hne, hfound⟩
    obtain ⟨s, rfl⟩ := Option.ne_none_iff_exists'.mp hne
    exact ⟨s, false, rfl, hfound, hok.mpr rfl⟩

namespace SettingsFiles

open FieldRegistry

theorem keepRegistry_policyFile (files : SettingsFiles) (policy : IndexPolicy) :
    (files.keepRegistry policy).policyFile = files.policyFile := by
  unfold keepRegistry
  split_ifs
  · rfl
  · rfl

theorem load_keepRegistry (files : SettingsFiles) (policy : IndexPolicy) :
    load (files.keepRegistry (policy.resolve files.registryFile)).registryFile =
      (policy.resolve files.registryFile).registry := by
  have hadvances := policy.advances_resolve files.registryFile
  unfold keepRegistry
  split_ifs with hlen
  · exact (hadvances.fresh (fresh_load files.registryFile)).load_eq
  · rcases hadvances.grown with heq | hlt
    · exact heq.symm
    · omega

theorem savePolicy_resolved (codec : SettingsCodec S) (outcome : SaveOutcome) {policy : IndexPolicy}
    {file : Option FieldRegistry} {files : SettingsFiles} (hvalid : policy.validate = .ok ())
    (hload : load files.registryFile = (policy.resolve file).registry) :
    files.savePolicy codec outcome (policy.resolve file) =
      (outcome.result, policy.resolve file, { files with
          policyFile := outcome.file files.policyFile (codec.renderPolicy (policy.resolve file)) }) := by
  have hagain := policy.resolve_resolve file files.registryFile hload
  have hkeep : files.keepRegistry (policy.resolve file) = files := by
    rw [keepRegistry, if_neg]
    rw [hload]
    exact fun h => h rfl
  unfold savePolicy
  rw [policy.validate_resolve file, hvalid]
  simp only [hagain, hkeep]

end SettingsFiles

namespace ShardManager

open ShardSettings ShardHandle AnalyzerSet

/-- The manager after a rollback: every shard was sent the new policy and then the previous one. -/
def policyRolledBack (f : PolicyFaults) (policy : IndexPolicy) (file : String) (m : ShardManager S) :
    ShardManager S :=
  { m with
    files := { m.files with policyFile := file }
    shards := sendAll (setPolicy m.policy) f.back
      (sendAll (setPolicy policy) f.fan m.shards) }

def policySent (codec : SettingsCodec S) (f : PolicyFaults) (policy : IndexPolicy) (m : ShardManager S) :
    ShardManager S :=
  { m with
    files := { m.files with policyFile := codec.renderPolicy policy }
    shards := sendAll (setPolicy policy) f.fan m.shards }

theorem updateAllFields_spec (outcome : SaveOutcome) (m : ShardManager S) :
    ∃ result files fields,
      m.updateAllFieldsFromPolicy outcome = (result, { m with files := files, allFields := fields }) ∧
      files.policyFile = m.files.policyFile ∧
      (result = .ok () ↔ outcome = .done ∨ retypedFields m.policy m.allFields = m.allFields) := by
  unfold updateAllFieldsFromPolicy
  by_cases hsame : retypedFields m.policy m.allFields = m.allFields
  · simp only [hsame, ne_eq, not_true_eq_false, if_false]
    exact ⟨.ok (), m.files, m.allFields, rfl, rfl, by simp⟩
  · simp only [ne_eq, hsame, not_false_eq_true, if_true, or_false]
    cases outcome with
    | done => exact ⟨.ok (), _, _, rfl, rfl, by simp⟩
    | unwritten e => exact ⟨.error e, _, m.allFields, rfl, rfl, by simp⟩
    | unsynced e => exact ⟨.error e, _, m.allFields, rfl, rfl, by simp⟩

inductive PolicyOutcome (codec : SettingsCodec S) (libs : TextLibraries) (f : PolicyFaults)
    (policy : IndexPolicy) (m : ShardManager S) : Except String (Option String) × ShardManager S → Prop
  | refused (refuses : ¬ AllAccept f.fan m.shards) (e : String) :
    PolicyOutcome codec libs f policy m (.error e, m.policyRolledBack f policy m.files.policyFile)
  | unwritten (accepted : AllAccept f.fan m.shards) {e : String} (first : f.firstSave = .unwritten e) :
    PolicyOutcome codec libs f policy m (.error e, m.policyRolledBack f policy m.files.policyFile)
  | unsynced (accepted : AllAccept f.fan m.shards) {e : String} (first : f.firstSave = .unsynced e) :
    PolicyOutcome codec libs f policy m (.error e, m.policyRolledBack f policy (codec.renderPolicy policy))
  | second (accepted : AllAccept f.fan m.shards) (first : f.firstSave = .done) (second : f.secondSave ≠ .done)
      (e : String) : PolicyOutcome codec libs f policy m (.error e, m.policySent codec f policy)
  /-- the manager has the new policy, whether or not the last file is saved -/
  | swapped (accepted : AllAccept f.fan m.shards) (first : f.firstSave = .done) (second : f.secondSave = .done)
      (result : Except String (Option String)) (files : SettingsFiles) (fields : AllFields)
      (file : files.policyFile = codec.renderPolicy policy)
      (fine : (∃ r, result = .ok r) ↔ f.fieldsSave = .done ∨ retypedFields policy m.allFields = m.allFields) :
    PolicyOutcome codec libs f policy m (result, { m.policySent codec f policy with
      files := files
      analyzerSet := fromPolicy libs policy.analyzers
      policy := policy
      allFields := fields })

theorem setResolvedPolicy_outcome (codec : SettingsCodec S) (libs : TextLibraries) (f : PolicyFaults)
    {policy : IndexPolicy} {file : Option FieldRegistry} {m : ShardManager S}
    (hvalid : policy.validate = .ok ())
    (hload : FieldRegistry.load m.files.registryFile = (policy.resolve file).registry) :
    PolicyOutcome codec libs f (policy.resolve file) m (m.setResolvedPolicy codec libs f (policy.resolve file)) := by
  have hresolved : (policy.resolve file).validate = .ok () := (policy.validate_resolve file).trans hvalid
  have hsave : ∀ (outcome : SaveOutcome) (files : SettingsFiles), files.registryFile = m.files.registryFile →
      files.savePolicy codec outcome (policy.resolve file) = (outcome.result, policy.resolve file,
        { files with policyFile := outcome.file files.policyFile (codec.renderPolicy (policy.resolve file)) }) := by
    intro outcome files hfiles
    exact SettingsFiles.savePolicy_resolved codec outcome hvalid (by rw [hfiles]; exact hload)
  unfold setResolvedPolicy
  cases herror : firstError (callAll (setPolicy (policy.resolve file)) f.fan m.shards) with
  | some e =>
    simp only [herror]
    refine .refused (fun h => ?_) e
    rw [(firstError_callAll_accept (setPolicy_ok hresolved)).mpr h] at herror
    cases herror
  | none =>
    have haccepted := (firstError_callAll_accept (setPolicy_ok hresolved)).mp herror
    cases hfirst : f.firstSave with
    | unwritten e =>
      simp only [herror, hsave _ m.files rfl]
      exact .unwritten haccepted hfirst
    | unsynced e =>
      simp only [herror, hsave _ m.files rfl]
      exact .unsynced haccepted hfirst
    | done =>
      have hagain := hsave f.secondSave (m.policySent codec f (policy.resolve file)).files rfl
      simp only [policySent, SaveOutcome.file_self] at hagain
      simp only [herror, hsave _ m.files rfl, SaveOutcome.result, SaveOutcome.file, hagain]
      cases hsecond : f.secondSave with
      | unwritten e => exact .second haccepted hfirst (by simp [hsecond]) e
      | unsynced e => exact .second haccepted hfirst (by simp [hsecond]) e
      | done =>
        obtain ⟨result, files, fields, hupdate, hfile, hfine⟩ := updateAllFields_spec f.fieldsSave
          { m.policySent codec f (policy.resolve file) with
            analyzerSet := fromPolicy libs (policy.resolve file).analyzers
            policy := policy.resolve file }
        simp only [policySent] at hupdate
        simp only [hupdate]
        cases result with
        | error e => exact .swapped haccepted hfirst hsecond _ files fields hfile (by simpa [policySent] using hfine)
        | ok u => exact .swapped haccepted hfirst hsecond _ files fields hfile (by simpa [policySent] using hfine)

theorem setPolicyAll_of_begun (codec : SettingsCodec S) (libs : TextLibraries) {f : PolicyFaults}
    {policy : IndexPolicy} {m : ShardManager S} (hvalid : policy.validate = .ok ())
    (hreindex : ¬ f.reindexRunning = true) (hresolve : f.resolve = none) :
    PolicyOutcome codec libs f (policy.resolve m.files.registryFile)
      { m with files := m.files.keepRegistry (policy.resolve m.files.registryFile) }
      (m.setPolicyAll codec libs f policy) := by
  rw [setPolicyAll, hvalid, if_neg hreindex, hresolve]
  exact setResolvedPolicy_outcome codec libs f hvalid (m.files.load_keepRegistry policy)

theorem setPolicyAll_of_not_begun (codec : SettingsCodec S) (libs : TextLibraries) {f : PolicyFaults}
    {policy : IndexPolicy} {m : ShardManager S}
    (h : policy.validate ≠ .ok () ∨ f.reindexRunning = true ∨ f.resolve ≠ none) :
    (m.setPolicyAll codec libs f policy).2 = m := by
  unfold setPolicyAll
  cases hvalid : policy.validate with
  | error e => rfl
  | ok u =>
    by_cases hreindex : f.reindexRunning = true
    · rw [if_pos hreindex]
    · cases hresolve : f.resolve with
      | some e => rw [if_neg hreindex]
      | none => simp [hvalid, hreindex, hresolve] at h

end ShardManager
