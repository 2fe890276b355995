/-
Policies as JSON.

A field is written as an object of what differs from the defaults of its kind, a repeated one
inside an array; a struct has its subfields beside keys with a dollar sign.  Reading takes
shorter forms as well: the name of a kind, a struct by its subfields alone.
-/
import Riets.AnalyzerJson
import Riets.Bytes
import Riets.PolicyResolve

open Json

/-! ### Kinds and weights -/

namespace FieldKind

def label : FieldKind → String
  | .none => "none"
  | .text => "text"
  | .integer => "int"
  | .float => "float"
  | .date => "date"
  | .id => "id"
  | .idAuto => "id_auto"
  | .struct => "struct"
  | .bool => "bool"

def fromStr : String → Option FieldKind
  | "none" => some .none
  | "text" => some .text
  | "int" => some .integer
  | "integer" => some .integer
  | "float" => some .float
  | "date" => some .date
  | "id" => some .id
  | "id_auto" => some .idAuto
  | "struct" => some .struct
  | "bool" => some .bool
  | _ => none

theorem fromStr_label (kind : FieldKind) : fromStr kind.label = some kind := by
  cases kind <;> rfl

end FieldKind

namespace WeightInterval

open Option

def toJson (w : WeightInterval) : Json :=
  .ofEntries [("min", .number (.posInt w.min)), ("max", .number (.posInt w.max))]

def ofJson (value : Json) : Option WeightInterval := do
  let field ← fieldsOf 2 value
  let min ← (field 0 "min").bind (asUInt 16)
  let max ← (field 1 "max").bind (asUInt 16)
  some ⟨min, max⟩

def Fits (w : WeightInterval) : Prop := w.min < 2 ^ 16 ∧ w.max < 2 ^ 16

theorem ofJson_toJson {w : WeightInterval} (h : w.Fits) : ofJson w.toJson = some w := by
  have hget := @get_of_keys [("min", .number (.posInt w.min)), ("max", .number (.posInt w.max))]
    ["min", "max"] rfl (by decide)
  obtain ⟨hmin, hmax, -⟩ := by simpa only [List.forall_mem_cons] using hget
  rw [toJson, ofJson, ofEntries, fieldsOf]
  simp only [bind_eq_bind, bind_some, hmin, hmax, asUInt, if_pos h.1, if_pos h.2]

theorem fits_ofJson {value : Json} {w : WeightInterval} (h : ofJson value = some w) : w.Fits := by
  simp only [ofJson, bind_eq_bind, bind_eq_some_iff] at h
  obtain ⟨field, -, min, ⟨_, -, hmin⟩, max, ⟨_, -, hmax⟩, hw⟩ := h
  obtain rfl := some_inj.mp hw
  exact ⟨lt_of_asUInt hmin, lt_of_asUInt hmax⟩

end WeightInterval

def Json.kindName : Json → String
  | .null => "null"
  | .bool _ => "bool"
  | .number _ => "number"
  | .string _ => "string"
  | .array _ => "array"
  | .object _ => "object"

theorem FieldKind.eq_of_fromStr_struct {s : String} (h : fromStr s = some .struct) : s = "struct" := by
  unfold fromStr at h
  split at h
  all_goals first | rfl | cases h

/-! ### Fields -/

namespace FieldPolicy

open List Except WeightInterval

/-- The entries in front of the subfields: what differs from the defaults of the kind. -/
def options (kind : FieldKind) (searchable list : Bool) (weight : WeightInterval) (exact : Bool)
    (analyzer : Option String) (vector : Bool) : List (String × Json) :=
  (if kind ≠ .struct then [("$type", .string kind.label)] else []) ++
  (if searchable ≠ kind.defaults.searchable then [("$searchable", .bool searchable)] else []) ++
  (analyzer.toList.map fun name => ("$analyzer", .string name)) ++
  (if list ≠ kind.defaults.list then [("$list", .bool list)] else []) ++
  (if weight ≠ kind.defaults.weight then [("$weight", weight.toJson)] else []) ++
  (if exact ≠ kind.defaults.exact then [("$exact", .bool exact)] else []) ++
  (if vector = true then [("$vector", .bool vector)] else [])

mutual

/-- `FieldPolicy::serialize`.  A repeated field is written inside an array as one that is not, so
`$repeated` is never written. -/
def toJson : FieldPolicy → Json
  | ⟨_, kind, searchable, list, weight, exact, repeated, subfields, _, analyzer, _, _, vector⟩ =>
    let object := .ofEntries (options kind searchable list weight exact analyzer vector ++ subfieldEntries subfields)
    if repeated then .array [object] else object

def subfieldEntries : List FieldPolicy → List (String × Json)
  | [] => []
  | f :: fs => (f.name, toJson f) :: subfieldEntries fs

end

def readBool (name key : String) (entries : List (String × Json)) (default : Bool) : Except String Bool :=
  match get entries key with
  | none => .ok default
  | some value =>
    match value.asBool with
    | some b => .ok b
    | none => .error s!"field '{name}': {key} must be a bool"

/-- `serdeError` has the text of `serde_json` for a value it cannot read. -/
def readWeight (serdeError : Json → String) (name : String) (entries : List (String × Json))
    (default : WeightInterval) : Except String WeightInterval :=
  match get entries "$weight" with
  | none => .ok default
  | some value =>
    match WeightInterval.ofJson value with
    | some w => .ok w
    | none => .error s!"field '{name}': $weight: {serdeError value}"

def readAnalyzer (name : String) (entries : List (String × Json)) : Except String (Option String) :=
  match get entries "$analyzer" with
  | none => .ok none
  | some value =>
    match value.asStr with
    | some analyzer => .ok (some analyzer)
    | none => .error s!"field '{name}': $analyzer must be a string"

variable (serdeError : Json → String)

def leafFromObj (name type : String) (entries : List (String × Json)) : Except String FieldPolicy :=
  match FieldKind.fromStr type with
  | none => .error s!"field '{name}': unknown type '{type}'"
  | some kind => do
    let f := new name kind
    let exact ← readBool name "$exact" entries f.exact
    let searchable ← readBool name "$searchable" entries f.searchable
    let list ← readBool name "$list" entries f.list
    let repeated ← readBool name "$repeated" entries f.repeated
    let analyzer ← readAnalyzer name entries
    let weight ← readWeight serdeError name entries f.weight
    let vector ← readBool name "$vector" entries f.vector
    pure { f with exact, searchable, list, repeated, analyzer, weight, vector }

/-- `struct_from_obj`, once the subfields are read. -/
def structWith (name : String) (subfields : List FieldPolicy) (entries : List (String × Json)) :
    Except String FieldPolicy := do
  let f := { new name .struct with subfields }
  let weight ← readWeight serdeError name entries f.weight
  let repeated ← readBool name "$repeated" entries f.repeated
  let searchable ← readBool name "$searchable" entries f.searchable
  pure { f with weight, repeated, searchable }

def hasDollar (key : String) : Bool := key.toList.head? = some '$'

mutual

def fromJson (name : String) : Json → Except String FieldPolicy
  | .string s =>
    match FieldKind.fromStr s with
    | some kind => .ok (new name kind)
    | none => .error s!"field '{name}': unknown type '{s}'"
  | .object entries =>
    match (get entries "$type").bind asStr with
    | some type =>
      if type = "struct" then do
        let subfields ← subfieldsFromObj entries
        structWith serdeError name subfields entries
      else leafFromObj serdeError name type entries
    | none => do
      let subfields ← subfieldsFromObj entries
      structWith serdeError name subfields entries
  | .array [] => .error s!"repeated field '{name}' needs exactly one element"
  | .array (elem :: _) => do
    let f ← fromJson name elem
    pure { f with repeated := true }
  | .null => .error s!"field '{name}': expected a string, object or array, got {kindName .null}"
  | .bool b => .error s!"field '{name}': expected a string, object or array, got {kindName (.bool b)}"
  | .number n => .error s!"field '{name}': expected a string, object or array, got {kindName (.number n)}"

/-- The loop of `struct_from_obj`. -/
def subfieldsFromObj : List (String × Json) → Except String (List FieldPolicy)
  | [] => pure []
  | (key, value) :: entries =>
    if hasDollar key then subfieldsFromObj entries
    else do
      let f ← fromJson key value
      let fs ← subfieldsFromObj entries
      pure (f :: fs)

end

/-! ### What is written -/

structure NamesOk (fs : List FieldPolicy) : Prop where
  ascending : (fs.map name).Pairwise (· < ·)
  plain : ∀ f ∈ fs, hasDollar f.name = false

def written (f : FieldPolicy) : List (String × Json) :=
  options f.kind f.searchable f.list f.weight f.exact f.analyzer f.vector ++ subfieldEntries f.subfields

theorem toJson_eq (f : FieldPolicy) :
    f.toJson = if f.repeated then .array [.ofEntries f.written] else .ofEntries f.written := by
  cases f
  rfl

theorem subfieldEntries_eq (fs : List FieldPolicy) : subfieldEntries fs = fs.map fun f => (f.name, f.toJson) := by
  induction fs with
  | nil => rfl
  | cons f fs ih => rw [subfieldEntries, ih, map_cons]

def optionKeys : List String := ["$type", "$searchable", "$analyzer", "$list", "$weight", "$exact", "$vector"]

theorem keys_options (kind : FieldKind) (searchable list : Bool) (weight : WeightInterval) (exact : Bool)
    (analyzer : Option String) (vector : Bool) :
    ((options kind searchable list weight exact analyzer vector).map Prod.fst).Sublist optionKeys := by
  have hone : ∀ {c : Prop} [Decidable c] (key : String) (value : Json),
      ((if c then [(key, value)] else []).map Prod.fst).Sublist [key] := by
    intro c _ key value
    split_ifs
    · exact Sublist.refl _
    · exact nil_sublist _
  have hanalyzer : ((analyzer.toList.map fun name => ("$analyzer", string name)).map Prod.fst).Sublist
      ["$analyzer"] := by
    cases analyzer with
    | none => exact nil_sublist _
    | some name => exact Sublist.refl _
  simp only [options, map_append]
  exact ((((((hone _ _).append (hone _ _)).append hanalyzer).append (hone _ _)).append (hone _ _)).append
    (hone _ _)).append (hone _ _)

variable {f : FieldPolicy}

theorem nodup_written (h : NamesOk f.subfields) : (f.written.map Prod.fst).Nodup := by
  have hsub := keys_options f.kind f.searchable f.list f.weight f.exact f.analyzer f.vector
  have hdollar : ∀ key ∈ optionKeys, hasDollar key = true := by decide
  rw [written, map_append, nodup_append]
  refine ⟨Nodup.sublist hsub (by decide), ?_, ?_⟩
  · rw [subfieldEntries_eq, map_map]
    exact h.ascending.imp ne_of_lt
  · -- an option has a dollar sign in front, and a subfield has none
    rintro key hkey _ hname rfl
    rw [subfieldEntries_eq, map_map, mem_map] at hname
    obtain ⟨g, hg, rfl⟩ := hname
    have hplain := h.plain g hg
    rw [show hasDollar g.name = true from hdollar _ (hsub.subset hkey)] at hplain
    cases hplain

theorem mem_written (h : NamesOk f.subfields) {key : String} (hkey : hasDollar key = true) {value : Json} :
    (key, value) ∈ f.written ↔
      (key, value) ∈ options f.kind f.searchable f.list f.weight f.exact f.analyzer f.vector := by
  rw [written, mem_append, or_iff_left]
  rw [subfieldEntries_eq, mem_map]
  rintro ⟨g, hg, heq⟩
  have hplain := h.plain g hg
  have hname : g.name = key := congrArg Prod.fst heq
  rw [hname, hkey] at hplain
  cases hplain

theorem filter_written (h : NamesOk f.subfields) :
    (mapOf f.written).entries.filter (fun e => !hasDollar e.1) = subfieldEntries f.subfields := by
  have hsub := keys_options f.kind f.searchable f.list f.weight f.exact f.analyzer f.vector
  have hdollar : ∀ key ∈ optionKeys, hasDollar key = true := by decide
  have hoptions : (options f.kind f.searchable f.list f.weight f.exact f.analyzer f.vector).filter
      (fun e => !hasDollar e.1) = [] := by
    refine filter_eq_nil_iff.mpr fun e he => ?_
    simp [hdollar e.1 (hsub.subset (mem_map_of_mem he))]
  have hplain : (subfieldEntries f.subfields).filter (fun e => !hasDollar e.1) = subfieldEntries f.subfields := by
    refine filter_eq_self.mpr fun e he => ?_
    rw [subfieldEntries_eq, mem_map] at he
    obtain ⟨g, hg, rfl⟩ := he
    simp [h.plain g hg]
  have hfilter : f.written.filter (fun e => !hasDollar e.1) = subfieldEntries f.subfields := by
    rw [written, filter_append, hoptions, hplain, nil_append]
  rw [filter_mapOf (nodup_written h), hfilter]
  rw [hfilter, subfieldEntries_eq]
  exact pairwise_map.mpr (pairwise_map.mp h.ascending)

theorem readBool_eq {entries : List (String × Json)} (hnodup : (entries.map Prod.fst).Nodup) {name key : String}
    {default b : Bool} (h : ∀ value, (key, value) ∈ entries ↔ b ≠ default ∧ value = .bool b) :
    readBool name key (mapOf entries).entries default = .ok b := by
  rw [readBool]
  by_cases hb : b = default
  · have hnone : get (mapOf entries).entries key = none := get_mapOf_eq hnodup fun value => by simp [h, hb]
    rw [hnone, hb]
  · have hsome : get (mapOf entries).entries key = some (.bool b) :=
      get_mapOf_eq hnodup fun value => by simp [h, hb, eq_comm]
    rw [hsome]
    rfl

theorem readWeight_eq {entries : List (String × Json)} (hnodup : (entries.map Prod.fst).Nodup) {name : String}
    {default w : WeightInterval} (hfits : w.Fits)
    (h : ∀ value, ("$weight", value) ∈ entries ↔ w ≠ default ∧ value = w.toJson) :
    readWeight serdeError name (mapOf entries).entries default = .ok w := by
  rw [readWeight]
  by_cases hw : w = default
  · have hnone : get (mapOf entries).entries "$weight" = none := get_mapOf_eq hnodup fun value => by simp [h, hw]
    rw [hnone, hw]
  · have hsome : get (mapOf entries).entries "$weight" = some w.toJson :=
      get_mapOf_eq hnodup fun value => by simp [h, hw, eq_comm]
    rw [hsome]
    simp only [ofJson_toJson hfits]

theorem readAnalyzer_eq {entries : List (String × Json)} (hnodup : (entries.map Prod.fst).Nodup) {name : String}
    {analyzer : Option String} (h : ∀ value, ("$analyzer", value) ∈ entries ↔ ∃ a ∈ analyzer, .string a = value) :
    readAnalyzer name (mapOf entries).entries = .ok analyzer := by
  have hget : get (mapOf entries).entries "$analyzer" = analyzer.map .string :=
    get_mapOf_eq hnodup fun value => by simp [h]
  rw [readAnalyzer, hget]
  cases analyzer with
  | none => rfl
  | some a => rfl

theorem subfieldsFromObj_filter (entries : List (String × Json)) :
    subfieldsFromObj serdeError (entries.filter fun e => !hasDollar e.1) = subfieldsFromObj serdeError entries := by
  induction entries with
  | nil => rfl
  | cons e entries ih =>
    obtain ⟨key, value⟩ := e
    by_cases hkey : hasDollar key = true
    · rw [filter_cons_of_neg (by simp [hkey]), subfieldsFromObj, if_pos hkey, ih]
    · rw [filter_cons_of_pos (by simp [hkey]), subfieldsFromObj, subfieldsFromObj, if_neg hkey, if_neg hkey, ih]

/-! ### Fields that were read -/

structure Plain (f : FieldPolicy) : Prop where
  weight : f.weight.Fits
  fullPath : f.fullPath = f.name
  rowKeyed : f.rowKeyed = false
  depth : f.depth = 0
  leaf : f.kind ≠ .struct → f.subfields = []
  struct : f.kind = .struct → f.list = f.kind.defaults.list ∧ f.exact = f.kind.defaults.exact ∧
    f.analyzer = none ∧ f.vector = false
  names : NamesOk f.subfields

mutual

def Read : FieldPolicy → Prop
  | f@⟨_, _, _, _, _, _, _, subfields, _, _, _, _, _⟩ => Plain f ∧ ReadAll subfields

def ReadAll : List FieldPolicy → Prop
  | [] => True
  | f :: fs => Read f ∧ ReadAll fs

end

theorem read_iff (f : FieldPolicy) : f.Read ↔ f.Plain ∧ ReadAll f.subfields := by
  cases f
  rfl

theorem readBool_written (h : f.Plain) {name key : String} (hkey : hasDollar key = true) {b default : Bool}
    (hmem : ∀ value, (key, value) ∈ options f.kind f.searchable f.list f.weight f.exact f.analyzer f.vector ↔
      b ≠ default ∧ value = .bool b) : readBool name key (mapOf f.written).entries default = .ok b :=
  readBool_eq (nodup_written h.names) fun value => (mem_written h.names hkey).trans (hmem value)

theorem readWeight_written (h : f.Plain) (name : String) :
    readWeight serdeError name (mapOf f.written).entries f.kind.defaults.weight = .ok f.weight := by
  refine readWeight_eq serdeError (nodup_written h.names) h.weight fun value => ?_
  rw [mem_written h.names (by decide)]
  simp [options]

theorem readShared_written (h : f.Plain) :
    readBool f.name "$searchable" (mapOf f.written).entries f.kind.defaults.searchable = .ok f.searchable ∧
      readBool f.name "$repeated" (mapOf f.written).entries false = .ok false := by
  constructor
  · exact readBool_written h (by decide) fun value => by simp [options]
  · exact readBool_written h (by decide) fun value => by simp [options]

theorem leafFromObj_written (h : f.Plain) (hleaf : f.kind ≠ .struct) :
    leafFromObj serdeError f.name f.kind.label (mapOf f.written).entries = .ok { f with repeated := false } := by
  have hexact : readBool f.name "$exact" (mapOf f.written).entries f.kind.defaults.exact = .ok f.exact :=
    readBool_written h (by decide) fun value => by simp [options]
  have hlist : readBool f.name "$list" (mapOf f.written).entries f.kind.defaults.list = .ok f.list :=
    readBool_written h (by decide) fun value => by simp [options]
  have hvector : readBool f.name "$vector" (mapOf f.written).entries false = .ok f.vector :=
    readBool_written h (by decide) fun value => by simp [options]
  have hanalyzer : readAnalyzer f.name (mapOf f.written).entries = .ok f.analyzer := by
    refine readAnalyzer_eq (nodup_written h.names) fun value => ?_
    rw [mem_written h.names (by decide)]
    simp [options]
  obtain ⟨hsearchable, hrepeated⟩ := readShared_written h
  have hweight := readWeight_written serdeError h f.name
  rw [leafFromObj, FieldKind.fromStr_label]
  simp only [new, hexact, hsearchable, hlist, hrepeated, hanalyzer, hweight, hvector]
  -- what is not read is as a new field has it
  cases f with
  | mk name kind searchable list weight exact repeated subfields fullPath analyzer rowKeyed depth vector =>
    obtain rfl : subfields = [] := h.leaf hleaf
    obtain rfl : fullPath = name := h.fullPath
    obtain rfl : rowKeyed = false := h.rowKeyed
    obtain rfl : depth = 0 := h.depth
    rfl

theorem structWith_written (h : f.Plain) (hstruct : f.kind = .struct) :
    structWith serdeError f.name f.subfields (mapOf f.written).entries = .ok { f with repeated := false } := by
  obtain ⟨hsearchable, hrepeated⟩ := readShared_written h
  have hweight := readWeight_written serdeError h f.name
  rw [hstruct] at hsearchable hweight
  rw [structWith]
  simp only [new, hweight, hrepeated, hsearchable]
  -- the options that are not read of a struct are the defaults
  cases f with
  | mk name kind searchable list weight exact repeated subfields fullPath analyzer rowKeyed depth vector =>
    obtain rfl : kind = .struct := hstruct
    obtain ⟨hlist, hexact, hanalyzer, hvector⟩ := h.struct rfl
    obtain rfl : list = true := hlist
    obtain rfl : exact = false := hexact
    obtain rfl : analyzer = none := hanalyzer
    obtain rfl : vector = false := hvector
    obtain rfl : fullPath = name := h.fullPath
    obtain rfl : rowKeyed = false := h.rowKeyed
    obtain rfl : depth = 0 := h.depth
    rfl

theorem get_type_written (h : f.Plain) : (get (mapOf f.written).entries "$type").bind asStr =
    if f.kind = .struct then none else some f.kind.label := by
  have hmem : ∀ value, ("$type", value) ∈ f.written ↔ f.kind ≠ .struct ∧ value = .string f.kind.label := by
    intro value
    rw [mem_written h.names (by decide)]
    simp [options]
  split_ifs with hstruct
  · have hnone : get (mapOf f.written).entries "$type" = none :=
      get_mapOf_eq (nodup_written h.names) fun value => by simp [hmem, hstruct]
    rw [hnone]
    rfl
  · have hsome : get (mapOf f.written).entries "$type" = some (.string f.kind.label) :=
      get_mapOf_eq (nodup_written h.names) fun value => by simp [hmem, hstruct, eq_comm]
    rw [hsome]
    rfl

theorem label_ne_struct {kind : FieldKind} (h : kind ≠ .struct) : kind.label ≠ "struct" := by
  cases kind with
  | struct => exact absurd rfl h
  | none | text | integer | float | date | id | idAuto | bool => decide

theorem fromJson_written (h : f.Plain)
    (hsub : subfieldsFromObj serdeError (subfieldEntries f.subfields) = .ok f.subfields) :
    fromJson serdeError f.name (.ofEntries f.written) = .ok { f with repeated := false } := by
  rw [ofEntries, fromJson, get_type_written h]
  by_cases hstruct : f.kind = .struct
  · rw [if_pos hstruct]
    rw [← filter_written h.names, subfieldsFromObj_filter] at hsub
    simp only [hsub]
    exact structWith_written serdeError h hstruct
  · rw [if_neg hstruct]
    simp only [if_neg (label_ne_struct hstruct)]
    exact leafFromObj_written serdeError h hstruct

mutual

theorem fromJson_toJson : ∀ f : FieldPolicy, f.Read → fromJson serdeError f.name f.toJson = .ok f
  | ⟨name, kind, searchable, list, weight, exact, repeated, subfields, fullPath, analyzer, rowKeyed, depth, vector⟩, h => by
    obtain ⟨hplain, hsub⟩ := h
    have hobject := fromJson_written serdeError hplain (subfieldsFromObj_entries subfields hsub hplain.names.plain)
    rw [toJson_eq]
    cases repeated with
    | false => exact hobject
    | true =>
      -- the array makes the field repeated again
      rw [if_pos rfl, fromJson, hobject]
      rfl

theorem subfieldsFromObj_entries : ∀ fs : List FieldPolicy, ReadAll fs → (∀ f ∈ fs, hasDollar f.name = false) →
    subfieldsFromObj serdeError (subfieldEntries fs) = .ok fs
  | [], _, _ => rfl
  | f :: fs, h, hplain => by
    obtain ⟨hf, hfs⟩ := forall_mem_cons.mp hplain
    rw [subfieldEntries, subfieldsFromObj, if_neg (by simp [hf]), fromJson_toJson f h.1,
      subfieldsFromObj_entries fs h.2 hfs]
    rfl

end

/-! ### What is read is written back -/

theorem namesOk_nil : NamesOk [] := ⟨.nil, fun f hf => by cases hf⟩

theorem fits_defaults (kind : FieldKind) : kind.defaults.weight.Fits := by
  cases kind <;> exact ⟨by decide, by decide⟩

theorem plain_new (name : String) (kind : FieldKind) : Plain (new name kind) where
  weight := fits_defaults kind
  fullPath := rfl
  rowKeyed := rfl
  depth := rfl
  leaf _ := rfl
  struct _ := ⟨rfl, rfl, rfl, rfl⟩
  names := namesOk_nil

theorem read_new (name : String) (kind : FieldKind) : (new name kind).Read :=
  (read_iff _).mpr ⟨plain_new name kind, trivial⟩

theorem fits_readWeight {name : String} {entries : List (String × Json)} {default w : WeightInterval}
    (hdefault : default.Fits) (h : readWeight serdeError name entries default = .ok w) : w.Fits := by
  rw [readWeight] at h
  split at h
  · obtain rfl := Except.ok.inj h
    exact hdefault
  · split at h
    · rename_i hw
      obtain rfl := Except.ok.inj h
      exact fits_ofJson hw
    · cases h

theorem read_leafFromObj {name type : String} {entries : List (String × Json)} {f : FieldPolicy}
    (htype : type ≠ "struct") (h : leafFromObj serdeError name type entries = .ok f) : f.Read ∧ f.name = name := by
  rw [leafFromObj] at h
  cases hkind : FieldKind.fromStr type with
  | none =>
    rw [hkind] at h
    cases h
  | some kind =>
    rw [hkind] at h
    have hleaf : kind ≠ .struct := by
      rintro rfl
      exact htype (FieldKind.eq_of_fromStr_struct hkind)
    obtain ⟨exact, -, h⟩ := of_bind_ok h
    obtain ⟨searchable, -, h⟩ := of_bind_ok h
    obtain ⟨list, -, h⟩ := of_bind_ok h
    obtain ⟨repeated, -, h⟩ := of_bind_ok h
    obtain ⟨analyzer, -, h⟩ := of_bind_ok h
    obtain ⟨weight, hweight, h⟩ := of_bind_ok h
    obtain ⟨vector, -, h⟩ := of_bind_ok h
    obtain rfl := Except.ok.inj h
    refine ⟨(read_iff _).mpr ⟨?_, trivial⟩, rfl⟩
    exact ⟨fits_readWeight serdeError (fits_defaults kind) hweight, rfl, rfl, rfl, fun _ => rfl,
      fun hstruct => absurd hstruct hleaf, namesOk_nil⟩

theorem read_structWith {name : String} {subfields : List FieldPolicy} {entries : List (String × Json)} {f : FieldPolicy}
    (hsub : ReadAll subfields) (hnames : NamesOk subfields)
    (h : structWith serdeError name subfields entries = .ok f) : f.Read ∧ f.name = name := by
  obtain ⟨weight, hweight, h⟩ := of_bind_ok h
  obtain ⟨repeated, -, h⟩ := of_bind_ok h
  obtain ⟨searchable, -, h⟩ := of_bind_ok h
  obtain rfl := Except.ok.inj h
  refine ⟨(read_iff _).mpr ⟨?_, hsub⟩, rfl⟩
  exact ⟨fits_readWeight serdeError (fits_defaults .struct) hweight, rfl, rfl, rfl, fun hleaf => absurd rfl hleaf,
    fun _ => ⟨rfl, rfl, rfl, rfl⟩, hnames⟩

theorem read_repeated {f : FieldPolicy} (h : f.Read) : Read { f with repeated := true } := by
  obtain ⟨hplain, hsub⟩ := (read_iff f).mp h
  exact (read_iff _).mpr ⟨⟨hplain.weight, hplain.fullPath, hplain.rowKeyed, hplain.depth, hplain.leaf, hplain.struct,
    hplain.names⟩, hsub⟩

theorem names_of_keys {entries : List (String × Json)} {fs : List FieldPolicy}
    (hasc : Keyed.Ascending Prod.fst entries)
    (hnames : fs.map name = (entries.filter fun e => !hasDollar e.1).map Prod.fst) : NamesOk fs := by
  refine ⟨?_, fun f hf => ?_⟩
  · rw [hnames]
    exact pairwise_map.mpr (hasc.filter _)
  · have hmem : f.name ∈ (entries.filter fun e => !hasDollar e.1).map Prod.fst := by
      rw [← hnames]
      exact mem_map_of_mem hf
    obtain ⟨e, he, heq⟩ := mem_map.mp hmem
    rw [← heq]
    simpa using (mem_filter.mp he).2

mutual

theorem read_fromJson (name : String) : ∀ (value : Json) (f : FieldPolicy), value.Ok →
    fromJson serdeError name value = .ok f → f.Read ∧ f.name = name
  | .string s, f, _, h => by
    rw [fromJson] at h
    split at h
    · obtain rfl := Except.ok.inj h
      exact ⟨read_new name _, rfl⟩
    · cases h
  | .object entries, f, hok, h => by
    obtain ⟨hasc, hentries⟩ := hok
    -- with the type or without any, a struct is read in the same way
    have hstruct : ∀ f, (do
        let subfields ← subfieldsFromObj serdeError entries
        structWith serdeError name subfields entries) = .ok f → f.Read ∧ f.name = name := by
      intro f h
      obtain ⟨subfields, hsub, h⟩ := of_bind_ok h
      obtain ⟨hread, hnames⟩ := read_subfieldsFromObj entries subfields hentries hsub
      exact read_structWith serdeError hread (names_of_keys hasc hnames) h
    rw [fromJson] at h
    split at h
    · split_ifs at h with htype
      · exact hstruct f h
      · exact read_leafFromObj serdeError htype h
    · exact hstruct f h
  | .array [], f, _, h => by
    rw [fromJson] at h
    cases h
  | .array (elem :: items), f, hok, h => by
    rw [fromJson] at h
    obtain ⟨g, hg, h⟩ := of_bind_ok h
    obtain rfl := Except.ok.inj h
    obtain ⟨hread, hname⟩ := read_fromJson name elem g hok.1 hg
    exact ⟨read_repeated hread, hname⟩
  | .null, f, _, h => by
    rw [fromJson] at h
    cases h
  | .bool b, f, _, h => by
    rw [fromJson] at h
    cases h
  | .number n, f, _, h => by
    rw [fromJson] at h
    cases h

theorem read_subfieldsFromObj : ∀ (entries : List (String × Json)) (fs : List FieldPolicy), OkEntries entries →
    subfieldsFromObj serdeError entries = .ok fs →
      ReadAll fs ∧ fs.map FieldPolicy.name = (entries.filter fun e => !hasDollar e.1).map Prod.fst
  | [], fs, _, h => by
    obtain rfl := Except.ok.inj h
    exact ⟨trivial, rfl⟩
  | (key, value) :: entries, fs, hok, h => by
    rw [subfieldsFromObj] at h
    by_cases hkey : hasDollar key = true
    · rw [if_pos hkey] at h
      rw [filter_cons_of_neg (by simp [hkey])]
      exact read_subfieldsFromObj entries fs hok.2 h
    · rw [if_neg hkey] at h
      obtain ⟨f, hf, h⟩ := of_bind_ok h
      obtain ⟨rest, hrest, h⟩ := of_bind_ok h
      obtain rfl := Except.ok.inj h
      obtain ⟨hread, hname⟩ := read_fromJson key value f hok.1 hf
      obtain ⟨hreads, hnames⟩ := read_subfieldsFromObj entries rest hok.2 hrest
      rw [filter_cons_of_pos (by simp [hkey]), map_cons, map_cons, hname, hnames]
      exact ⟨⟨hread, hreads⟩, rfl⟩

end

mutual

theorem toJson_stampField (above : String) (d : ℕ) : ∀ (f : FieldPolicy) (r : FieldRegistry),
    (stampField above d f r).1.toJson = f.toJson
  | ⟨name, kind, searchable, list, weight, exact, repeated, subfields, fullPath, analyzer, rowKeyed, depth, vector⟩, r => by
    by_cases hstruct : kind = .struct
    · rw [stampField_struct (by exact hstruct), toJson_eq, toJson_eq, written, written]
      simp only [subfieldEntries_stampFields _ (d + 1) subfields r]
    · rw [stampField_leaf (by exact hstruct)]
      rfl

theorem subfieldEntries_stampFields (above : String) (d : ℕ) : ∀ (fs : List FieldPolicy) (r : FieldRegistry),
    subfieldEntries (stampFields above d fs r).1 = subfieldEntries fs
  | [], _ => rfl
  | f :: fs, r => by
    simp only [stampFields, subfieldEntries, toJson_stampField above d f r, stampField_name,
      subfieldEntries_stampFields above d fs (stampField above d f r).2]

end

end FieldPolicy

/-! ### Policies -/

namespace IndexPolicy

open FieldPolicy List SortedMap AnalyzerConfig Option Except

def readAnalyzers : Json → Option (SortedMap String AnalyzerConfig)
  | .object entries =>
    (entries.mapM fun e => (AnalyzerConfig.ofJson e.2).map fun c => (e.1, c)).map
      (SortedMap.empty.extend fun _ c => c)
  | _ => none

def serialize (order : SetOrder) (p : IndexPolicy) : Json :=
  .ofEntries ((if p.analyzers.entries = [] then [] else
      [("analyzers", .ofEntries (p.analyzers.entries.map fun e => (e.1, e.2.toJson order)))]) ++
    [("document", .ofEntries (p.fields.map fun f => (f.name, f.toJson)))])

def analyzersOf (serdeError : Json → String) (entries : List (String × Json)) :
    Except String (SortedMap String AnalyzerConfig) :=
  match get entries "analyzers" with
  | none => .ok .empty
  | some value =>
    match readAnalyzers value with
    | some analyzers => .ok analyzers
    | none => .error (serdeError value)

def documentOf (serdeError : Json → String) (entries : List (String × Json)) : Except String (List FieldPolicy) :=
  match get entries "document" with
  | some (.object document) => document.mapM fun e => fromJson serdeError e.1 e.2
  | _ => .error "policy must have a 'document' object"

def deserialize (serdeError : Json → String) : Json → Except String IndexPolicy
  | .object entries => do
    let analyzers ← analyzersOf serdeError entries
    let fields ← documentOf serdeError entries
    pure (.new analyzers fields)
  | _ => .error "policy must be a JSON object"

variable {serdeError : Json → String} {fs : List FieldPolicy} {analyzers : SortedMap String AnalyzerConfig}

structure Read (p : IndexPolicy) : Prop where
  analyzers : ∀ e ∈ p.analyzers.entries, e.2.Fits
  fields : ∀ f ∈ p.fields, f.Read
  names : (p.fields.map name).Pairwise (· < ·)
  registry : p.registry = .new

theorem readAnalyzers_written (order : SetOrder) (h : ∀ e ∈ analyzers.entries, e.2.Fits) :
    readAnalyzers (.ofEntries (analyzers.entries.map fun e => (e.1, e.2.toJson order))) = some analyzers := by
  have hasc : Keyed.Ascending Prod.fst (analyzers.entries.map fun e => (e.1, e.2.toJson order)) :=
    pairwise_map.mpr analyzers.ascending
  have hread : ∀ l : List (String × AnalyzerConfig), (∀ e ∈ l, e.2.Fits) →
      (l.map fun e => (e.1, e.2.toJson order)).mapM (fun e : String × Json =>
        (ofJson e.2).map fun c => (e.1, c)) = some l := by
    intro l hl
    induction l with
    | nil => rfl
    | cons e l ih =>
      obtain ⟨he, hl⟩ := forall_mem_cons.mp hl
      rw [map_cons, mapM_cons, ofJson_toJson order he, ih hl]
      rfl
  rw [ofEntries, mapOf_ascending hasc, readAnalyzers, hread _ h, map_some, extend_entries]

theorem fields_written (h : ∀ f ∈ fs, f.Read) :
    (fs.map fun f => (f.name, f.toJson)).mapM (fun e : String × Json => fromJson serdeError e.1 e.2) = .ok fs := by
  induction fs with
  | nil => rfl
  | cons f fs ih =>
    obtain ⟨hf, hfs⟩ := forall_mem_cons.mp h
    rw [map_cons, mapM_cons, fromJson_toJson serdeError f hf, ih hfs]
    rfl

theorem document_written (hnames : (fs.map name).Pairwise (· < ·)) :
    ofEntries (fs.map fun f => (f.name, f.toJson)) = .object (fs.map fun f => (f.name, f.toJson)) := by
  have hasc : Keyed.Ascending Prod.fst (fs.map fun f => (f.name, f.toJson)) :=
    pairwise_map.mpr (pairwise_map.mp hnames)
  rw [ofEntries, mapOf_ascending hasc]

theorem deserialize_serialize (order : SetOrder) {p : IndexPolicy} (h : p.Read) :
    deserialize serdeError (p.serialize order) = .ok p := by
  have hfields := @fields_written serdeError _ h.fields
  have hnew : new p.analyzers p.fields = p := by rw [new, ← h.registry]
  rw [serialize, document_written h.names]
  -- without analyzers their key is left out, and there are none without the key
  by_cases hempty : p.analyzers.entries = []
  · have hdocument := @get_of_keys [("document", .object (p.fields.map fun f => (f.name, f.toJson)))] ["document"] rfl
      (by decide) _ mem_cons_self
    have hnone := @get_mapOf_none [("document", .object (p.fields.map fun f => (f.name, f.toJson)))] "analyzers"
      (by simp)
    have hanalyzers : p.analyzers = empty := ext_get? fun k => by rw [get?, hempty]; rfl
    rw [if_pos hempty, nil_append, ofEntries, deserialize, analyzersOf, documentOf, hnone]
    simp only [hdocument, hfields]
    rw [← hanalyzers]
    exact congrArg ok hnew
  · have hget := @get_of_keys [("analyzers", .ofEntries (p.analyzers.entries.map fun e => (e.1, e.2.toJson order))),
      ("document", .object (p.fields.map fun f => (f.name, f.toJson)))] ["analyzers", "document"] rfl (by decide)
    obtain ⟨hanalyzers, hdocument, -⟩ := by simpa only [forall_mem_cons] using hget
    rw [if_neg hempty, singleton_append, ofEntries, deserialize, analyzersOf, documentOf, hanalyzers]
    simp only [readAnalyzers_written order h.analyzers, hdocument, hfields]
    exact congrArg ok hnew

theorem fits_readAnalyzers {value : Json}
    (h : readAnalyzers value = some analyzers) : ∀ e ∈ analyzers.entries, e.2.Fits := by
  unfold readAnalyzers at h
  split at h
  case h_1 entries =>
    obtain ⟨l, hl, rfl⟩ := map_eq_some_iff.mp h
    have hfits : ∀ e ∈ l, e.2.Fits := by
      intro e he
      obtain ⟨a, -, ha⟩ := exists_of_mem_mapM hl he
      obtain ⟨c, hc, rfl⟩ := map_eq_some_iff.mp ha
      exact fits_ofJson hc
    intro e he
    exact foldl_upsert_induction (P := fun _ c => c.Fits) (fun k v hv => by cases hv)
      (fun a ha _ _ => hfits a ha) (mem_entries.mp he)
  case h_2 => cases h

theorem fits_analyzersOf {entries : List (String × Json)}
    (h : analyzersOf serdeError entries = .ok analyzers) : ∀ e ∈ analyzers.entries, e.2.Fits := by
  rw [analyzersOf] at h
  split at h
  · obtain rfl := ok.inj h
    exact fun e he => by cases he
  · split at h
    · rename_i hread
      obtain rfl := ok.inj h
      exact fits_readAnalyzers hread
    · cases h

theorem read_document {document : List (String × Json)} (hok : OkEntries document)
    (h : document.mapM (fun e => fromJson serdeError e.1 e.2) = .ok fs) :
    (∀ f ∈ fs, f.Read) ∧ fs.map name = document.map Prod.fst := by
  induction document generalizing fs with
  | nil =>
    obtain rfl := ok.inj h
    exact ⟨fun f hf => absurd hf not_mem_nil, rfl⟩
  | cons e document ih =>
    rw [mapM_cons] at h
    obtain ⟨f, hf, h⟩ := of_bind_ok h
    obtain ⟨rest, hrest, h⟩ := of_bind_ok h
    obtain rfl := ok.inj h
    obtain ⟨hread, hname⟩ := read_fromJson serdeError e.1 e.2 f hok.1 hf
    obtain ⟨hreads, hnames⟩ := ih hok.2 hrest
    rw [map_cons, map_cons, hname, hnames]
    exact ⟨forall_mem_cons.mpr ⟨hread, hreads⟩, rfl⟩

theorem ok_of_get {entries : List (String × Json)} (hok : OkEntries entries) {key : String} {value : Json}
    (h : get entries key = some value) : value.Ok := by
  rw [Json.get] at h
  obtain ⟨e, he, rfl⟩ := map_eq_some_iff.mp h
  have hmem : e ∈ entries := Keyed.find_mem he
  clear h he
  induction entries with
  | nil => cases hmem
  | cons a entries ih =>
    rcases mem_cons.mp hmem with rfl | hmem
    · exact hok.1
    · exact ih hok.2 hmem

theorem read_deserialize {value : Json} {p : IndexPolicy} (hok : value.Ok)
    (h : deserialize serdeError value = .ok p) : p.Read := by
  unfold deserialize at h
  split at h
  case h_1 entries =>
    obtain ⟨analyzers, hanalyzers, h⟩ := of_bind_ok h
    obtain ⟨fields, hfields, h⟩ := of_bind_ok h
    obtain rfl := ok.inj h
    rw [documentOf] at hfields
    split at hfields
    case h_1 document hdocument =>
      have hvalue : (object document).Ok := ok_of_get hok.2 hdocument
      obtain ⟨hread, hnames⟩ := read_document hvalue.2 hfields
      refine ⟨fits_analyzersOf hanalyzers, hread, ?_, rfl⟩
      show (fields.map name).Pairwise (· < ·)
      rw [hnames]
      exact pairwise_map.mpr hvalue.1
    case h_2 => cases hfields
  case h_2 => cases h

theorem serialize_resolve (order : SetOrder) (p : IndexPolicy) (file : Option FieldRegistry) :
    (p.resolve file).serialize order = p.serialize order := by
  have hfields := subfieldEntries_stampFields "" 0 p.fields (FieldRegistry.load file)
  rw [subfieldEntries_eq, subfieldEntries_eq] at hfields
  rw [serialize, serialize, resolve]
  simp only [hfields]

/-- A policy that was read from JSON, resolved or not, is written as a JSON value that is read as the
same policy: it has the same fields and passes the checks it passed. -/
theorem policy_roundTrip (order : SetOrder) (serdeError : Json → String) {value : Json} (hok : value.Ok)
    {p : IndexPolicy} (h : deserialize serdeError value = .ok p) (file : Option FieldRegistry) :
    deserialize serdeError (p.serialize order) = .ok p ∧
      deserialize serdeError ((p.resolve file).serialize order) = .ok p := by
  have hread := read_deserialize hok h
  rw [serialize_resolve]
  exact ⟨deserialize_serialize order hread, deserialize_serialize order hread⟩

def chapters : Json :=
  .object [("document", .object [
    ("author", .object [("born", .string "date"), ("name", .object [("$exact", .bool true), ("$type", .string "text")])]),
    ("chapters", .array [.object [("$searchable", .bool false), ("heading", .array [.string "text"])]]),
    ("id", .string "id"),
    ("title", .object [("$type", .string "text"),
      ("$weight", .object [("max", .number (.posInt 9)), ("min", .number (.posInt 2))])])])]

theorem policy_roundTrip_chapters :
    ∃ p, deserialize (fun _ => "") chapters = .ok p ∧ p.validate = .ok () ∧
      deserialize (fun _ => "") (p.serialize .sorted) = .ok p ∧
        deserialize (fun _ => "") ((p.resolve none).serialize .sorted) = .ok p := by
  have hok : chapters.Ok := by
    simp only [chapters, Json.Ok, OkEntries, OkItems]
    decide
  refine ⟨_, rfl, rfl, policy_roundTrip .sorted (fun _ => "") hok rfl none⟩

end IndexPolicy
