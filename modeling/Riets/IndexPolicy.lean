/-
The policy of an index.

A policy says which fields documents have, how each is indexed and with which
analyzer.  Structs nest, so a `FieldPolicy` carries its subfields.  Before a
policy is used it is resolved: every field gets its full path, its depth in the
arrays around it and whether its values are rows of their own (`stampField`),
and every leaf gets an id from the registry.
-/
import Riets.Analyzer
import Riets.Posting

structure WeightInterval where
  min : ℕ
  max : ℕ
  deriving DecidableEq, Repr

namespace WeightInterval

def title : WeightInterval := ⟨65, 90⟩

def text : WeightInterval := ⟨1, 75⟩

def default : WeightInterval := ⟨0, 100⟩

end WeightInterval

inductive FieldKind where
  | none
  | text
  | integer
  | float
  | date
  | id
  | idAuto
  | struct
  | bool
  deriving DecidableEq, Repr

structure FieldDefaults where
  searchable : Bool
  list : Bool
  weight : WeightInterval
  exact : Bool

namespace FieldKind

def defaults : FieldKind → FieldDefaults
  | .text => ⟨true, true, .text, false⟩
  | .id => ⟨true, true, .default, true⟩
  | .idAuto => ⟨false, true, .default, true⟩
  | .integer | .float | .date => ⟨false, true, .default, true⟩
  | .struct => ⟨false, true, .default, false⟩
  | .bool => ⟨false, true, .default, true⟩
  | .none => ⟨false, true, .default, false⟩

def isNumeric (kind : FieldKind) : Bool := kind = .integer ∨ kind = .float

def isId (kind : FieldKind) : Bool := kind = .id ∨ kind = .idAuto

end FieldKind

/-- `FieldPolicy`: one field, with its subfields. -/
structure FieldPolicy where
  name : String
  kind : FieldKind
  searchable : Bool
  list : Bool
  weight : WeightInterval
  exact : Bool
  repeated : Bool
  subfields : List FieldPolicy
  fullPath : String
  analyzer : Option String
  rowKeyed : Bool
  depth : ℕ
  vector : Bool

namespace FieldPolicy

def new (name : String) (kind : FieldKind) : FieldPolicy where
  name := name
  kind := kind
  searchable := kind.defaults.searchable
  list := kind.defaults.list
  weight := kind.defaults.weight
  exact := kind.defaults.exact
  repeated := false
  subfields := []
  fullPath := name
  analyzer := none
  rowKeyed := false
  depth := 0
  vector := false

def hasExactIndex (f : FieldPolicy) : Bool := (f.kind = .text ∧ f.exact = true) ∨ f.kind.isId

mutual

def decEq : (f g : FieldPolicy) → Decidable (f = g)
  | ⟨n, k, s, l, w, e, r, subs, p, a, rk, d, v⟩, ⟨n', k', s', l', w', e', r', subs', p', a', rk', d', v'⟩ =>
    let _ := decEqList subs subs'
    decidable_of_iff (n = n' ∧ k = k' ∧ s = s' ∧ l = l' ∧ w = w' ∧ e = e' ∧ r = r' ∧ subs = subs' ∧
      p = p' ∧ a = a' ∧ rk = rk' ∧ d = d' ∧ v = v') (by simp)

def decEqList : (fs gs : List FieldPolicy) → Decidable (fs = gs)
  | [], [] => isTrue rfl
  | [], _ :: _ => isFalse (by simp)
  | _ :: _, [] => isFalse (by simp)
  | f :: fs, g :: gs =>
    let _ := decEq f g
    let _ := decEqList fs gs
    decidable_of_iff (f = g ∧ fs = gs) (by simp)

end

instance : DecidableEq FieldPolicy := decEq

mutual

/-- `collect_leaves`: the field itself where it is an indexed leaf, else those below it. -/
def leaves : FieldPolicy → List FieldPolicy
  | f@⟨_, kind, _, _, _, _, _, subfields, _, _, _, _, _⟩ =>
    if kind = .struct then leavesOf subfields else if kind = .none then [] else [f]

def leavesOf : List FieldPolicy → List FieldPolicy
  | [] => []
  | f :: fs => leaves f ++ leavesOf fs

end

end FieldPolicy

/-- The ids of field paths; the exact index of a field has an id of its own. -/
structure FieldRegistry where
  nextId : XPathId
  ids : SortedMap String XPathId
  exactIds : SortedMap String XPathId
  deriving DecidableEq

namespace FieldRegistry

def new : FieldRegistry := ⟨1, .empty, .empty⟩

def resolve (r : FieldRegistry) (name : String) : FieldRegistry :=
  if (r.ids.get? name).isSome then r
  else { r with nextId := r.nextId + 1, ids := r.ids.insert name r.nextId }

def resolveExact (r : FieldRegistry) (name : String) : FieldRegistry :=
  if (r.exactIds.get? name).isSome then r
  else { r with nextId := r.nextId + 1, exactIds := r.exactIds.insert name r.nextId }

def get (r : FieldRegistry) (name : String) : Option XPathId := r.ids.get? name

def getExact (r : FieldRegistry) (name : String) : Option XPathId := r.exactIds.get? name

def len (r : FieldRegistry) : ℕ := r.ids.size + r.exactIds.size

/-- `FieldRegistry::load`: the next id is above all that are in use. -/
def load (file : Option FieldRegistry) : FieldRegistry :=
  match file with
  | none => new
  | some r =>
    let maxAssigned := (r.ids.entries.map Prod.snd).foldl max 0
    let maxExact := (r.exactIds.entries.map Prod.snd).foldl max 0
    { r with nextId := max (max r.nextId (maxAssigned + 1)) (maxExact + 1) }

end FieldRegistry

def pathBelow (above name : String) : String :=
  if above = "" then name else s!"{above}/{name}"

mutual

/-- `stamp_field`, with the struct arrays around the field counted. -/
def stampField (above : String) (arrayDepth : ℕ) :
    FieldPolicy → FieldRegistry → FieldPolicy × FieldRegistry
  | f@⟨name, kind, _, _, _, _, repeated, subfields, _, _, _, _, _⟩, registry =>
    let full := pathBelow above name
    if kind = .struct then
      let (subfields, registry) := stampFields full (arrayDepth + 1) subfields registry
      ({ f with fullPath := full, depth := arrayDepth + 1, subfields := subfields }, registry)
    else
      -- a flat repeated text is flattened into the row or document around it; repeated numbers
      -- and booleans are rows
      let stamped := { f with
        fullPath := full
        rowKeyed := 0 < arrayDepth ∨ (repeated = true ∧ ¬ (kind = .text ∨ kind.isId))
        depth := if repeated then 1 else arrayDepth }
      let registry := registry.resolve full
      (stamped, if stamped.hasExactIndex then registry.resolveExact full else registry)

def stampFields (above : String) (arrayDepth : ℕ) :
    List FieldPolicy → FieldRegistry → List FieldPolicy × FieldRegistry
  | [], registry => ([], registry)
  | f :: fs, registry =>
    let (f, registry) := stampField above arrayDepth f registry
    let (fs, registry) := stampFields above arrayDepth fs registry
    (f :: fs, registry)

end

/-- The fields of a collection, with their ids. -/
structure IndexPolicy where
  analyzers : SortedMap String AnalyzerConfig
  fields : List FieldPolicy
  registry : FieldRegistry
  deriving DecidableEq

namespace IndexPolicy

def new (analyzers : SortedMap String AnalyzerConfig) (fields : List FieldPolicy) : IndexPolicy :=
  ⟨analyzers, fields, .new⟩

def defaultDocument : IndexPolicy :=
  new (SortedMap.empty.insert "$default" .builtinDefault)
    [.new "id" .idAuto, { FieldPolicy.new "title" .text with weight := .title },
      .new "body" .text, { FieldPolicy.new "year" .integer with searchable := true }]

def indexedFields (p : IndexPolicy) : List FieldPolicy := FieldPolicy.leavesOf p.fields

def xpathOf (p : IndexPolicy) (name : String) : Option XPathId := p.registry.get name

/-- `resolve`: every field is stamped, with the registry the directory holds. -/
def resolve (p : IndexPolicy) (registryFile : Option FieldRegistry) : IndexPolicy :=
  let (fields, registry) := stampFields "" 0 p.fields (FieldRegistry.load registryFile)
  { p with fields := fields, registry := registry }

def maxArrayDepth : ℕ := 3

mutual

def validateField (arrayDepth : ℕ) : FieldPolicy → Except String Unit
  | ⟨name, kind, _, _, _, exact, _, subfields, _, _, _, _, vector⟩ =>
    if kind = .struct then
      if subfields.isEmpty then throw s!"Struct '{name}' must declare at least one subfield"
      else if arrayDepth + 1 > maxArrayDepth then
        throw s!"field '{name}' nests deeper than {maxArrayDepth} array levels"
      else validateFields (arrayDepth + 1) subfields
    else if vector = true ∧ kind ≠ .text then
      throw s!"field '{name}' has $vector = true, but only text fields can be vector-indexed"
    else if kind.isNumeric ∧ exact = false then
      throw s!"numeric field '{name}' must have exact = true (or omit it)"
    else pure ()

def validateFields (arrayDepth : ℕ) : List FieldPolicy → Except String Unit
  | [] => pure ()
  | f :: fs => do
    validateField arrayDepth f
    validateFields arrayDepth fs

end

/-- The first loop of `validate`. -/
def validateNames (names : List String) : List FieldPolicy → Except String Unit
  | [] => pure ()
  | f :: fs =>
    if f.name ∈ names then throw s!"duplicate field name '{f.name}'"
    else if f.weight.min > f.weight.max then throw s!"invalid weight range for '{f.name}'"
    else validateNames (f.name :: names) fs

def checkAnalyzer (analyzers : SortedMap String AnalyzerConfig) (field : FieldPolicy) : Except String Unit :=
  match field.analyzer with
  | none => pure ()
  | some name =>
    if (analyzers.get? name).isNone then
      throw s!"field '{field.name}' references unknown analyzer '{name}'"
    else pure ()

def checkLengths (entry : String × AnalyzerConfig) : Except String Unit :=
  match entry.2.minLength, entry.2.maxLength with
  | some min, some max =>
    if min > max then throw s!"analyzer '{entry.1}': min_length {min} > max_length {max}"
    else pure ()
  | _, _ => pure ()

def validate (p : IndexPolicy) : Except String Unit := do
  validateNames [] p.fields
  let idCount := (p.fields.filter (·.kind.isId)).length
  if idCount ≠ 1 then throw s!"policy must have exactly one id field, found {idCount}"
  validateFields 0 p.fields
  forM p.indexedFields (checkAnalyzer p.analyzers)
  forM p.analyzers.entries checkLengths

end IndexPolicy
