/-
From a parsed document to what is indexed.

A parsed document is a tree: leaves with their values, and arrays of elements that are
nodes again.  `indexDocument` looks every path up in the policy.  The values of a repeated
text field become one flattened part of what is around it; every element of another array
becomes a row of its own, with the row of the element around it as its parent.

A row gets its id before the elements inside it are looked at, and is added to the rows after
them.
-/
import Riets.NumericFilter
import Riets.PolicyResolve
import Riets.SearchDatabase

/-! ### Looking a path up -/

namespace FieldPolicy

mutual

/-- The `find` of `field_by_path`, on one field. -/
def byPath (path : String) : FieldPolicy → Option FieldPolicy
  | f@⟨_, kind, _, _, _, _, _, subfields, fullPath, _, _, _, _⟩ =>
    if fullPath = path then some f
    else if kind = .struct then byPathOf path subfields
    else none

def byPathOf (path : String) : List FieldPolicy → Option FieldPolicy
  | [] => none
  | f :: fs => (byPath path f).or (byPathOf path fs)

end

mutual

def leafByPath (path : String) : FieldPolicy → Option FieldPolicy
  | f@⟨_, kind, _, _, _, _, _, subfields, fullPath, _, _, _, _⟩ =>
    if kind = .struct then leafByPathOf path subfields
    else if fullPath = path then some f
    else none

def leafByPathOf (path : String) : List FieldPolicy → Option FieldPolicy
  | [] => none
  | f :: fs => (leafByPath path f).or (leafByPathOf path fs)

end

/-- `FieldPolicy::xpath`; `none` where the source panics. -/
def xpath (f : FieldPolicy) (p : IndexPolicy) : Option XPathId := p.xpathOf f.fullPath

/-- `FieldPolicy::exact_xpath`; the outer `none` where the source panics. -/
def exactXPath (f : FieldPolicy) (p : IndexPolicy) : Option (Option XPathId) :=
  if f.hasExactIndex then (p.registry.getExact f.fullPath).map some else some none

end FieldPolicy

namespace IndexPolicy

def fieldByPath (p : IndexPolicy) (path : String) : Option FieldPolicy :=
  FieldPolicy.byPathOf path p.fields

def leafByPath (p : IndexPolicy) (path : String) : Option FieldPolicy :=
  FieldPolicy.leafByPathOf path p.fields

end IndexPolicy

/-! ### Documents -/

structure LeafValue where
  path : String
  value : String
  deriving DecidableEq, Repr

mutual

inductive ParsedNode where
  | mk (leaves : List LeafValue) (arrays : List ArrayField)

inductive ArrayField where
  | mk (path : String) (elements : List ParsedNode)

end

def ParsedNode.leaves : ParsedNode → List LeafValue
  | mk leaves _ => leaves

def ParsedNode.arrays : ParsedNode → List ArrayField
  | mk _ arrays => arrays

def ArrayField.path : ArrayField → String
  | mk path _ => path

def ArrayField.elements : ArrayField → List ParsedNode
  | mk _ elements => elements

structure DocumentPart where
  xpath : XPathId
  text : String
  weight : WeightInterval
  exact : Bool
  names : Bool
  analyzer : Option String
  gap : ℕ
  segments : List String
  deriving DecidableEq, Repr

def DocumentPart.flattened (xpath : XPathId) (segments : List String) (weight : WeightInterval)
    (exact : Bool) (gap : ℕ) : DocumentPart :=
  ⟨xpath, "", weight, exact, false, none, gap, segments⟩

structure ArrayRow where
  arrayRowId : ArrayRowId
  parent : Option ArrayRowId
  parts : List DocumentPart
  numericPoints : List NumericPoint
  boolPoints : List BoolPoint
  deriving DecidableEq, Repr

structure IndexedDocument where
  docId : DocId
  parts : List DocumentPart
  numericPoints : List NumericPoint
  arrayRows : List ArrayRow
  boolPoints : List BoolPoint
  deriving DecidableEq, Repr

/-! ### Indexing -/

namespace JsonIndexing

def arrayGap : ℕ := 10

def parseBool (raw : String) : Option Bool :=
  if trimWhite raw.toList = "true".toList then some true
  else if trimWhite raw.toList = "false".toList then some false
  else none

structure LeafPoints where
  parts : List DocumentPart
  numericPoints : List NumericPoint
  boolPoints : List BoolPoint
  deriving DecidableEq

section Indexing

-- `str::parse::<f64>` with the checks of `parse_float`
variable (parseFloat : String → Option NumericValue) (p : IndexPolicy)

/-- A text and, where the field has an exact index, its exact copy. -/
def textParts (field : FieldPolicy) (raw : String) (names : Bool) : Option (List DocumentPart) := do
  let xpath ← field.xpath p
  let exactXPath ← field.exactXPath p
  let part : DocumentPart := ⟨xpath, raw, field.weight, false, false, field.analyzer, 0, []⟩
  pure (part :: exactXPath.toList.map fun exact => { part with xpath := exact, exact := true, names })

def numericLeaf (field : FieldPolicy) (raw : String) (value : Option NumericValue) : Option LeafPoints :=
  match value with
  | none => some ⟨[], [], []⟩
  | some value => do
    let xpath ← field.xpath p
    let parts : List DocumentPart :=
      if field.searchable then [⟨xpath, raw, field.weight, true, false, field.analyzer, 0, []⟩] else []
    pure ⟨parts, [⟨xpath, value⟩], []⟩

/-- One turn of the loop of `index_leaves`. -/
def indexLeaf (leaf : LeafValue) : Option LeafPoints :=
  match p.leafByPath leaf.path with
  | none => some ⟨[], [], []⟩
  | some field =>
    match field.kind with
    | .text => (textParts p field leaf.value true).map fun parts => ⟨parts, [], []⟩
    | .id | .idAuto =>
      if field.searchable then (textParts p field leaf.value false).map fun parts => ⟨parts, [], []⟩
      else some ⟨[], [], []⟩
    | .integer => numericLeaf p field leaf.value (parseInteger leaf.value.toList)
    | .float => numericLeaf p field leaf.value (parseFloat leaf.value)
    | .bool =>
      match parseBool leaf.value with
      | none => some ⟨[], [], []⟩
      | some value => (field.xpath p).map fun xpath => ⟨[], [], [⟨xpath, value⟩]⟩
    | .none | .date | .struct => some ⟨[], [], []⟩

def indexLeaves : List LeafValue → Option LeafPoints
  | [] => some ⟨[], [], []⟩
  | leaf :: leaves => do
    let first ← indexLeaf parseFloat p leaf
    let rest ← indexLeaves leaves
    pure ⟨first.parts ++ rest.parts, first.numericPoints ++ rest.numericPoints,
      first.boolPoints ++ rest.boolPoints⟩

def flattenScalarArray (elements : List ParsedNode) (field : FieldPolicy) : Option (List DocumentPart) :=
  let segments := elements.flatMap fun e => e.leaves.map LeafValue.value
  if segments = [] then some []
  else do
    let xpath ← field.xpath p
    let exactXPath ← field.exactXPath p
    pure (.flattened xpath segments field.weight false arrayGap ::
      exactXPath.toList.map fun exact =>
        { DocumentPart.flattened exact segments field.weight true arrayGap with
          names := field.kind = .text })

def IsFlat (field : FieldPolicy) : Prop :=
  field.kind ≠ .struct ∧ (field.kind = .text ∨ field.kind = .id ∨ field.kind = .idAuto)

instance (field : FieldPolicy) : Decidable (IsFlat field) := inferInstanceAs (Decidable (_ ∧ _))

/-- What `index_arrays` is handed to add to.  (Its `bool_points` it only hands on.) -/
structure ArrayState where
  parts : List DocumentPart
  rows : List ArrayRow
  allocator : ArrayRowAllocator
  deriving DecidableEq

mutual

def indexArrays (parentRow : Option ArrayRowId) : List ArrayField → ArrayState → Option ArrayState
  | [], st => some st
  | ⟨path, elements⟩ :: arrays, st =>
    match p.fieldByPath path with
    | none => indexArrays parentRow arrays st
    | some field =>
      if IsFlat field then
        (flattenScalarArray p elements field).bind fun parts =>
          indexArrays parentRow arrays { st with parts := st.parts ++ parts }
      else (indexElements parentRow elements st).bind fun st => indexArrays parentRow arrays st

def indexElements (parentRow : Option ArrayRowId) : List ParsedNode → ArrayState → Option ArrayState
  | [], st => some st
  | ⟨leaves, arrays⟩ :: elements, st =>
    (indexLeaves parseFloat p leaves).bind fun points =>
      (indexArrays (some st.allocator.alloc.1) arrays
          ⟨points.parts, st.rows, st.allocator.alloc.2⟩).bind fun inner =>
        indexElements parentRow elements
          { st with
            rows := inner.rows ++ [⟨st.allocator.alloc.1, parentRow, inner.parts, points.numericPoints,
              points.boolPoints⟩]
            allocator := inner.allocator }

end

/-- `index_document`; `none` where the source panics. -/
def indexDocument (docId : DocId) (parsed : ParsedNode) (allocator : ArrayRowAllocator) :
    Option (IndexedDocument × ArrayRowAllocator) :=
  (indexLeaves parseFloat p parsed.leaves).bind fun points =>
    (indexArrays parseFloat p none parsed.arrays ⟨points.parts, [], allocator⟩).map fun st =>
      (⟨docId, st.parts, points.numericPoints, st.rows, points.boolPoints⟩, st.allocator)

end Indexing

end JsonIndexing
