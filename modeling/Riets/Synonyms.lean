/-
The synonym dictionary.

A group holds forms that stand for each other; of a one-way group only the first form is
looked up.  Forms are looked up by what the analyzer makes of their words, in a trie, and
the longest match wins; one with capitals must have been typed as it is written.  The
layers of a database are asked one after the other and matches of one length are merged.

`analyze` is what the analyzer makes of a word.  An index out of range is a fault, as is
a loop that has not returned.
-/
import Mathlib.Data.List.Dedup
import Riets.Highlight
import Riets.NumericFilter
import Riets.WordTrie

def maxPhraseTokens : ℕ := 8

def piecesBetween (sep : Char → Bool) (text : String) : List String :=
  ((text.toList.splitOnP sep).map String.ofList).filter (· ≠ "")

def tokenize (tables : UnicodeTables) (text : String) : List String :=
  piecesBetween (fun c => !tables.isAlphanumeric c) text

def lookupKey (tables : UnicodeTables) (analyze : String → List String) (token : String) : String :=
  (analyze token).headD (tables.toLowercase token)

/-! ### Forms -/

inductive DictionaryError where
  | emptyVariant (text : String)
  | phraseTooLong (text : String) (max : ℕ)
  | groupTooSmall (variants : ℕ)
  deriving DecidableEq

inductive CaseMode where
  | sensitive
  | insensitive
  deriving DecidableEq

/-- `Variant`: one to eight words. -/
structure Variant where
  tokens : List String
  exact : String
  caseMode : CaseMode
  pos : 0 < tokens.length
  limit : tokens.length ≤ maxPhraseTokens
  deriving DecidableEq

inductive QueryNode where
  | term (v : String)
  | phrase (terms : List PhraseTerm)
  | exact (v : String)
  deriving DecidableEq

def QueryNode.fromTerms : List String → QueryNode
  | [text] => .term text
  | terms => .phrase (terms.zipIdx.map fun (text, index) => ⟨text, index⟩)

namespace Variant

def withCase (tables : UnicodeTables) (text : String) (caseMode : CaseMode) :
    Except DictionaryError Variant :=
  let tokens := tokenize tables text
  if hpos : 0 < tokens.length then
    if hlimit : tokens.length ≤ maxPhraseTokens then
      .ok ⟨tokens, " ".intercalate (piecesBetween isWhite text), caseMode, hpos, hlimit⟩
    else .error (.phraseTooLong text maxPhraseTokens)
  else .error (.emptyVariant text)

def new (tables : UnicodeTables) (text : String) : Except DictionaryError Variant :=
  withCase tables text (if text.toList.any tables.isUppercase then .sensitive else .insensitive)

def parse (tables : UnicodeTables) (spec : String) : Except DictionaryError Variant :=
  match spec.toList with
  | '~' :: rest => withCase tables (String.ofList rest) .insensitive
  | _ => new tables spec

variable (v : Variant)

def isShortForm (tables : UnicodeTables) : Bool :=
  match v.tokens with
  | [token] => token.toList.any fun c => tables.isUppercase c || c.isDigit
  | _ => false

def key (tables : UnicodeTables) (analyze : String → List String) : List String :=
  v.tokens.map (lookupKey tables analyze)

/-- `matches`, for words that have the lookup keys of the variant. -/
def matchesTyped (surface : List String) : Bool :=
  match v.caseMode with
  | .insensitive => true
  | .sensitive => (v.tokens.zip surface).all fun (expected, actual) => expected == actual

def toNode (tables : UnicodeTables) : QueryNode :=
  match v.caseMode with
  | .sensitive => .exact v.exact
  | .insensitive => .fromTerms (v.tokens.map tables.toLowercase)

end Variant

structure NodeAlternative where
  node : QueryNode
  numeral : Bool
  deriving DecidableEq

structure SynonymMatch where
  len : ℕ
  alternatives : List NodeAlternative
  typedExact : Option String
  typedShortForm : Bool
  deriving DecidableEq

/-! ### Numerals -/

structure RomanConfig where
  enabled : Bool
  minValue : ℕ
  maxValue : ℕ
  minLen : ℕ
  arabicToRoman : Bool
  denylist : List String
  deriving DecidableEq

def RomanConfig.default : RomanConfig where
  enabled := true
  minValue := 2
  maxValue := 3999
  minLen := 2
  arabicToRoman := true
  denylist := ["MIX", "DIX", "LIV", "CIV", "DIV", "DC", "CD", "MD", "MC", "CC", "CL", "CV", "XL", "LI", "DI",
    "MI", "MM"]

def romanTable : List (ℕ × String) :=
  [(1000, "M"), (900, "CM"), (500, "D"), (400, "CD"), (100, "C"), (90, "XC"), (50, "L"), (40, "XL"),
    (10, "X"), (9, "IX"), (5, "V"), (4, "IV"), (1, "I")]

/-- Each symbol of the table as often as its value fits into the rest. -/
def romanDigits : List (ℕ × String) → ℕ → String
  | [], _ => ""
  | (unit, symbol) :: table, value =>
    String.join (List.replicate (value / unit) symbol) ++ romanDigits table (value % unit)

def toRoman (value : ℕ) : Option String :=
  if value = 0 ∨ 3999 < value then none else some (romanDigits romanTable value)

def romanSymbol : Char → Option ℕ
  | 'I' => some 1
  | 'V' => some 5
  | 'X' => some 10
  | 'L' => some 50
  | 'C' => some 100
  | 'D' => some 500
  | 'M' => some 1000
  | _ => none

/-- The symbols from the last to the first, with the total and the largest one seen. -/
def romanTotal : List Char → ℕ → ℕ → Option ℕ
  | [], total, _ => some total
  | c :: cs, total, largestSeen => do
    let value ← romanSymbol c
    if value < largestSeen then
      if total < value then none else romanTotal cs (total - value) largestSeen
    else romanTotal cs (total + value) value

def parseRoman (surface : String) : Option ℕ := do
  if surface = "" ∨ 15 < surface.utf8ByteSize then none
  else
    let value ← romanTotal surface.toList.reverse 0 0
    if value < 2 ^ 16 then
      let canonical ← toRoman value
      if canonical = surface then some value else none
    else none

namespace RomanConfig

variable (config : RomanConfig)

def accepts (roman : String) (value : ℕ) : Bool :=
  config.minLen ≤ roman.utf8ByteSize && (config.minValue ≤ value && value ≤ config.maxValue) &&
    !config.denylist.contains roman

def romanValue (surface : String) : Option ℕ := do
  let value ← parseRoman surface
  if config.accepts surface value then some value else none

def romanForArabic (surface : String) : Option String :=
  if surface = "" ∨ 4 < surface.utf8ByteSize ∨ surface.toList.head? = some '0' ∨
      !surface.toList.all Char.isDigit then none
  else do
    let value ← parseDigits surface.toList
    let roman ← toRoman value
    if config.accepts roman value then some roman else none

/-- The two forms of a number, `expand_number` of a dictionary. -/
def expandNumber (tables : UnicodeTables) (surface : String) : Option (List NodeAlternative) := do
  if !config.enabled then none
  else
    let other ← match config.romanValue surface with
      | some value => some (toString value)
      | none =>
        if config.arabicToRoman then (config.romanForArabic surface).map tables.toLowercase else none
    some [⟨.term (tables.toLowercase surface), true⟩, ⟨.term other, true⟩]

end RomanConfig

def isNumber (text : String) : Bool := text ≠ "" && text.toList.all Char.isDigit

def pushUnique (out : List NodeAlternative) (alternative : NodeAlternative) : List NodeAlternative :=
  match out.findIdx? (·.node = alternative.node) with
  | some place => out.modify place fun known => { known with numeral := known.numeral || alternative.numeral }
  | none => out ++ [alternative]

/-! ### Dictionaries -/

/-- `Group`: at least two forms. -/
structure SynonymGroup where
  variants : List Variant
  oneWay : Bool
  two : 2 ≤ variants.length
  deriving DecidableEq

def SynonymGroup.findable (group : SynonymGroup) : List Variant :=
  if group.oneWay then group.variants.take 1 else group.variants

structure VariantRef where
  group : ℕ
  variant : ℕ
  deriving DecidableEq

structure DictionaryBuilder where
  groups : List SynonymGroup
  roman : RomanConfig

structure SynonymDictionary where
  nodes : List (WordTrie.TrieNode String VariantRef)
  groups : List SynonymGroup
  roman : RomanConfig

structure Synonyms where
  layers : List SynonymDictionary

namespace DictionaryBuilder

/-- A group of the distinct ones of some forms, with `dedupe_variants`. -/
def groupOf (variants : List Variant) (oneWay : Bool) : Except DictionaryError SynonymGroup :=
  let unique := variants.eraseDups
  if htwo : 2 ≤ unique.length then .ok ⟨unique, oneWay, htwo⟩
  else .error (.groupTooSmall unique.length)

def addGroup (b : DictionaryBuilder) (variants : List Variant) : Except DictionaryError DictionaryBuilder := do
  let group ← groupOf variants false
  return { b with groups := b.groups ++ [group] }

def addOneWay (b : DictionaryBuilder) (variants : List Variant) : Except DictionaryError DictionaryBuilder := do
  let group ← groupOf variants true
  return { b with groups := b.groups ++ [group] }

/-- The forms that are looked up, each with its key, in the order of their groups. -/
def entries (tables : UnicodeTables) (analyze : String → List String) (groups : List SynonymGroup) :
    List (List String × VariantRef) :=
  groups.zipIdx.flatMap fun (group, groupIndex) =>
    group.findable.zipIdx.map fun (variant, variantIndex) =>
      (variant.key tables analyze, ⟨groupIndex, variantIndex⟩)

def build (b : DictionaryBuilder) (tables : UnicodeTables) (analyze : String → List String) :
    Fallible SynonymDictionary := do
  let nodes ← WordTrie.build (entries tables analyze b.groups)
  return ⟨nodes, b.groups, b.roman⟩

end DictionaryBuilder

namespace SynonymDictionary

open Fallible

variable (d : SynonymDictionary) (tables : UnicodeTables)

def variantAt (r : VariantRef) : Fallible Variant := do
  let group ← Fallible.index d.groups r.group
  Fallible.index group.variants r.variant

def matchedTerminals (surface : List String) (len : ℕ) : List VariantRef → Fallible (List VariantRef)
  | [] => .ok []
  | r :: rest => do
    let variant ← d.variantAt r
    let typed ← slice surface 0 len
    let matched ← matchedTerminals surface len rest
    return if variant.matchesTyped typed then r :: matched else matched

def walkKeys (surface : List String) (acceptLen : ℕ → Fallible Bool) :
    List String → ℕ → ℕ → Option (ℕ × List VariantRef) → Fallible (Option (ℕ × List VariantRef))
  | [], _, _, best => .ok best
  | key :: keys, depth, node, best => do
    match ← WordTrie.child d.nodes node key with
    | none => .ok best
    | some next => do
      let len := depth + 1
      if ← acceptLen len then do
        let reached ← Fallible.index d.nodes next
        let matched ← d.matchedTerminals surface len reached.terminals
        walkKeys surface acceptLen keys len next (if matched.isEmpty then best else some (len, matched))
      else walkKeys surface acceptLen keys len next best

def expandNumber (surface : String) : Option (List NodeAlternative) := d.roman.expandNumber tables surface

def alternativeOf (variant : Variant) : NodeAlternative :=
  let node := variant.toNode tables
  ⟨node, match node with
    | .term term => isNumber term
    | _ => false⟩

def matchOf (surface : List String) (len : ℕ) (matched : List VariantRef) : Fallible SynonymMatch := do
  let variants ← collect (matched.map d.variantAt)
  let typedExact := variants.findSome? fun variant =>
    if variant.caseMode = .sensitive then some variant.exact else none
  let typedShortForm := variants.any (·.isShortForm tables)
  let groups ← collect
    ((((matched.map VariantRef.group).insertionSort (· ≤ ·)).dedup).map (Fallible.index d.groups))
  let alternatives := (groups.flatMap SynonymGroup.variants).foldl
    (fun out variant => pushUnique out (alternativeOf tables variant)) []
  if len = 1 then do
    let word ← Fallible.index surface 0
    let numbers := (d.expandNumber tables word).getD []
    return ⟨len, numbers.foldl pushUnique alternatives, typedExact, typedShortForm⟩
  else return ⟨len, alternatives, typedExact, typedShortForm⟩

/-- `match_at` of one dictionary. -/
def matchAt (surface keys : List String) (acceptLen : ℕ → Fallible Bool) :
    Fallible (Option SynonymMatch) := do
  match ← d.walkKeys surface acceptLen (keys.take maxPhraseTokens) 0 0 none with
  | none => .ok none
  | some (len, matched) => do
    let found ← d.matchOf tables surface len matched
    return some found

end SynonymDictionary

namespace Synonyms

variable (s : Synonyms) (tables : UnicodeTables)

def merge (best : Option SynonymMatch) (found : SynonymMatch) : SynonymMatch :=
  match best with
  | none => found
  | some known =>
    if known.len = found.len then
      { len := known.len
        alternatives := found.alternatives.foldl pushUnique known.alternatives
        typedExact := known.typedExact.or found.typedExact
        typedShortForm := known.typedShortForm || found.typedShortForm }
    else if found.len < known.len then known
    else found

def mergeLayers (surface keys : List String) (acceptLen : ℕ → Fallible Bool) :
    List SynonymDictionary → Option SynonymMatch → Fallible (Option SynonymMatch)
  | [], best => .ok best
  | layer :: layers, best => do
    match ← layer.matchAt tables surface keys acceptLen with
    | none => mergeLayers surface keys acceptLen layers best
    | some found => mergeLayers surface keys acceptLen layers (some (merge best found))

def matchAt (surface keys : List String) (acceptLen : ℕ → Fallible Bool) :
    Fallible (Option SynonymMatch) :=
  mergeLayers tables surface keys acceptLen s.layers none

def expandNumber (surface : String) : Option (List NodeAlternative) :=
  s.layers.findSome? fun layer => layer.expandNumber tables surface

/-- The layers that some builders build, each with its own analyzer. -/
def ofBuilders (builders : List (DictionaryBuilder × (String → List String))) : Fallible Synonyms := do
  let layers ← Fallible.collect (builders.map fun layer => layer.1.build tables layer.2)
  return ⟨layers⟩

end Synonyms

/-! ### Queries -/

def fullWeight : ℕ := 1000

def numeralWeight : ℕ := 1000

def synonymWeight : ℕ := 700

def isMultiWord (text : String) : Bool :=
  2 ≤ (piecesBetween isWhite text).length

def isTypedForm (node : QueryNode) (typedWords : List String) : Bool :=
  match node with
  | .term term => typedWords = [term]
  | .phrase terms => terms.map PhraseTerm.text = typedWords
  | .exact _ => false

def weightOf (alternative : NodeAlternative) (typedShortForm typedSeveralWords : Bool) : ℕ :=
  if alternative.numeral then numeralWeight
  else
    let spelledOut := match alternative.node with
      | .phrase words => decide (1 < words.length)
      | .exact text => isMultiWord text
      | .term _ => false
    if spelledOut && (typedShortForm || typedSeveralWords) then fullWeight else synonymWeight

def QueryNode.toQuery : QueryNode → Query
  | .term word => .term word
  | .phrase words => .phrase words
  | .exact text => .exactly text

def originalForm (words : List String) (wrap : List Query → Query) : Query :=
  match words with
  | [word] => .term word
  | _ => wrap (words.map .term)

def synonymForm (typed : Query) (alternatives : List (Query × ℕ)) : Query :=
  if alternatives.isEmpty then typed else .synonym ((typed, fullWeight) :: alternatives)

/-! ### Runs of words -/

/-- The tokens of a run of words, the word of each, and where the tokens of each word start. -/
structure RunTokens where
  surface : List String
  owner : List ℕ
  wordStart : List ℕ

def layOut (tables : UnicodeTables) : List String → ℕ → RunTokens → RunTokens
  | [], _, t => { t with wordStart := t.wordStart ++ [t.surface.length] }
  | word :: words, index, t =>
    let tokens := tokenize tables word
    layOut tables words (index + 1)
      { surface := t.surface ++ tokens
        owner := t.owner ++ tokens.map fun _ => index
        wordStart := t.wordStart ++ [t.surface.length] }

def markBoundaries : List ℕ → List Bool → Fallible (List Bool)
  | [], boundary => .ok boundary
  | start :: starts, boundary => do
    let marked ← Fallible.setAt boundary start true
    markBoundaries starts marked

structure SynonymRun where
  words : List String
  tokens : RunTokens
  keys : List String
  boundary : List Bool

namespace SynonymRun

open Fallible

variable (r : SynonymRun) (s : Synonyms) (tables : UnicodeTables) (wrap : List Query → Query)

def alternatives (found : SynonymMatch) (typedWords : List String) (severalWords : Bool) : List (Query × ℕ) :=
  (found.alternatives.filter fun alternative => !isTypedForm alternative.node typedWords).map
    fun alternative =>
      let typedExact := match alternative.node, found.typedExact with
        | .exact text, some typed => decide (text = typed)
        | _, _ => false
      (alternative.node.toQuery,
        if typedExact then fullWeight
        else weightOf alternative (!severalWords && found.typedShortForm) severalWords)

def part (index : ℕ) : Fallible (Query × ℕ) := do
  let start ← Fallible.index r.tokens.wordStart index
  let stop ← Fallible.index r.tokens.wordStart (index + 1)
  let word ← Fallible.index r.words index
  if start = stop then .ok (.term word, index + 1)
  else do
    let surface ← slice r.tokens.surface start r.tokens.surface.length
    let keys ← slice r.keys start r.keys.length
    match ← s.matchAt tables surface keys fun len => Fallible.index r.boundary (start + len) with
    | some found => do
      let last ← Fallible.index r.tokens.owner (start + found.len - 1)
      let covered ← slice r.words index (last + 1)
      let severalWords := decide (1 < covered.length) || decide (1 < found.len)
      let typed ← slice r.tokens.surface start (start + found.len)
      let alternatives := alternatives found (typed.map tables.toLowercase) severalWords
      return (synonymForm (originalForm covered wrap) alternatives, last + 1)
    | none =>
      if stop - start = 1 then do
        let token ← Fallible.index r.tokens.surface start
        match s.expandNumber tables token with
        | some numbers =>
          let alternatives := (numbers.filter fun alternative =>
              !isTypedForm alternative.node [tables.toLowercase token]).map fun alternative =>
            (alternative.node.toQuery, weightOf alternative false false)
          return (synonymForm (.term word) alternatives, index + 1)
        | none => return (.term word, index + 1)
      else return (.term word, index + 1)

def parts : ℕ → ℕ → Fallible (List Query)
  | turns, index =>
    if index < r.words.length then
      match turns with
      | 0 => .fault
      | turns + 1 => do
        let (query, next) ← r.part s tables wrap index
        let rest ← parts turns next
        return query :: rest
    else .ok []

end SynonymRun

/-- `expand_run`: every turn takes at least one word. -/
def expandRun (s : Synonyms) (tables : UnicodeTables) (analyze : String → List String)
    (wrap : List Query → Query) (words : List String) : Fallible (List Query) := do
  let tokens := layOut tables words 0 ⟨[], [], []⟩
  let boundary ← markBoundaries tokens.wordStart (List.replicate (tokens.surface.length + 1) false)
  SynonymRun.parts ⟨words, tokens, tokens.surface.map (lookupKey tables analyze), boundary⟩ s tables wrap
    words.length 0
