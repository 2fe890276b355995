/-
Analyzer configurations as JSON.

The reading and writing that `serde` derives for a configuration: a struct is written with all
its fields and read from an object or from an array of its fields, a field that is not there is
the default one, and the forms of an untagged enum are tried in turn.  A hash set is written in
the order it is walked, which is a parameter.
-/
import Riets.Analyzer
import Riets.Json
import Mathlib.Data.Finset.Sort

structure SetOrder where
  words : Finset String → List String
  words_eq : ∀ set, (words set).toFinset = set
  chars : Finset Char → List Char
  chars_eq : ∀ set, (chars set).toFinset = set

def SetOrder.sorted : SetOrder where
  words set := set.sort
  words_eq set := set.sort_toFinset (· ≤ ·)
  chars set := set.sort
  chars_eq set := set.sort_toFinset (· ≤ ·)

namespace Json

/-! ### Plain values -/

def asBool : Json → Option Bool
  | bool b => some b
  | _ => none

def asStr : Json → Option String
  | string s => some s
  | _ => none

def asUInt (bits : ℕ) : Json → Option ℕ
  | number (.posInt n) => if n < 2 ^ bits then some n else none
  | _ => none

def asChar : Json → Option Char
  | string s =>
    match s.toList with
    | [c] => some c
    | _ => none
  | _ => none

/-- `Option`: `null` is none. -/
def asOption {α : Type} (read : Json → Option α) : Json → Option (Option α)
  | null => some none
  | value => (read value).map some

def asList {α : Type} (read : Json → Option α) : Json → Option (List α)
  | array items => items.mapM read
  | _ => none

def ofOption {α : Type} (write : α → Json) : Option α → Json
  | none => null
  | some a => write a

/-- The fields of a struct of `count` fields, by their place or their name. -/
def fieldsOf (count : ℕ) : Json → Option (ℕ → String → Option Json)
  | object entries => some fun _ key => get entries key
  | array items => if items.length ≤ count then some fun i _ => items[i]? else none
  | _ => none

def orDefault {α : Type} (read : Json → Option α) (default : α) : Option Json → Option α
  | none => some default
  | some value => read value

end Json

open Json

/-! ### The parts of a configuration -/

namespace CorelamoTokenizer

def label : CorelamoTokenizer → String
  | wordDelimiter => "word_delimiter"
  | keyword => "keyword"
  | whitespace => "whitespace"
  | standard => "standard"
  | url => "url"
  | code => "code"
  | filepath => "filepath"

def ofLabel : String → Option CorelamoTokenizer
  | "word_delimiter" => some wordDelimiter
  | "keyword" => some keyword
  | "whitespace" => some whitespace
  | "standard" => some standard
  | "url" => some url
  | "code" => some code
  | "filepath" => some filepath
  | _ => none

/-- A unit variant is its name, or an object with its name and `null`. -/
def ofJson : Json → Option CorelamoTokenizer
  | .string s => ofLabel s
  | .object [(s, .null)] => ofLabel s
  | _ => none

theorem ofLabel_label (t : CorelamoTokenizer) : ofLabel t.label = some t := by
  cases t <;> rfl

end CorelamoTokenizer

namespace AnalyzerLanguage

def name : AnalyzerLanguage → String
  | arabic => "arabic"
  | danish => "danish"
  | dutch => "dutch"
  | english => "english"
  | finnish => "finnish"
  | french => "french"
  | german => "german"
  | greek => "greek"
  | hungarian => "hungarian"
  | italian => "italian"
  | norwegian => "norwegian"
  | portuguese => "portuguese"
  | romanian => "romanian"
  | russian => "russian"
  | spanish => "spanish"
  | swedish => "swedish"
  | tamil => "tamil"
  | turkish => "turkish"

/-- The `match` of `Language::from_name`. -/
def ofLower : String → Option AnalyzerLanguage
  | "arabic" => some arabic
  | "danish" => some danish
  | "dutch" => some dutch
  | "english" => some english
  | "finnish" => some finnish
  | "french" => some french
  | "german" => some german
  | "greek" => some greek
  | "hungarian" => some hungarian
  | "italian" => some italian
  | "norwegian" => some norwegian
  | "portuguese" => some portuguese
  | "romanian" => some romanian
  | "russian" => some russian
  | "spanish" => some spanish
  | "swedish" => some swedish
  | "tamil" => some tamil
  | "turkish" => some turkish
  | _ => none

/-- `Language::from_name`: `to_ascii_lowercase` first. -/
def fromName (s : String) : Option AnalyzerLanguage := ofLower (String.ofList (s.toList.map Char.toLower))

def ofJson (value : Json) : Option AnalyzerLanguage := value.asStr.bind fromName

theorem fromName_name (l : AnalyzerLanguage) : fromName l.name = some l := by
  cases l <;> rfl

end AnalyzerLanguage

namespace Stopwords

def toJson (order : SetOrder) : Stopwords → Json
  | languageDefaults lang => .string lang.name
  | words set => .array ((order.words set).map .string)

def ofJson (value : Json) : Option Stopwords :=
  match AnalyzerLanguage.ofJson value with
  | some lang => some (languageDefaults lang)
  | none => (asList asStr value).map fun list => words list.toFinset

end Stopwords

namespace CharFilter

def toJson : CharFilter → Json
  | htmlStrip => .ofEntries [("html_strip", .ofEntries [])]
  | markdownStrip => .ofEntries [("markdown_strip", .ofEntries [])]
  | patternReplace pattern replacement =>
    .ofEntries [("pattern_replace", .ofEntries [("pattern", .string pattern), ("replacement", .string replacement)])]

def patternOfJson (value : Json) : Option CharFilter := do
  let field ← fieldsOf 2 value
  let pattern ← (field 0 "pattern").bind asStr
  let replacement ← (field 1 "replacement").bind asStr
  some (patternReplace pattern replacement)

/-- Untagged: the first form whose key is there with a value of its type. -/
def ofJson : Json → Option CharFilter
  | .object entries =>
    if ((get entries "html_strip").bind (fieldsOf 0)).isSome then some htmlStrip
    else if ((get entries "markdown_strip").bind (fieldsOf 0)).isSome then some markdownStrip
    else (get entries "pattern_replace").bind patternOfJson
  | _ => none

end CharFilter

namespace AnalyzerConfig

def written (order : SetOrder) (c : AnalyzerConfig) : List (String × Json) :=
  [ ("tokenizer", .string c.tokenizer.label),
    ("stemming", ofOption (fun lang => .string lang.name) c.stemming),
    ("lowercase", .bool c.lowercase),
    ("ascii_folding", .bool c.asciiFolding),
    ("stopwords", ofOption (Stopwords.toJson order) c.stopwords),
    ("min_length", ofOption (fun n => .number (.posInt n)) c.minLength),
    ("max_length", ofOption (fun n => .number (.posInt n)) c.maxLength),
    ("preserve_original", .bool c.preserveOriginal),
    ("literal_symbols", .array ((order.chars c.literalSymbols).map fun char => .string (String.ofList [char]))),
    ("char_filters", .array (c.charFilters.map CharFilter.toJson))]

def toJson (order : SetOrder) (c : AnalyzerConfig) : Json := .ofEntries (c.written order)

def ofJson (value : Json) : Option AnalyzerConfig := do
  let field ← fieldsOf 10 value
  let tokenizer ← orDefault CorelamoTokenizer.ofJson default.tokenizer (field 0 "tokenizer")
  let stemming ← orDefault (asOption AnalyzerLanguage.ofJson) default.stemming (field 1 "stemming")
  let lowercase ← orDefault asBool default.lowercase (field 2 "lowercase")
  let asciiFolding ← orDefault asBool default.asciiFolding (field 3 "ascii_folding")
  let stopwords ← orDefault (asOption Stopwords.ofJson) default.stopwords (field 4 "stopwords")
  let minLength ← orDefault (asOption (asUInt 64)) default.minLength (field 5 "min_length")
  let maxLength ← orDefault (asOption (asUInt 64)) default.maxLength (field 6 "max_length")
  let preserveOriginal ← orDefault asBool default.preserveOriginal (field 7 "preserve_original")
  let literalSymbols ←
    orDefault (fun value => (asList asChar value).map List.toFinset) default.literalSymbols (field 8 "literal_symbols")
  let charFilters ← orDefault (asList CharFilter.ofJson) default.charFilters (field 9 "char_filters")
  some ⟨tokenizer, stemming, lowercase, asciiFolding, stopwords, minLength, maxLength, preserveOriginal,
    literalSymbols, charFilters⟩

/-- The lengths are `usize`s. -/
structure Fits (c : AnalyzerConfig) : Prop where
  minLength : ∀ n ∈ c.minLength, n < 2 ^ 64
  maxLength : ∀ n ∈ c.maxLength, n < 2 ^ 64

end AnalyzerConfig

/-! ### Reading back what was written -/

namespace Json

theorem lt_of_asUInt {bits n : ℕ} {value : Json} (h : asUInt bits value = some n) : n < 2 ^ bits := by
  unfold asUInt at h
  split at h
  · split_ifs at h with hlt
    rwa [← Option.some_inj.mp h]
  · cases h

theorem asOption_of_ne {α : Type} {read : Json → Option α} {value : Json} (h : value ≠ .null) :
    asOption read value = (read value).map some := by
  cases value with
  | null => exact absurd rfl h
  | bool _ | number _ | string _ | array _ | object _ => rfl

theorem asOption_ofOption {α : Type} {write : α → Json} {read : Json → Option α} {o : Option α}
    (hread : ∀ a ∈ o, read (write a) = some a) (hnull : ∀ a, write a ≠ .null) :
    asOption read (ofOption write o) = some o := by
  cases o with
  | none => rfl
  | some a => rw [ofOption, asOption_of_ne (hnull a), hread a rfl, Option.map_some]

theorem mapM_write {α : Type} {write : α → Json} {read : Json → Option α} (l : List α)
    (h : ∀ a ∈ l, read (write a) = some a) : (l.map write).mapM read = some l := by
  induction l with
  | nil => rfl
  | cons a l ih =>
    obtain ⟨ha, hl⟩ := List.forall_mem_cons.mp h
    rw [List.map_cons, List.mapM_cons, ha, ih hl]
    rfl

end Json

theorem Stopwords.ofJson_toJson (order : SetOrder) (s : Stopwords) : ofJson (s.toJson order) = some s := by
  cases s with
  | languageDefaults lang =>
    have hlang : AnalyzerLanguage.ofJson (.string lang.name) = some lang := lang.fromName_name
    rw [toJson, ofJson, hlang]
  | words set =>
    have hlist : asList asStr (.array ((order.words set).map .string)) = some (order.words set) :=
      mapM_write _ fun _ _ => rfl
    show (asList asStr (.array ((order.words set).map .string))).map _ = _
    rw [hlist, Option.map_some, order.words_eq]

theorem Stopwords.toJson_ne_null (order : SetOrder) (s : Stopwords) : s.toJson order ≠ .null := by
  cases s with
  | languageDefaults _ | words _ => exact Json.noConfusion

theorem CharFilter.patternOfJson_ofEntries (pattern replacement : String) :
    patternOfJson (.ofEntries [("pattern", .string pattern), ("replacement", .string replacement)]) =
      some (patternReplace pattern replacement) := by
  have hget := @get_of_keys [("pattern", .string pattern), ("replacement", .string replacement)]
    ["pattern", "replacement"] rfl (by decide)
  obtain ⟨hpattern, hreplacement, -⟩ := by simpa only [List.forall_mem_cons] using hget
  rw [patternOfJson, ofEntries, fieldsOf]
  simp only [Option.bind_eq_bind, Option.bind_some, hpattern, hreplacement, asStr]

theorem CharFilter.ofJson_toJson (f : CharFilter) : ofJson f.toJson = some f := by
  cases f with
  | htmlStrip => rfl
  | markdownStrip => rfl
  | patternReplace pattern replacement => exact patternOfJson_ofEntries pattern replacement

namespace AnalyzerConfig

open Option

theorem ofJson_toJson (order : SetOrder) {c : AnalyzerConfig} (h : c.Fits) : ofJson (c.toJson order) = some c := by
  have hstem : asOption AnalyzerLanguage.ofJson (ofOption (fun lang => .string lang.name) c.stemming) = some c.stemming :=
    asOption_ofOption (fun lang _ => lang.fromName_name) fun _ => Json.noConfusion
  have hstop : asOption Stopwords.ofJson (ofOption (Stopwords.toJson order) c.stopwords) = some c.stopwords :=
    asOption_ofOption (fun s _ => s.ofJson_toJson order) fun s => s.toJson_ne_null order
  have hmin : asOption (asUInt 64) (ofOption (fun n => .number (.posInt n)) c.minLength) = some c.minLength :=
    asOption_ofOption (fun n hn => if_pos (h.minLength n hn)) fun _ => Json.noConfusion
  have hmax : asOption (asUInt 64) (ofOption (fun n => .number (.posInt n)) c.maxLength) = some c.maxLength :=
    asOption_ofOption (fun n hn => if_pos (h.maxLength n hn)) fun _ => Json.noConfusion
  have hchars : asList asChar (.array ((order.chars c.literalSymbols).map fun char =>
      .string (String.ofList [char]))) = some (order.chars c.literalSymbols) :=
    mapM_write _ fun char _ => by rw [asChar, String.toList_ofList]
  have hfilters : asList CharFilter.ofJson (.array (c.charFilters.map CharFilter.toJson)) = some c.charFilters :=
    mapM_write _ fun f _ => f.ofJson_toJson
  have hget := @get_of_keys (c.written order) ["tokenizer", "stemming", "lowercase", "ascii_folding", "stopwords",
    "min_length", "max_length", "preserve_original", "literal_symbols", "char_filters"] rfl (by decide)
  obtain ⟨h0, h1, h2, h3, h4, h5, h6, h7, h8, h9, -⟩ := by simpa only [written, List.forall_mem_cons] using hget
  rw [toJson, ofJson, ofEntries, fieldsOf]
  simp only [written, bind_eq_bind, bind_some, orDefault, h0, h1, h2, h3, h4, h5, h6, h7, h8, h9, hstem, hstop,
    hmin, hmax, hchars, hfilters, CorelamoTokenizer.ofJson, CorelamoTokenizer.ofLabel_label, asBool, map_some,
    order.chars_eq]

theorem lt_of_readLength {default : ℕ} (hdefault : default < 2 ^ 64) {value : Option Json} {length : Option ℕ}
    (h : orDefault (asOption (asUInt 64)) (some default) value = some length) : ∀ n ∈ length, n < 2 ^ 64 := by
  cases value with
  | none =>
    obtain rfl := some_inj.mp h
    exact fun n hn => mem_some.mp hn ▸ hdefault
  | some value =>
    by_cases hnull : value = .null
    · rw [hnull] at h
      obtain rfl := some_inj.mp h
      exact fun n hn => by cases hn
    · rw [orDefault, asOption_of_ne hnull] at h
      obtain ⟨n, hn, rfl⟩ := map_eq_some_iff.mp h
      intro m hm
      obtain rfl := mem_some.mp hm
      exact lt_of_asUInt hn

theorem fits_ofJson {value : Json} {c : AnalyzerConfig} (h : ofJson value = some c) : c.Fits := by
  simp only [ofJson, bind_eq_bind, bind_eq_some_iff] at h
  obtain ⟨field, -, _, -, _, -, _, -, _, -, _, -, minLength, hmin, maxLength, hmax, _, -, _, -, _, -, hc⟩ := h
  obtain rfl := some_inj.mp hc
  exact ⟨lt_of_readLength (by decide) hmin, lt_of_readLength (by decide) hmax⟩

end AnalyzerConfig
