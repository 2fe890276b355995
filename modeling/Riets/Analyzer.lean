/-
Analyzers.

A policy names its analyzers by their configuration; an `Analyzer` is the
tokenizer and the chain of filters such a configuration asks for, and an
`AnalyzerSet` holds one for every name and the one to use by default.

The stop words that come with a language and the compiler for regular
expressions belong to other libraries: both are parameters.
-/
import Mathlib.Data.Finset.Basic
import Mathlib.Data.String.Basic
import Riets.SortedMap

inductive CorelamoTokenizer where
  | wordDelimiter
  | keyword
  | whitespace
  | standard
  | url
  | code
  | filepath
  deriving DecidableEq, Repr

inductive AnalyzerLanguage where
  | arabic | danish | dutch | english | finnish | french | german | greek | hungarian
  | italian | norwegian | portuguese | romanian | russian | spanish | swedish | tamil | turkish
  deriving DecidableEq, Repr

inductive Stopwords where
  | languageDefaults (lang : AnalyzerLanguage)
  | words (words : Finset String)
  deriving DecidableEq

inductive CharFilter where
  | htmlStrip
  | markdownStrip
  | patternReplace (pattern replacement : String)
  deriving DecidableEq, Repr

structure AnalyzerConfig where
  tokenizer : CorelamoTokenizer
  stemming : Option AnalyzerLanguage
  lowercase : Bool
  asciiFolding : Bool
  stopwords : Option Stopwords
  minLength : Option ℕ
  maxLength : Option ℕ
  preserveOriginal : Bool
  literalSymbols : Finset Char
  charFilters : List CharFilter
  deriving DecidableEq

namespace AnalyzerConfig

def default : AnalyzerConfig where
  tokenizer := .wordDelimiter
  stemming := none
  lowercase := true
  asciiFolding := false
  stopwords := none
  minLength := some 2
  maxLength := some 40
  preserveOriginal := true
  literalSymbols := {'_'}
  charFilters := []

instance : Inhabited AnalyzerConfig := ⟨AnalyzerConfig.default⟩

/-- What `$default` means in a policy that does not say. -/
def builtinDefault : AnalyzerConfig := { AnalyzerConfig.default with stemming := some .english }

end AnalyzerConfig

/-- `ConfigTokenizer`, with the options each tokenizer is built with. -/
inductive ConfigTokenizer where
  | wordDelimiter (symbols : Finset Char) (splitCase splitNumerics preserveOriginal : Bool)
  | keyword
  | whitespace
  | standard
  | url (symbols : Finset Char) (preserveOriginal : Bool)
  | filepath (symbols : Finset Char) (preserveOriginal : Bool)
  deriving DecidableEq

inductive TokenFilter where
  | length (min max : Option ℕ)
  | lowerCaser
  | asciiFolding
  | stopWords (words : Finset String)
  | stemmer (lang : AnalyzerLanguage)
  deriving DecidableEq

inductive CompiledCharFilter where
  | stripHtml
  | stripMarkdown
  | patternReplace (regex replacement : String)
  deriving DecidableEq, Repr

/-- An analyzer, without the number that keys its copies in the caches of the threads. -/
structure Analyzer where
  tokenizer : ConfigTokenizer
  filters : List TokenFilter
  literalSymbols : Finset Char
  charFilters : List CompiledCharFilter
  deriving DecidableEq

structure TextLibraries where
  /-- `StopWordFilter::new`: the stop words of a language, where there is a list -/
  languageStopwords : AnalyzerLanguage → Option (Finset String)
  /-- `Regex::new` accepts the pattern -/
  compiles : String → Bool

def buildTokenizer (config : AnalyzerConfig) : ConfigTokenizer :=
  match config.tokenizer with
  | .wordDelimiter => .wordDelimiter config.literalSymbols false false config.preserveOriginal
  | .code => .wordDelimiter config.literalSymbols true true config.preserveOriginal
  | .keyword => .keyword
  | .whitespace => .whitespace
  | .standard => .standard
  | .filepath => .filepath config.literalSymbols config.preserveOriginal
  | .url => .url config.literalSymbols config.preserveOriginal

def stopwordFilter (libs : TextLibraries) : Stopwords → Option TokenFilter
  | .languageDefaults lang => (libs.languageStopwords lang).map .stopWords
  | .words words => some (.stopWords words)

namespace Analyzer

def compileCharFilter (libs : TextLibraries) : CharFilter → Option CompiledCharFilter
  | .htmlStrip => some .stripHtml
  | .markdownStrip => some .stripMarkdown
  | .patternReplace pattern replacement =>
    if libs.compiles pattern then some (.patternReplace pattern replacement) else none

/-- `Analyzer::from_config`: the filters are added in this order. -/
def fromConfig (libs : TextLibraries) (config : AnalyzerConfig) : Analyzer where
  tokenizer := buildTokenizer config
  filters :=
    (if config.minLength.isSome || config.maxLength.isSome then
      [.length config.minLength config.maxLength] else []) ++
    (if config.lowercase then [.lowerCaser] else []) ++
    (if config.asciiFolding then [.asciiFolding] else []) ++
    (config.stopwords.bind (stopwordFilter libs)).toList ++
    (config.stemming.map .stemmer).toList
  literalSymbols := config.literalSymbols
  charFilters := config.charFilters.filterMap (compileCharFilter libs)

end Analyzer

structure AnalyzerSet where
  analyzers : SortedMap String Analyzer
  default : Analyzer
  deriving DecidableEq

namespace AnalyzerSet

open Analyzer

def fromPolicy (libs : TextLibraries) (configs : SortedMap String AnalyzerConfig) : AnalyzerSet where
  analyzers := configs.map (fromConfig libs)
  default :=
    ((configs.get? "$default").map (fromConfig libs)).getD
      (fromConfig libs AnalyzerConfig.builtinDefault)

def get (set : AnalyzerSet) (name : String) : Option Analyzer := set.analyzers.get? name

end AnalyzerSet
