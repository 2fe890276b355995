/-
The dictionary of a database.

Its groups stand in a file; the manager holds the text as it last read or wrote it, with a
fingerprint of the file, and the synonyms made of it.  A new document is compiled, the file
is checked not to have changed and then replaced by a rename, and only then are the
synonyms and the text put in place.

Reading the text is the work of the TOML parser; a document has the groups that the parser
finds in its text.  `IoFaults` says which of the accesses to the disk fail, if the call
comes to them.
-/
import Riets.SynonymMatch

theorem DictionaryBuilder.exists_build (b : DictionaryBuilder) (tables : UnicodeTables)
    (analyze : String → List String) : ∃ d, b.build tables analyze = .ok d := by
  obtain ⟨d, hd, -⟩ := SynonymDictionary.build_built tables analyze b
  exact ⟨d, hd⟩

def DictionaryBuilder.dictionary (b : DictionaryBuilder) (tables : UnicodeTables)
    (analyze : String → List String) : SynonymDictionary :=
  match h : b.build tables analyze with
  | .ok d => d
  | .err _ => absurd (b.exists_build tables analyze) (by simp [h])
  | .fault => absurd (b.exists_build tables analyze) (by simp [h])

/-! ### Documents -/

structure DictionaryPath where
  path : String
  fileName : Option String
  deriving DecidableEq

structure SpannedGroup where
  start : ℕ
  stop : ℕ
  specs : List String
  deriving DecidableEq

structure DatabaseFile where
  default : Bool
  synonyms : List SpannedGroup
  oneWay : List SpannedGroup
  deriving DecidableEq

inductive ConfigError where
  | io (path : String) (source : String)
  | syntaxError (sourceName : String) (line : Option ℕ) (message : String)
  | dictionary (sourceName : String) (line : Option ℕ) (source : DictionaryError)
  | conflict (path : String)
  | noPath (sourceName : String)
  deriving DecidableEq

def lineOf (text : String) (offset : ℕ) : ℕ := ((utf8 text).take offset).count 10 + 1

def spanLine (text : String) (group : SpannedGroup) : Option ℕ :=
  if 0 < group.stop then some (lineOf text group.start) else none

def fingerprint (bytes : ByteSeq) : ℕ :=
  bytes.foldl (fun hash byte => (hash ^^^ byte.toNat) * 0x100000001b3 % 2 ^ 64) 0xcbf29ce484222325

/-- Bytes that a character begins with but that are not all of it. -/
def beginsChar (bytes : ByteSeq) : Bool :=
  match bytes.map UInt8.toNat with
  | [b] => 0xC2 ≤ b && b ≤ 0xF4
  | b :: c :: rest =>
    let low := if b = 0xE0 then 0xA0 else if b = 0xF0 then 0x90 else 0x80
    let high := if b = 0xED then 0x9F else if b = 0xF4 then 0x8F else 0xBF
    0xE0 ≤ b && b ≤ 0xF4 && low ≤ c && c ≤ high &&
      match rest with
      | [] => true
      | [d] => 0xF0 ≤ b && 0x80 ≤ d && d ≤ 0xBF
      | _ => false
  | [] => false

/-- The text of a `Utf8Error`: where the valid part of the bytes ends, and how long the piece behind it
is that no character begins with, or that the bytes end in the middle of one. -/
def utf8Error (bytes : ByteSeq) : String :=
  let ends := (List.range (bytes.length + 1)).filter fun n => (ofUtf8 (bytes.take n)).isSome
  let validUpTo := ends.getLast?.getD 0
  let rest := bytes.drop validUpTo
  if beginsChar rest then s!"incomplete utf-8 byte sequence from index {validUpTo}"
  else
    let begun := (List.range rest.length).filter fun n => beginsChar (rest.take n)
    let errorLen := begun.getLast?.getD 1
    s!"invalid utf-8 sequence of {errorLen} bytes from index {validUpTo}"

/-- What the TOML parser makes of a text: the file, or where its error begins and what it says. -/
abbrev TomlParser := String → Except (Option ℕ × String) DatabaseFile

structure DictionaryDocument (toml : TomlParser) where
  name : String
  path : Option DictionaryPath
  text : String
  file : DatabaseFile
  diskFingerprint : Option ℕ
  parsed : toml text = .ok file

/-- The steps of `write_atomic` that can fail. -/
inductive WriteStep where
  | createDir
  | openTmp
  | writeTmp
  | syncTmp
  | rename
  | syncDir
  deriving DecidableEq

/-- The accesses to the disk that fail: reading the file to load it, reading it to compare it, and one
of the steps of replacing it. -/
structure IoFaults where
  load : Option String
  check : Option String
  write : Option (WriteStep × String)
  deriving DecidableEq

/-- `write_atomic`, with the file behind it: the rename is what others see. -/
def writeAtomic (disk : Option ByteSeq) (path : DictionaryPath) (bytes : ByteSeq)
    (fault : Option (WriteStep × String)) : Option ByteSeq × Except String Unit :=
  match fault with
  | some (.createDir, message) => (disk, .error message)
  | fault =>
    if path.fileName = none then (disk, .error "path has no file name")
    else
      match fault with
      | some (.syncDir, message) => (some bytes, .error message)
      | some (_, message) => (disk, .error message)
      | none => (some bytes, .ok ())

def checkUnchanged (disk : Option ByteSeq) (path : DictionaryPath) (expected : Option ℕ)
    (fault : Option String) : Except ConfigError Unit :=
  match fault with
  | some message => .error (.io path.path message)
  | none => if disk.map fingerprint = expected then .ok () else .error (.conflict path.path)

namespace DictionaryDocument

variable {toml : TomlParser}

def parse (toml : TomlParser) (name text : String) : Except ConfigError (DictionaryDocument toml) :=
  match h : toml text with
  | .ok file => .ok ⟨name, none, text, file, none, h⟩
  | .error (start, message) => .error (.syntaxError name (start.map (lineOf text)) message)

def load (toml : TomlParser) (disk : Option ByteSeq) (path : DictionaryPath) (missing : String)
    (fault : Option String) : Except ConfigError (DictionaryDocument toml) :=
  match fault, disk with
  | some message, _ => .error (.io path.path message)
  | none, some bytes =>
    match ofUtf8 bytes with
    | none => .error (.io path.path (utf8Error bytes))
    | some text => do
      let doc ← parse toml path.path text
      return { doc with path := some path, diskFingerprint := some (fingerprint (utf8 text)) }
  | none, none => do
    let doc ← parse toml path.path missing
    return { doc with path := some path }

def boundTo (doc target : DictionaryDocument toml) : DictionaryDocument toml :=
  { doc with path := target.path, diskFingerprint := target.diskFingerprint }

/-- `save`, with the file behind it. -/
def save (doc : DictionaryDocument toml) (disk : Option ByteSeq) (f : IoFaults) :
    Option ByteSeq × Except ConfigError (DictionaryDocument toml) :=
  match doc.path with
  | none => (disk, .error (.noPath doc.name))
  | some path =>
    match checkUnchanged disk path doc.diskFingerprint f.check with
    | .error e => (disk, .error e)
    | .ok () =>
      match writeAtomic disk path (utf8 doc.text) f.write with
      | (disk, .error message) => (disk, .error (.io path.path message))
      | (disk, .ok ()) =>
        (disk, .ok { doc with diskFingerprint := some (fingerprint (utf8 doc.text)) })

/-- `load_or_seed`, with the file behind it. -/
def loadOrSeed (toml : TomlParser) (disk : Option ByteSeq) (path : DictionaryPath) (seed : String)
    (f : IoFaults) : Option ByteSeq × Except ConfigError (DictionaryDocument toml) :=
  match load toml disk path seed f.load with
  | .error e => (disk, .error e)
  | .ok doc =>
    if doc.diskFingerprint.isSome then (disk, .ok doc)
    else
      match parse toml doc.name seed with
      | .error e => (disk, .error e)
      | .ok seeded => (seeded.boundTo doc).save disk f

end DictionaryDocument

def addSpanned (tables : UnicodeTables) (name text : String) (oneWay : Bool) (b : DictionaryBuilder)
    (group : SpannedGroup) : Except ConfigError DictionaryBuilder :=
  Except.mapError (.dictionary name (spanLine text group)) do
    let variants ← group.specs.mapM fun spec =>
      Variant.parse tables (String.ofList (trimWhite spec.toList))
    if oneWay then b.addOneWay variants else b.addGroup variants

def addSections (tables : UnicodeTables) (name text : String) (b : DictionaryBuilder)
    (sections : List (List SpannedGroup × Bool)) : Except ConfigError DictionaryBuilder :=
  sections.foldlM (fun b part => part.1.foldlM (addSpanned tables name text part.2) b) b

def compileDatabase {toml : TomlParser} (tables : UnicodeTables) (analyze : String → List String)
    (doc : DictionaryDocument toml) : Except ConfigError SynonymDictionary := do
  let b ← addSections tables doc.name doc.text ⟨[], .default⟩
    [(doc.file.synonyms, false), (doc.file.oneWay, true)]
  return { b with roman := { RomanConfig.default with enabled := false } }.dictionary tables analyze

/-! ### The manager -/

/-- `SynonymManager`, its analyzer left out. -/
structure SynonymManager (toml : TomlParser) where
  default : SynonymDictionary
  file : DictionaryDocument toml
  store : Synonyms

structure DictionaryState (toml : TomlParser) where
  disk : Option ByteSeq
  manager : SynonymManager toml

def newDatabaseDictionary : String :=
  "# This database's synonyms, searched together with the default dictionary
# (CorelamoDictionary.toml next to CorelamoSettings.toml: short forms, formulas, Roman numerals).
# default = false searches with the groups below only.
default = true

[synonyms]
# Forms that mean the same: any of them finds the others. A form written with a capital
# only matches when typed exactly like that; `~` in front makes it match any case.
groups = [
  # [\"car\", \"automobile\"],
]

[one_way]
# The first form also searches the others; the others do not search it.
groups = [
  # [\"king\", \"monarch\"],
]
"

section Calls

variable {toml : TomlParser} (tables : UnicodeTables) (analyze : String → List String)

def SynonymManager.synonyms (m : SynonymManager toml) (doc : DictionaryDocument toml) :
    Except ConfigError Synonyms := do
  let own ← compileDatabase tables analyze doc
  return ⟨if doc.file.default then [m.default, own] else [own]⟩

/-- `SynonymRegistry::open_database`, with the file behind it. -/
def openDatabase (default : SynonymDictionary) (path : DictionaryPath) (disk : Option ByteSeq)
    (f : IoFaults) : Option ByteSeq × Except ConfigError (SynonymManager toml) :=
  match DictionaryDocument.loadOrSeed toml disk path newDatabaseDictionary f with
  | (disk, .error e) => (disk, .error e)
  | (disk, .ok file) =>
    let m : SynonymManager toml := ⟨default, file, ⟨[]⟩⟩
    match m.synonyms tables analyze file with
    | .error e => (disk, .error e)
    | .ok synonyms => (disk, .ok { m with store := synonyms })

namespace DictionaryState

variable (w : DictionaryState toml)

def replaceDocument (doc : DictionaryDocument toml) (f : IoFaults) :
    DictionaryState toml × Except ConfigError Unit :=
  let draft := doc.boundTo w.manager.file
  match w.manager.synonyms tables analyze draft with
  | .error e => (w, .error e)
  | .ok synonyms =>
    match draft.save w.disk f with
    | (disk, .error e) => ({ w with disk }, .error e)
    | (disk, .ok draft) => (⟨disk, { w.manager with store := synonyms, file := draft }⟩, .ok ())

def reload (f : IoFaults) : DictionaryState toml × Except ConfigError Unit :=
  match w.manager.file.path with
  | none => (w, .error (.noPath w.manager.file.name))
  | some path =>
    match DictionaryDocument.loadOrSeed toml w.disk path newDatabaseDictionary f with
    | (disk, .error e) => ({ w with disk }, .error e)
    | (disk, .ok fresh) =>
      match w.manager.synonyms tables analyze fresh with
      | .error e => ({ w with disk }, .error e)
      | .ok synonyms => (⟨disk, { w.manager with store := synonyms, file := fresh }⟩, .ok ())

end DictionaryState

inductive DictionaryCall (toml : TomlParser) where
  | replace (doc : DictionaryDocument toml) (f : IoFaults)
  | reload (f : IoFaults)

def DictionaryState.call (w : DictionaryState toml) : DictionaryCall toml → DictionaryState toml
  | .replace doc f => (w.replaceDocument tables analyze doc f).1
  | .reload f => (w.reload tables analyze f).1

def DictionaryState.run (w : DictionaryState toml) (calls : List (DictionaryCall toml)) : DictionaryState toml :=
  calls.foldl (DictionaryState.call tables analyze) w

end Calls
