import NestedRecord.Fault
import NestedRecord.File
import NestedRecord.Json.Document

/-!
# Configuration

What all compilations of one compiler share: the attribute that identifies records,
the separator of composite keys, the name of the root node, and whether compilations
are reported.

* `Config.ofText` reads a configuration from JSON text and checks it.
* `Config.ofFile` does so for a file.
-/

namespace NestedRecord

/-- The settings of a compiler. -/
structure Config where
  /-- the attribute that identifies a record across stores -/
  identityKey : String := "_id"
  /-- what stands between the parts of a composite key -/
  keySeparator : String := "-"
  /-- the base name of the root node -/
  rootName : String := "main"
  /-- whether each compilation is reported -/
  logCompilation : Bool := false
deriving DecidableEq

namespace Config

/-- The settings by their names, in the order of the list form. -/
inductive Setting where
  | identityKey
  | keySeparator
  | rootName
  | logCompilation
deriving DecidableEq

namespace Setting

def all : List Setting := [.identityKey, .keySeparator, .rootName, .logCompilation]

def ofName? : String → Option Setting
  | "identityKey" => some .identityKey
  | "keySeparator" => some .keySeparator
  | "rootName" => some .rootName
  | "logCompilation" => some .logCompilation
  | _ => none

end Setting

/-- Writes one setting; the value must have its type. -/
def write? (config : Config) : Setting → Document → Option Config
  | .identityKey, .string units => (text? units).map ({ config with identityKey := · })
  | .keySeparator, .string units => (text? units).map ({ config with keySeparator := · })
  | .rootName, .string units => (text? units).map ({ config with rootName := · })
  | .logCompilation, .bool b => some { config with logCompilation := b }
  | _, _ => none

/-- Reads the settings of an object. Unknown names are passed over, whatever stands
under them; a known one may come only once. -/
def ofMembers? (config : Config) (seen : List Setting) :
    List (List Nat × Document) → Option Config
  | [] => some config
  | (units, document) :: rest =>
    match text? units with
    | none => none
    | some name =>
      match Setting.ofName? name with
      | none => ofMembers? config seen rest
      | some setting =>
        if setting ∈ seen then none
        else (config.write? setting document).bind (ofMembers? · (setting :: seen) rest)

/-- Reads settings by position; missing ones keep their defaults. -/
def ofItems? (config : Config) : List Setting → List Document → Option Config
  | _, [] => some config
  | [], _ :: _ => none
  | setting :: settings, document :: rest =>
    (config.write? setting document).bind (ofItems? · settings rest)

/-- Reads a configuration: an object of settings or a list of them. -/
def ofDocument? : Document → Option Config
  | .object members => ofMembers? {} [] members
  | .array items => ofItems? {} Setting.all items
  | _ => none

/-- The first rule that a configuration breaks: no name and no separator is empty. -/
def violation? (config : Config) : Option String :=
  if config.identityKey.isEmpty then some "identityKey must not be empty"
  else if config.keySeparator.isEmpty then some "keySeparator must not be empty"
  else if config.rootName.isEmpty then some "rootName must not be empty"
  else none

/-- Reads and checks a configuration that stands in `origin`. -/
def ofText (origin text : String) : Except Fault Config :=
  match (Document.parse? text).bind ofDocument? with
  | none => .error (.load origin "Invalid JSON")
  | some config =>
    match config.violation? with
    | some rule => .error (.load origin rule)
    | none => .ok config

/-- Reads and checks the configuration in a file. -/
def ofFile (path : String) (file : FileNode) : Except Fault Config :=
  match file.text with
  | .error reason => .error (.load path ("Failed to read file: " ++ reason))
  | .ok text => ofText path text

end Config

end NestedRecord
