import NestedRecord.FileTree
import NestedRecord.Store.Registry

/-!
# Loading descriptors

Descriptors may come from the files of a directory: every file `<store>.json`, in order of
the names.

* `DescriptorFile.ofEntry?` says which entries of a directory are descriptor files.
* `Registry.load` registers their stores. Under `LoadPolicy.abort` the first failure ends
  the load, under `LoadPolicy.skip` it is reported and the file passed over.
-/

namespace NestedRecord

/-- What is done about a file that cannot be loaded. -/
inductive LoadPolicy where
  | abort
  | skip
deriving DecidableEq

/-- A file that holds the descriptor of a store. -/
structure DescriptorFile where
  store : String
  path : String
  file : FileNode

namespace DescriptorFile

/-- The name of a file without an extension, and the extension. What stands behind the
last point is one, unless nothing stands before it. -/
def splitExtension? (name : List Char) : Option (List Char × List Char) :=
  match splitFirst? '.' name.reverse with
  | some (back, c :: front) => some ((c :: front).reverse, back.reverse)
  | _ => none

/-- The descriptor file of a directory's entry, if it is one. -/
def ofEntry? (directory : String) (entry : String × FileNode) : Option DescriptorFile :=
  match splitExtension? entry.1.toList with
  | some (stem, extension) =>
    if extension = "json".toList && entry.2.isFile then
      some ⟨String.ofList stem, pathBelow directory entry.1, entry.2⟩
    else none
  | none => none

/-- Reads the descriptor in a file. -/
def read (source : DescriptorFile) : Except Fault Descriptor :=
  match source.file.text with
  | .error reason => .error (.load source.path ("Failed to read file: " ++ reason))
  | .ok text =>
    match Json.parse? text with
    | none => .error (.load source.path "Invalid JSON")
    | some value => Descriptor.ofJson value

end DescriptorFile

/-- The state of a load: what has been registered so far and what has been passed over. -/
structure Loading where
  registry : Registry
  /-- the stores registered, in order -/
  loaded : List String := []
  skipped : List Fault := []
  journal : Journal := []

namespace Loading

/-- Loads one file. -/
def register (loading : Loading) (source : DescriptorFile) : Except Fault Registry × Journal :=
  match source.read with
  | .error fault => (.error fault, [])
  | .ok descriptor => loading.registry.register source.store descriptor

/-- The report of a file that is passed over. -/
def skipNotice (source : DescriptorFile) (fault : Fault) : Notice :=
  .event .warn "STORE_SKIPPED"
    [("store", source.store), ("path", source.path), ("code", fault.code),
     ("reason", fault.message)]

/-- Loads files one after the other. The failure that ends the load is given with what was
done before it. -/
def run (policy : LoadPolicy) : List DescriptorFile → Loading → Loading × Option Fault
  | [], loading => (loading, none)
  | source :: rest, loading =>
    let (outcome, journal) := loading.register source
    let loading := { loading with journal := loading.journal ++ journal }
    match outcome with
    | .ok registry =>
      run policy rest { loading with registry, loaded := loading.loaded ++ [source.store] }
    | .error fault =>
      match policy with
      -- the stores of earlier files stay registered
      | .abort => (loading, some fault)
      | .skip =>
        run policy rest
          { loading with
            skipped := loading.skipped ++ [fault]
            journal := loading.journal ++ [skipNotice source fault] }

end Loading

/-- The descriptor files of a directory, in order of their names. -/
def descriptorFiles (directory : String) (entries : List (String × FileNode)) :
    List DescriptorFile :=
  (stableSort (fun a b => textLe a.1 b.1) entries).filterMap (DescriptorFile.ofEntry? directory)

/-- Loads the descriptor files of a directory. -/
def Registry.load (registry : Registry) (policy : LoadPolicy) (directory : String)
    (listing : Listing) : Loading × Option Fault :=
  match listing.entries with
  | .error reason =>
    let reason := "Failed to read descriptor directory: " ++ reason
    ({ registry }, some (.load directory reason))
  | .ok entries => Loading.run policy (descriptorFiles directory entries) { registry }

end NestedRecord
