import NestedRecord.Store.Basic

/-!
# Registries

A registry holds compiled stores under their names, in order of registration.

* `Registry.register` compiles a descriptor and adds its store. A name is taken for good.
* `Registry.dependentsOf` are the stores to be updated when another store's records
  change.
-/

namespace NestedRecord

/-- The registered stores of one configuration. -/
structure Registry where
  config : Config := {}
  stores : Fields Store := []

namespace Registry

def get? (registry : Registry) (name : String) : Option Store :=
  Fields.get? registry.stores name

def isRegistered (registry : Registry) (name : String) : Bool := Fields.has registry.stores name

/-- The names of the stores, in order of registration. -/
def names (registry : Registry) : List String := Fields.keys registry.stores

/-- The stores that join the given one. -/
def dependentsOf (registry : Registry) (name : String) : List String :=
  Fields.keys (registry.stores.filter fun entry => entry.2.metadata.isJoined name)

/-- Compiles a descriptor and registers its store. -/
def register (registry : Registry) (name : String) (descriptor : Descriptor) :
    Except Fault Registry × Journal :=
  if registry.isRegistered name then (.error (.alreadyRegistered name), [])
  else
    let (outcome, journal) := Store.compile registry.config name descriptor
    (outcome.map fun store => { registry with stores := registry.stores ++ [(name, store)] },
      journal)

end Registry

end NestedRecord
