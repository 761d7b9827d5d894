import NestedRecord.Config
import NestedRecord.Graph.Flatten
import NestedRecord.Path
import NestedRecord.Procedure.Run

/-!
# Blueprints

A blueprint is what procedures are compiled from: a flattened store and a configuration.

* `Blueprint.resolveStrict` follows paths through declared levels, and
  `Blueprint.resolveLenient` also into joined stores.
* `Blueprint.finish` turns a scaffold into a program or a fault.
-/

namespace NestedRecord

/-- What the procedures of a store are compiled from. -/
structure Blueprint where
  flattened : Flattened
  config : Config

namespace Blueprint

def store (blueprint : Blueprint) : String := blueprint.flattened.metadata.storeName

def metadata (blueprint : Blueprint) : Metadata := blueprint.flattened.metadata

/-- Follows a path through the declared levels. -/
def resolveStrict (blueprint : Blueprint) (path : String) : Except Unresolved ResolvedPath :=
  Resolver.resolve { nodes := blueprint.flattened.nodes } blueprint.flattened.root path

/-- Follows a path through the declared levels or, failing that, into joined stores. -/
def resolveLenient (blueprint : Blueprint) (path : String) : Except Unresolved ResolvedPath :=
  match blueprint.resolveStrict path with
  | .ok resolved => .ok resolved
  | .error _ =>
    Resolver.resolve
      { nodes := blueprint.flattened.nodes, virtualNodes := blueprint.flattened.virtualNodes }
      blueprint.flattened.root path

/-- An attribute breaks a rule. -/
def fault (blueprint : Blueprint) (path rule : String) : Fault :=
  .configuration blueprint.store path rule

/-- A path that an attribute needs must resolve. -/
def demand (blueprint : Blueprint) (path : String) :
    Except Unresolved ResolvedPath → Except Fault ResolvedPath
  | .ok resolved => .ok resolved
  | .error unresolved => .error (blueprint.fault path unresolved.message)

/-- The program of a scaffold. -/
def finish {F : Type} (blueprint : Blueprint) (procedure : String) (scaffold : Scaffold F) :
    Except Fault (Program F) :=
  match scaffold.synthesize with
  | .ok program => .ok program
  | .error failure => .error (.build blueprint.store procedure failure.cause failure.plan)

end Blueprint

end NestedRecord
