import NestedRecord.Graph.Node

/-!
# Resolving paths

A dotted path leads from a level of the graph through nested attributes to a value or to
another level. Resolving it tells which lists have to be iterated on the way.

* `ResolvedPath` is a path as loops, one for each list crossed before its last name, and
  the names from the innermost element to the value.
* `Resolver.resolve` follows a path through the declared levels, and into the levels of
  joined stores if the resolver knows them. There every attribute resolves.
* `ResolvedPath.expression` writes a resolved path as an access into a record.
-/

namespace NestedRecord

/-- One list to iterate. -/
structure Loop where
  /-- the name of the list's level -/
  key : String
  /-- the names from the enclosing element down to the list -/
  access : List String
deriving DecidableEq

/-- What a path leads to. -/
inductive Target where
  /-- a single value; its type is unknown below a joined store -/
  | scalar (node name : String) (type : Option ScalarType)
  | level (node : String) (kind : NodeKind)
deriving DecidableEq

/-- A path that resolves. -/
structure ResolvedPath where
  path : String
  loops : List Loop
  /-- the names from the innermost element, or the record, to the value -/
  leaf : List String
  target : Target
  /-- whether the path enters a joined store -/
  isVirtual : Bool
deriving DecidableEq

namespace ResolvedPath

/-- The number of lists around the value. -/
def depth (resolved : ResolvedPath) : Nat := resolved.loops.length

def isScalar (resolved : ResolvedPath) : Bool :=
  match resolved.target with
  | .scalar .. => true
  | .level .. => false

def scalarType? (resolved : ResolvedPath) : Option ScalarType :=
  match resolved.target with
  | .scalar _ _ type => type
  | .level .. => none

/-- The loops that reach the elements of a list, and the names below one element. For
any other target they are those of the path. -/
def elementLoops (resolved : ResolvedPath) : List Loop × List String :=
  match resolved.target with
  | .level node .array => (resolved.loops ++ [⟨node, resolved.leaf⟩], [])
  | _ => (resolved.loops, resolved.leaf)

/-- Names as accesses, each behind a point. -/
def accessText (names : List String) : String := String.join (names.map ("." ++ ·))

/-- The accesses of loops, counted from `index` on. -/
def loopsText : Nat → List Loop → String
  | _, [] => ""
  | index, loop :: rest =>
    accessText loop.access ++ "[i" ++ Numeral.natText index ++ "]" ++ loopsText (index + 1) rest

/-- The access into a record, such as `record.carts[i0].price`. -/
def expression (resolved : ResolvedPath) : String :=
  "record" ++ loopsText 0 resolved.loops ++ accessText resolved.leaf

end ResolvedPath

/-- A path that leads nowhere, and the name at which it stops. -/
structure Unresolved where
  path : String
  segment : String
deriving DecidableEq

def Unresolved.message (unresolved : Unresolved) : String :=
  "path '" ++ unresolved.path ++ "' does not resolve (at '" ++ unresolved.segment ++ "')"

/-- Where paths are followed. -/
structure Resolver where
  nodes : Nodes
  /-- the levels of joined stores, empty if they are not followed -/
  virtualNodes : Nodes := []

namespace Resolver

/-- The level of a name. -/
def node? (resolver : Resolver) (name : String) : Option Node :=
  (Fields.get? resolver.nodes name).or (Fields.get? resolver.virtualNodes name)

/-- Follows names from a level on. `loops` are the lists crossed so far, `pending` the
names since the last of them. -/
def follow (resolver : Resolver) (path : String) (current : Node) (loops : List Loop)
    (pending : List String) : List String → Except Unresolved ResolvedPath
  | [] => .error ⟨path, path⟩
  | segment :: rest =>
    if current.isVirtual then
      -- nothing is known of the attributes of another store
      .ok
        { path, loops, leaf := pending ++ segment :: rest, isVirtual := true
          target := .scalar current.uniqueName (ofSegments (segment :: rest)) none }
    else
      match current.attribute? segment with
      | none => .error ⟨path, segment⟩
      | some decl =>
        let pending := pending ++ [segment]
        match decl.child with
        | none =>
          match rest with
          | [] =>
            .ok
              { path, loops, leaf := pending, isVirtual := false
                target := .scalar current.uniqueName decl.name decl.scalarType }
          -- a single value has nothing below it
          | next :: _ => .error ⟨path, next⟩
        | some child =>
          match resolver.node? child with
          | none => .error ⟨path, segment⟩
          | some node =>
            match rest with
            | [] =>
              .ok
                { path, loops, leaf := pending, isVirtual := node.isVirtual
                  target := .level node.uniqueName node.kind }
            | next :: rest =>
              -- a list takes the pending names as its access
              if node.isArray then
                follow resolver path node (loops ++ [⟨node.uniqueName, pending⟩]) []
                  (next :: rest)
              else follow resolver path node loops pending (next :: rest)
termination_by structural names => names

/-- Resolves a dotted path from the level named `root`. No name of a path is empty. -/
def resolve (resolver : Resolver) (root path : String) : Except Unresolved ResolvedPath :=
  let names := segments path
  if names.any (·.isEmpty) then .error ⟨path, path⟩
  else
    match resolver.node? root with
    | none => .error ⟨path, root⟩
    | some node => resolver.follow path node [] [] names

end Resolver

end NestedRecord
