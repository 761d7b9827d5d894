import NestedRecord.Graph.Metadata
import NestedRecord.Graph.Shape
import NestedRecord.Journal

/-!
# Flattening a descriptor

One walk over a descriptor, attribute by attribute in order of declaration, yields the
graph of its levels and their shape, the store's metadata, its hooks and its default
record.

* `Flattened` is the result, `Flattening` the state of the walk.
* `allocateName` gives each level a name: its attribute's name and a counter.
* `visitLevel` is the walk over one level; `Descriptor.fold` supplies the walks over
  the levels below it.
* `flatten` is the whole walk, with the journal of what it replaced.
-/

namespace NestedRecord

/-- A descriptor as a graph with metadata. -/
structure Flattened where
  root : String
  nodes : Nodes
  /-- the levels whose shape belongs to another store -/
  virtualNodes : Nodes
  /-- the attributes of the root with their shapes -/
  attributes : List (AttributeDecl × Shape)
  metadata : Metadata
  defaultValue : Json
  /-- the validation hook of each path -/
  onValidate : Fields Hook
  /-- the transformation hook of each path -/
  onTransform : Fields Hook

/-- The state of a walk over a descriptor. -/
structure Flattening where
  /-- the next number to be tried in a name -/
  counter : Nat := 0
  nodes : Nodes := []
  virtualNodes : Nodes := []
  metadata : Metadata
  /-- the key columns with the number of lists around them -/
  mandatory : List (Nat × String) := []
  onValidate : Fields Hook := []
  onTransform : Fields Hook := []
  journal : Journal := []

/-- Where the walk stands. -/
structure Position where
  /-- the level whose attributes are visited -/
  node : String
  /-- its dotted path, empty at the root -/
  path : String
  /-- its column key, with `[]` behind each list -/
  column : String
  /-- the level that owns the keys declared here -/
  keyOwner : String
  /-- what stands before a name in the paths of that level's keys -/
  keyFront : String
  /-- the number of lists around the attributes here -/
  depth : Nat

/-- A step of the walk: it may fail, and keeps the journal when it does. -/
abbrev Walk := EStateM Fault Flattening

/-- What is known of a level once it has been visited. -/
structure Level where
  /-- the attributes with their shapes, in order of declaration -/
  attributes : List (AttributeDecl × Shape) := []
  /-- the members of its default object -/
  members : Fields Json := []

/-- The walk over a nested descriptor, from the position of its level. -/
abbrev LevelWalk := Position → Walk Level

/-- What is known of an attribute once it has been visited. -/
structure Visited where
  decl : AttributeDecl
  shape : Shape
  /-- its default value -/
  value : Json

/-- The column key of a name below another key, empty at the root. -/
def nestedKey (column name : String) : String :=
  if column.isEmpty then name else column ++ "[" ++ name ++ "]"

namespace Position

def attributePath (position : Position) (name : String) : String := joinPath position.path name

/-- The key of an attribute in the column table. -/
def columnKey (position : Position) (name : String) : String := nestedKey position.column name

/-- The position of a level below, under the attribute `name`. -/
def below (position : Position) (node name : String) : NodeKind → Position
  | .array =>
    { node, path := position.attributePath name, column := position.columnKey name ++ "[]",
      keyOwner := node, keyFront := "", depth := position.depth + 1 }
  | .object =>
    { position with
      node, path := position.attributePath name, column := position.columnKey name,
      keyFront := position.keyFront ++ name ++ "." }

end Position

namespace Flattening

/-- The state before the walk. -/
def start (store : String) : Flattening := { metadata := { storeName := store } }

/-- Whether a level has the name. -/
def isTaken (state : Flattening) (name : String) : Bool :=
  Fields.has state.nodes name || Fields.has state.virtualNodes name

/-- The first counter value from `counter` on that makes a name which is not taken, if
it is among the next `fuel` ones. -/
def freeCounter? (state : Flattening) (base : String) : Nat → Nat → Option Nat
  | 0, _ => none
  | fuel + 1, counter =>
    if state.isTaken (base ++ Numeral.natText counter) then
      freeCounter? state base fuel (counter + 1)
    else some counter

/-- The counter value of the next name. One more value than there are levels is tried,
so one of them is free. -/
def nextCounter (state : Flattening) (base : String) : Nat :=
  let fuel := state.nodes.length + state.virtualNodes.length + 1
  (freeCounter? state base fuel state.counter).getD state.counter

end Flattening

namespace Walk

/-- Gives a level its name. -/
def allocateName (base : String) : Walk String := do
  let state ← get
  let counter := state.nextCounter base
  set { state with counter := counter + 1 }
  return base ++ Numeral.natText counter

/-- Fails because an attribute breaks a rule. -/
def refuse {α : Type} (store path rule : String) : Walk α :=
  throw (.configuration store path rule)

/-- Fails if the rule is broken. -/
def require (holds : Bool) (store path rule : String) : Walk Unit :=
  if holds then pure () else refuse store path rule

/-- The level of a name. Every level is entered into the graph before it is visited. -/
def node (store name : String) : Walk Node := do
  match Fields.get? (← get).nodes name with
  | some node => return node
  | none => throw (.build store "flatten" ("node '" ++ name ++ "' is not allocated") "")

def addNode (node : Node) : Walk Unit :=
  modify fun state => { state with nodes := Fields.set state.nodes node.uniqueName node }

def addVirtualNode (node : Node) : Walk Unit :=
  modify fun state =>
    { state with virtualNodes := Fields.set state.virtualNodes node.uniqueName node }

/-- Changes the level of a name, which is there like that of `node`. -/
def updateNode (store name : String) (f : Node → Node) : Walk Unit := do
  let _ ← node store name
  modify fun state => { state with nodes := Fields.update f state.nodes name }

def updateMetadata (f : Metadata → Metadata) : Walk Unit :=
  modify fun state => { state with metadata := f state.metadata }

/-- Adds an attribute to a level. -/
def declare (store name : String) (decl : AttributeDecl) : Walk Unit :=
  updateNode store name fun node => { node with attributes := node.attributes ++ [decl] }

/-- Registers the hooks of a path, the last of a kind in place of earlier ones. -/
def registerHooks (path : String) (hooks : List (HookKind × Hook)) : Walk Unit :=
  hooks.forM fun (kind, hook) =>
    modify fun state =>
      match kind with
      | .validate => { state with onValidate := Fields.set state.onValidate path hook }
      | .transform => { state with onTransform := Fields.set state.onTransform path hook }

/-- Registers a reference. A store references every other store at most once, and
never itself. -/
def registerReference (store path referenced : String) : Walk Unit := do
  require (referenced ≠ store) store path
    ("'ref @" ++ referenced ++ "' references its own store")
  let references := (← get).metadata.references
  match references.find? (·.2 = referenced) with
  | some (existing, _) =>
    refuse store path
      ("store '" ++ referenced ++ "' is already referenced by '" ++ existing ++ "'")
  | none =>
    updateMetadata fun metadata =>
      { metadata with references := Fields.set metadata.references path referenced }

/-! ## Aggregates -/

/-- Registers an external aggregate and reports the one it replaces. -/
def promote (store : String) (aggregate : ExternalAggregate) : Walk Unit := do
  match (← get).metadata.external? aggregate.target with
  | some (_, previous) =>
    let notice : Notice := .event .warn "AGGREGATE_PROMOTION_REPLACED"
      [("store", store), ("target", aggregate.target), ("previous", previous.store),
       ("current", aggregate.store)]
    modify fun state => { state with journal := state.journal ++ [notice] }
  | none => pure ()
  updateMetadata (·.promote aggregate)

/-- The aggregate that a later join marker of the same target feeds from another store:
its operation, the attribute it reads and its transformer. -/
abbrev Promotable := Option (AggregateOp × Option String × Option Handler)

/-- Registers one link of a target and gives the aggregate that a later marker
promotes. -/
def registerLink (store target : String) (latest : Promotable) : Link → Walk Promotable
  | .aggregate op path transformer =>
    match after? ['@'] path.toList with
    | some marker =>
      match splitMarker marker with
      | .error rule => refuse store target rule
      | .ok (source, attr) => do
        promote store ⟨target, op, source, attr, transformer⟩
        return some (op, attr, transformer)
    | none => do
      let source := joinPath (parentPath target) path
      updateMetadata (·.declareLocal ⟨target, op, source, transformer⟩)
      -- a later marker reads the last name of the source from the other store
      return some (op, some (lastSegment path), transformer)
  | .join source none =>
    match latest with
    | none =>
      refuse store target
        ("join marker '@" ++ source ++ "' on a scalar attribute needs an aggregate")
    | some (op, attr, transformer) => do
      promote store ⟨target, op, source, attr, transformer⟩
      return latest
  | .join source (some path) =>
    refuse store target ("join marker '@" ++ source ++ "." ++ path ++ "' needs an aggregate")

/-- Registers the links of a target in order of declaration. -/
def registerLinks (store target : String) (links : List Link) : Walk Unit := do
  let _ ← links.foldlM (registerLink store target) none

/-! ## Attributes -/

/-- Registers the column of an attribute and, if it is a key column, the key. -/
def registerColumn (store : String) (position : Position) (name column : String)
    (primary : Bool) : Walk Unit := do
  updateMetadata fun metadata =>
    { metadata with
      columns := Fields.set metadata.columns (position.columnKey name) column
      sortGroup := Fields.set metadata.sortGroup column position.depth }
  if primary then
    let path := position.keyFront ++ name
    modify fun state =>
      -- the root has been entered before all other levels
      let ofRoot := state.nodes.head?.any fun entry => entry.1 == position.keyOwner
      let metadata :=
        if ofRoot then
          { state.metadata with primaryKey := state.metadata.primaryKey ++ [path] }
        else state.metadata
      { state with metadata, mandatory := state.mandatory ++ [(position.depth, column)] }
    updateNode store position.keyOwner fun node =>
      { node with primaryKey := node.primaryKey ++ [path] }

/-- Visits a scalar attribute. Its default is its first literal, else null. -/
def visitScalar (store : String) (position : Position) (name : String)
    (tuple : Tuple LevelWalk) : Walk Visited := do
  let path := position.attributePath name
  let decl : AttributeDecl :=
    { name, scalarType := tuple.scalarType, rules := tuple.rules,
      column := tuple.column.map (·.1),
      derived := tuple.computed.isSome || !tuple.links.isEmpty }
  if let some conversion := decl.conversion? then
    updateNode store position.node fun node =>
      { node with conversions := Fields.set node.conversions name conversion }
  if let some (column, primary) := tuple.column then
    registerColumn store position name column primary
  if let some handler := tuple.computed then
    updateMetadata fun metadata =>
      { metadata with computeds := metadata.computeds ++ [⟨path, handler⟩] }
  registerLinks store path tuple.links
  if let some referenced := tuple.reference then
    registerReference store path referenced
  registerHooks path tuple.hooks
  declare store position.node decl
  return ⟨decl, .scalar, tuple.fallback.getD .null⟩

/-- The store that a nested attribute attaches. Only one plain join marker may stand
on it, and no aggregate. -/
def attachedStore (store path : String) (attached : Option String) :
    List Link → Walk (Option String)
  | [] => pure attached
  | .join source none :: rest =>
    match attached with
    | none => attachedStore store path (some source) rest
    | some _ => refuse store path ("second join marker '@" ++ source ++ "'")
  | .join source (some inner) :: _ =>
    refuse store path ("join marker '@" ++ source ++ "." ++ inner ++ "' needs an aggregate")
  | .aggregate op _ _ :: _ =>
    refuse store path ("aggregate '" ++ op.keyword ++ "' must target a scalar attribute")

/-- What stands under a nested attribute: the name of the level, its shape and the
attribute's default value. -/
structure Below where
  child : String
  shape : Shape
  value : Json

/-- Visits the level below a nested attribute. A list needs at least one key column, and
its default holds one element. -/
def visitDeclaredLevel (store : String) (position : Position) (name : String)
    (kind : NodeKind) (attached : Option String) (walk : LevelWalk) : Walk Below := do
  let parent ← node store position.node
  let child ← allocateName name
  addNode { Node.childOf parent child name kind with joinedStore := attached }
  let level ← walk (position.below child name kind)
  let shape := Shape.level kind level.attributes
  match kind with
  | .object => return ⟨child, shape, .object level.members⟩
  | .array =>
    -- the walk over the level has noted its key columns there
    let visited ← node store child
    require (!visited.primaryKey.isEmpty) store (position.attributePath name)
      "array requires at least one primary key column '<<name>>'"
    updateNode store position.node fun node =>
      { node with childArrays := node.childArrays ++ [child] }
    return ⟨child, shape, .array [.object level.members]⟩

/-- Enters a level whose shape belongs to the attached store. Its default is empty. -/
def visitVirtualLevel (store : String) (position : Position) (name : String)
    (kind : NodeKind) (attached : Option String) : Walk Below := do
  require attached.isSome store (position.attributePath name)
    "nested attribute needs a sub-descriptor or a join marker"
  let parent ← node store position.node
  let child ← allocateName name
  addVirtualNode
    { Node.childOf parent child name kind with isVirtual := true, joinedStore := attached }
  match kind with
  | .array => return ⟨child, .foreign, .array []⟩
  | .object => return ⟨child, .foreign, .null⟩

/-- Visits a nested attribute. -/
def visitNested (store : String) (position : Position) (name : String)
    (tuple : Tuple LevelWalk) : Walk Visited := do
  let path := position.attributePath name
  match tuple.nesting with
  | none => refuse store path "nested descriptor requires 'array' or 'object'"
  | some kind =>
    require tuple.column.isNone store path "column annotation on a nested attribute"
    let attached ← attachedStore store path none tuple.links
    require tuple.computed.isNone store path "computed handler on a nested attribute"
    registerHooks path tuple.hooks
    let below ←
      match tuple.nested with
      | some walk => visitDeclaredLevel store position name kind attached walk
      | none => visitVirtualLevel store position name kind attached
    if let some source := attached then
      let cardinality := if kind = .array then Cardinality.many else .one
      updateMetadata (·.addJoin ⟨source, path, cardinality⟩)
    if let some referenced := tuple.reference then
      registerReference store path referenced
    let decl : AttributeDecl :=
      { name, rules := tuple.rules, child := some below.child, derived := tuple.nested.isNone }
    declare store position.node decl
    return ⟨decl, below.shape, below.value⟩

/-- Visits one attribute. -/
def visitAttribute (store : String) (position : Position) (name : String) :
    Attribute LevelWalk → Walk Visited
  | .bare text =>
    refuse store (position.attributePath name)
      ("expected a directive tuple, found bare string '" ++ text ++ "'")
  | .malformed kind =>
    refuse store (position.attributePath name) ("expected a directive tuple, found " ++ kind)
  | .tuple directives =>
    match Tuple.ofDirectives directives with
    | .error rule => refuse store (position.attributePath name) rule
    | .ok tuple =>
      if tuple.isNested then visitNested store position name tuple
      else visitScalar store position name tuple

/-- Visits the attributes of a level one after the other. -/
def visitAttributes (store : String) (position : Position) (level : Level) :
    List (String × Attribute LevelWalk) → Walk Level
  | [] => pure level
  | (name, attr) :: rest => do
    let visited ← visitAttribute store position name attr
    visitAttributes store position
      { attributes := level.attributes ++ [(visited.decl, visited.shape)]
        members := Fields.set level.members name visited.value } rest

/-- Visits the attributes of a level. -/
def visitLevel (store : String) (attributes : List (String × Attribute LevelWalk)) :
    LevelWalk :=
  fun position => visitAttributes store position {} attributes

/-- Walks over a whole descriptor. -/
def visit (store rootName : String) (descriptor : Descriptor) : Walk (String × Level) := do
  let root ← allocateName rootName
  addNode (.root root)
  let level ← descriptor.fold (visitLevel store)
    { node := root, path := "", column := "", keyOwner := root, keyFront := "", depth := 0 }
  return (root, level)

end Walk

/-- The result of a finished walk. Key columns are ordered by the number of lists
around them, those of one number in order of declaration. -/
def Flattening.finish (state : Flattening) (root : String) (level : Level) : Flattened where
  root := root
  nodes := state.nodes
  virtualNodes := state.virtualNodes
  attributes := level.attributes
  metadata :=
    { state.metadata with
      sortMandatory :=
        (stableSort (fun a b => decide (a.1 ≤ b.1)) state.mandatory).map (·.2) }
  defaultValue := .object level.members
  onValidate := state.onValidate
  onTransform := state.onTransform

/-- Flattens the descriptor of a store. The journal stands whether or not the
descriptor is accepted. -/
def flatten (store rootName : String) (descriptor : Descriptor) :
    Except Fault Flattened × Journal :=
  match (Walk.visit store rootName descriptor).run (.start store) with
  | .ok (root, level) state => (.ok (state.finish root level), state.journal)
  | .error fault state => (.error fault, state.journal)

end NestedRecord
