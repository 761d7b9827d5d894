import NestedRecord.Proofs.Graph.Tree

/-!
# Names of levels

A level is named after its attribute, with a number behind that no earlier name has used up. Names
of attributes may end in digits themselves, so a name can be taken although its number is new; then
the next number is tried.

The walk itself does not record which names it gives, and after a failure its state is lost. So it
is run once more in a monad that writes down each naming together with the state in which it
happens; all steps but `allocateName` are taken over as they are and shown to be `Quiet`, that is,
to leave the counter and the levels alone. Statements about names are then inductions over what has
been written down.

* `Flattening.Searches` is the search for a number as it goes on, without a bound.
* `Naming` is one level that gets its name. `Naming.fresh`: in every state the search ends, after at
  most one attempt more than there are levels, and the name is free.
* `TracedWalk` is a walk with the names that it gives, `TracedWalk.visit` that over a descriptor.
  `TracedWalk.walk_visit`: without the names it is the walk itself.
* `Flattening.Names` says what the names given between two states have to do with these states,
  `TracedWalk.Accounts` that a walk accounts for its names, also where it fails.
* `NamesOnce` says of a whole descriptor that no number is tried twice and no name given twice;
  `namings_of_descriptor` proves it.
-/

namespace NestedRecord

open Fields (get? has keys)

/-- A level that gets its name: what the name begins with, and the state it is given in. -/
structure Naming where
  base : String
  state : Flattening

namespace Flattening

variable {s s' s'' : Flattening} {base name : String} {counter found found' : Nat}

/-! ## The search for a number -/

/-- Numbers are tried one after the other, until the name of one is free. -/
inductive Searches (s : Flattening) (base : String) : Nat → Nat → Prop
  | free {counter : Nat} (h : s.isTaken (base ++ Numeral.natText counter) = false) :
      Searches s base counter counter
  | taken {counter found : Nat} (h : s.isTaken (base ++ Numeral.natText counter) = true)
      (rest : Searches s base (counter + 1) found) : Searches s base counter found

theorem Searches.le (h : Searches s base counter found) : counter ≤ found := by
  induction h with
  | free => exact Nat.le_refl _
  | taken _ _ ih => exact Nat.le_of_succ_le ih

theorem Searches.isFree (h : Searches s base counter found) :
    s.isTaken (base ++ Numeral.natText found) = false := by
  induction h with
  | free h => exact h
  | taken _ _ ih => exact ih

/-- From one number on, one number is found. -/
theorem Searches.unique (h : Searches s base counter found) (h' : Searches s base counter found') :
    found = found' := by
  induction h with
  | free hfree =>
    cases h' with
    | free => rfl
    | taken htaken => exact absurd (hfree.symm.trans htaken) Bool.false_ne_true
  | taken htaken _ ih =>
    cases h' with
    | free hfree => exact absurd (hfree.symm.trans htaken) Bool.false_ne_true
    | taken _ rest => exact ih rest

/-- What is tried in vain is taken. -/
theorem Searches.isTaken (h : Searches s base counter found) {number : Nat}
    (hle : counter ≤ number) (hlt : number < found) :
    s.isTaken (base ++ Numeral.natText number) = true := by
  induction h with
  | free => exact absurd hlt (Nat.not_lt_of_le hle)
  | taken htaken _ ih =>
    rcases Nat.eq_or_lt_of_le hle with rfl | hnext
    · exact htaken
    · exact ih hnext hlt

/-- The bounded search is the search, as far as it comes. -/
theorem searches_of_freeCounter?_eq_some :
    ∀ (fuel counter : Nat), s.freeCounter? base fuel counter = some found →
      Searches s base counter found ∧ found < counter + fuel
  | 0, _, h => by cases h
  | fuel + 1, counter, h => by
    unfold freeCounter? at h
    split at h
    · next htaken =>
      obtain ⟨hrest, hlt⟩ := searches_of_freeCounter?_eq_some fuel (counter + 1) h
      exact ⟨.taken htaken hrest, by omega⟩
    · next hfree =>
      obtain rfl := Option.some.inj h
      exact ⟨.free (Bool.eq_false_iff.mpr hfree), by omega⟩

/-- The names of all levels, those of attached stores behind the declared ones. -/
def levelNames (s : Flattening) : List String := keys s.nodes ++ keys s.virtualNodes

end Flattening

namespace Naming

open Flattening

/-- The number in the name. -/
def counter (naming : Naming) : Nat := naming.state.nextCounter naming.base

def name (naming : Naming) : String := naming.base ++ Numeral.natText naming.counter

/-- The numbers that are tried; the last one is in the name. -/
def tried (naming : Naming) : List Nat :=
  List.range' naming.state.counter (naming.counter + 1 - naming.state.counter)

/-- The state once the name is given. -/
def after (naming : Naming) : Flattening := { naming.state with counter := naming.counter + 1 }

/-- The name of a level is found, and no level has it. -/
structure Fresh (naming : Naming) : Prop where
  gives : Walk.allocateName naming.base naming.state = .ok naming.name naming.after
  /-- the search ends, and at this number only -/
  ends : ∀ found, Searches naming.state naming.base naming.state.counter found ↔
    found = naming.counter
  attempts : naming.tried.length ≤ naming.state.levelNames.length + 1
  /-- a name that is tried in vain is that of a level -/
  others : ∀ number ∈ naming.tried, number = naming.counter ∨
    naming.base ++ Numeral.natText number ∈ naming.state.levelNames
  free : get? naming.state.nodes naming.name = none ∧
    get? naming.state.virtualNodes naming.name = none
  grows : naming.state.counter < naming.after.counter

variable {naming : Naming}

/-- A naming finds its number, with an attempt to spare: fewer names are taken than it tries. -/
theorem searches (naming : Naming) :
    Searches naming.state naming.base naming.state.counter naming.counter ∧
      naming.counter < naming.state.counter +
        (naming.state.nodes.length + naming.state.virtualNodes.length + 1) :=
  searches_of_freeCounter?_eq_some _ _ (freeCounter?_nextCounter naming.state naming.base)

theorem le_counter (naming : Naming) : naming.state.counter ≤ naming.counter :=
  naming.searches.1.le

theorem mem_tried {number : Nat} :
    number ∈ naming.tried ↔ naming.state.counter ≤ number ∧ number ≤ naming.counter := by
  have hle := naming.le_counter
  rw [tried, List.mem_range'_1]
  omega

theorem level?_name (naming : Naming) : naming.state.level? naming.name = none :=
  level?_eq_none_of_not_isTaken naming.searches.1.isFree

/-- In every state a name is found. -/
theorem fresh (naming : Naming) : naming.Fresh where
  gives := rfl
  ends found := by
    obtain ⟨hsearch, -⟩ := naming.searches
    exact ⟨fun h => h.unique hsearch, fun h => h ▸ hsearch⟩
  attempts := by
    have hlt := naming.searches.2
    simp only [tried, levelNames, keys, List.length_range', List.length_append, List.length_map]
    omega
  others number hnumber := by
    obtain ⟨hle, hle'⟩ := mem_tried.mp hnumber
    rcases Nat.eq_or_lt_of_le hle' with heq | hlt
    · exact .inl heq
    · have htaken := naming.searches.1.isTaken hle hlt
      rw [isTaken, Bool.or_eq_true, ← Fields.mem_keys_iff_has, ← Fields.mem_keys_iff_has] at htaken
      exact .inr (List.mem_append.mpr htaken)
  free := Option.or_eq_none_iff.mp naming.level?_name
  grows := Nat.lt_succ_of_le naming.le_counter

end Naming

namespace Flattening

variable {s s' s'' : Flattening} {given given' : List Naming}

/-! ## Names given between two states -/

/-- The names that are given between two states. -/
structure Names (s : Flattening) (given : List Naming) (s' : Flattening) : Prop where
  /-- each number is tried once, in ascending order -/
  tried : List.range s.counter ++ given.flatMap Naming.tried = List.range s'.counter
  /-- a level is entered under each name -/
  levels : s'.levelNames.Perm (given.map Naming.name ++ s.levelNames)
  distinct : s.levelNames.Nodup → s'.levelNames.Nodup

namespace Names

/-- Where no name is given, the levels are the same. -/
theorem nil (counter : s'.counter = s.counter) (levels : s'.levelNames = s.levelNames) :
    Names s [] s' where
  tried := by rw [counter, List.flatMap_nil, List.append_nil]
  levels := by rw [levels]; exact .refl _
  distinct h := by rwa [levels]

/-- Names given one after the other. -/
theorem append (h : Names s given s') (h' : Names s' given' s'') :
    Names s (given ++ given') s'' where
  tried := by rw [List.flatMap_append, ← List.append_assoc, h.tried, h'.tried]
  levels := by
    refine h'.levels.trans ((h.levels.append_left _).trans ?_)
    rw [List.map_append, ← List.append_assoc]
    exact List.perm_append_comm.append_right _
  distinct := h'.distinct ∘ h.distinct

/-- A name is given, and a level entered under it. -/
theorem enter (naming : Naming) {node : Node} (hname : node.uniqueName = naming.name) :
    Names naming.state [naming] (naming.after.enter node) := by
  have hfresh : naming.after.level? node.uniqueName = none := hname ▸ naming.level?_name
  have hperm : (naming.after.enter node).levelNames.Perm
      (node.uniqueName :: naming.state.levelNames) := keys_enter_perm hfresh
  constructor
  case tried =>
    -- what is tried begins where the counter stands
    have hcounter : (naming.after.enter node).counter = naming.counter + 1 := by
      unfold Flattening.enter
      split <;> rfl
    have hle := naming.le_counter
    rw [hcounter, List.flatMap_singleton, Naming.tried, List.range_eq_range', List.range_eq_range']
    have happend := @List.range'_append_1 0 naming.state.counter
      (naming.counter + 1 - naming.state.counter)
    rwa [Nat.zero_add, Nat.add_sub_cancel' (by omega)] at happend
  case levels => rwa [hname] at hperm
  case distinct =>
    exact fun h => hperm.nodup_iff.mpr (List.nodup_cons.mpr ⟨not_mem_keys_of_fresh hfresh, h⟩)

end Names

end Flattening

namespace Walk

open Flattening

variable {α β : Type}

/-! ## Steps that give no names

These are all steps of the walk but one. What a sequence of steps has as soon as each of them has it
is known of `Lasting` properties, so there is one lemma for each step and none for their order. -/

/-- The state that a step leaves, whether or not it fails. -/
def left : EStateM.Result Fault Flattening α → Flattening
  | .ok _ s => s
  | .error _ s => s

/-- A step that gives no name and enters no level. -/
def Quiet (w : Walk α) : Prop :=
  ∀ s, (left (w s)).counter = s.counter ∧ (left (w s)).levelNames = s.levelNames

namespace Quiet

theorem pure (a : α) : Quiet (pure a) := fun _ => ⟨rfl, rfl⟩

theorem bind {w : Walk α} {f : α → Walk β} (hw : Quiet w) (hf : ∀ a, Quiet (f a)) :
    Quiet (w >>= f) := by
  intro s
  obtain ⟨hcounter, hlevels⟩ := hw s
  show (left (EStateM.bind w f s)).counter = _ ∧ (left (EStateM.bind w f s)).levelNames = _
  unfold EStateM.bind
  cases hrun : w s with
  | ok a s' =>
    rw [hrun] at hcounter hlevels
    obtain ⟨hcounter', hlevels'⟩ := hf a s'
    exact ⟨hcounter'.trans hcounter, hlevels'.trans hlevels⟩
  | error fault s' =>
    rw [hrun] at hcounter hlevels
    exact ⟨hcounter, hlevels⟩

theorem get : Quiet (MonadState.get : Walk Flattening) := fun _ => ⟨rfl, rfl⟩

theorem throw (fault : Fault) : Quiet (MonadExcept.throw fault : Walk α) := fun _ => ⟨rfl, rfl⟩

theorem modify {f : Flattening → Flattening} (hcounter : ∀ s, (f s).counter = s.counter)
    (hlevels : ∀ s, (f s).levelNames = s.levelNames) : Quiet (modify f) :=
  fun s => ⟨hcounter s, hlevels s⟩

theorem refuse (store path rule : String) : Quiet (refuse store path rule : Walk α) := throw _

theorem lasting : Lasting Quiet := ⟨pure, bind, get, refuse⟩

theorem require (holds : Bool) (store path rule : String) :
    Quiet (require holds store path rule) := lasting.require holds store path rule

theorem forSome {value : Option α} {f : α → Walk Unit} (hf : ∀ a, Quiet (f a)) :
    Quiet (forSome value f) := lasting.forSome fun a _ => hf a

theorem node (store name : String) : Quiet (node store name) := by
  refine bind get fun s => ?_
  split
  · exact pure _
  · exact throw _

theorem updateNode (store name : String) (f : Node → Node) : Quiet (updateNode store name f) := by
  refine bind (node store name) fun _ => modify (fun _ => rfl) fun s => ?_
  exact congrArg (· ++ _) (Fields.keys_update f s.nodes name)

theorem updateMetadata (f : Metadata → Metadata) : Quiet (updateMetadata f) :=
  modify (fun _ => rfl) fun _ => rfl

end Quiet

theorem quiet_registerHooks (path : String) (hooks : List (HookKind × Hook)) :
    Quiet (registerHooks path hooks) := by
  refine Quiet.lasting.registerHooks (fun kind hook => ?_) hooks
  cases kind <;> exact .modify (fun _ => rfl) fun _ => rfl

theorem quiet_registerReference (store path referenced : String) :
    Quiet (registerReference store path referenced) :=
  Quiet.lasting.registerReference (.updateMetadata _)

theorem quiet_registerLinks (store target : String) (links : List Link) :
    Quiet (registerLinks store target links) :=
  Quiet.lasting.registerLinks
    (fun _ _ => Quiet.lasting.promote (fun _ => .modify (fun _ => rfl) fun _ => rfl)
      (.updateMetadata _))
    (fun _ _ => .updateMetadata _) links

theorem quiet_registerColumn (store : String) (position : Position) (name column : String)
    (primary : Bool) : Quiet (registerColumn store position name column primary) := by
  unfold registerColumn
  refine .bind (.updateMetadata _) fun _ => ?_
  split
  · exact .bind (.modify (fun _ => rfl) fun _ => rfl) fun _ => .updateNode _ _ _
  · exact .pure _

theorem quiet_attachedStore (store path : String) (links : List Link) :
    ∀ attached, Quiet (attachedStore store path attached links) :=
  Quiet.lasting.attachedStore links

/-- A scalar attribute has no level. -/
theorem quiet_visitScalar (store : String) (position : Position) (name : String)
    (tuple : Tuple LevelWalk) : Quiet (visitScalar store position name tuple) := by
  rw [visitScalar_eq]
  refine .bind (.forSome fun _ => .updateNode _ _ _) fun _ => ?_
  refine .bind (.forSome fun _ => quiet_registerColumn _ _ _ _ _) fun _ => ?_
  refine .bind (.forSome fun _ => .updateMetadata _) fun _ => ?_
  refine .bind (quiet_registerLinks _ _ _) fun _ => ?_
  refine .bind (.forSome fun _ => quiet_registerReference _ _ _) fun _ => ?_
  exact .bind (quiet_registerHooks _ _) fun _ => .bind (.updateNode _ _ _) fun _ => .pure _

/-- Ends the visit of a declared level. -/
def closeLevel (store : String) (position : Position) (name : String) (kind : NodeKind)
    (child : String) (level : Level) : Walk Below :=
  match kind with
  | .object => return ⟨child, .level kind level.attributes, .object level.members⟩
  | .array => do
    let visited ← node store child
    require (!visited.primaryKey.isEmpty) store (position.attributePath name)
      "array requires at least one primary key column '<<name>>'"
    updateNode store position.node (·.withArray child)
    return ⟨child, .level kind level.attributes, .array [.object level.members]⟩

/-- The visit of a declared level: it is named and entered, walked through and closed. -/
theorem visitDeclaredLevel_eq (store : String) (position : Position) (name : String)
    (kind : NodeKind) (attached : Option String) (walk : LevelWalk) :
    visitDeclaredLevel store position name kind attached walk = (do
      let parent ← node store position.node
      let child ← allocateName name
      addNode (childWith parent child name kind false attached)
      let level ← walk (position.below child name kind)
      closeLevel store position name kind child level) := by
  cases kind <;> rfl

theorem quiet_closeLevel (store : String) (position : Position) (name : String) (kind : NodeKind)
    (child : String) (level : Level) :
    Quiet (closeLevel store position name kind child level) := by
  cases kind with
  | object => exact .pure _
  | array =>
    refine .bind (.node _ _) fun _ => .bind (.require _ _ _ _) fun _ => ?_
    exact .bind (.updateNode _ _ _) fun _ => .pure _

/-- Ends the visit of a nested attribute. -/
def closeNested (store : String) (position : Position) (name : String) (tuple : Tuple LevelWalk)
    (kind : NodeKind) (attached : Option String) (below : Below) : Walk Visited := do
  forSome attached fun source =>
    updateMetadata (·.addJoin
      ⟨source, position.attributePath name, if kind = .array then .many else .one⟩)
  forSome tuple.reference fun referenced =>
    registerReference store (position.attributePath name) referenced
  declare store position.node (nestedDecl name tuple below.child)
  return ⟨nestedDecl name tuple below.child, below.shape, below.value⟩

theorem quiet_closeNested (store : String) (position : Position) (name : String)
    (tuple : Tuple LevelWalk) (kind : NodeKind) (attached : Option String) (below : Below) :
    Quiet (closeNested store position name tuple kind attached below) := by
  refine .bind (.forSome fun _ => .updateMetadata _) fun _ => ?_
  refine .bind (.forSome fun _ => quiet_registerReference _ _ _) fun _ => ?_
  exact .bind (.updateNode _ _ _) fun _ => .pure _

end Walk

/-! ## Walks with the names that they give -/

/-- A walk with the levels that it names, those before a failure included. -/
def TracedWalk (α : Type) := Flattening → EStateM.Result Fault Flattening α × List Naming

namespace TracedWalk

variable {α β : Type}

/-- A walk that is taken to give no names. -/
def plain (w : Walk α) : TracedWalk α := fun s => (w s, [])

def bind (t : TracedWalk α) (f : α → TracedWalk β) : TracedWalk β := fun s =>
  match t s with
  | (.ok a s', given) => ((f a s').1, given ++ (f a s').2)
  | (.error fault s', given) => (.error fault s', given)

instance : Monad TracedWalk where
  pure a := plain (pure a)
  bind := bind

/-- Gives a level its name. -/
def allocateName (base : String) : TracedWalk String :=
  fun s => (Walk.allocateName base s, [⟨base, s⟩])

/-- The walk without the names. -/
def walk (t : TracedWalk α) : Walk α := fun s => (t s).1

@[simp] theorem walk_plain (w : Walk α) : (plain w).walk = w := rfl

@[simp] theorem walk_pure (a : α) : (pure a : TracedWalk α).walk = pure a := rfl

@[simp] theorem walk_allocateName (base : String) :
    (allocateName base).walk = Walk.allocateName base := rfl

/-- Tracing a sequence is tracing its parts. -/
@[simp] theorem walk_bind (t : TracedWalk α) (f : α → TracedWalk β) :
    (t >>= f).walk = t.walk >>= fun a => (f a).walk := by
  funext s
  show (bind t f s).1 = EStateM.bind t.walk (fun a => (f a).walk) s
  unfold bind EStateM.bind walk
  rcases t s with ⟨result, given⟩
  cases result <;> rfl

/-- The names of a sequence are those of its first part, then those of the second. -/
theorem bind_of_ok {t : TracedWalk α} {f : α → TracedWalk β} {a : α} {s s' : Flattening}
    {given : List Naming} (h : t s = (.ok a s', given)) :
    (t >>= f) s = ((f a s').1, given ++ (f a s').2) := by
  show bind t f s = _
  rw [bind, h]

/-- Where a naming happens, it is what is traced. -/
theorem allocateName_eq (naming : Naming) :
    allocateName naming.base naming.state = (.ok naming.name naming.after, [naming]) := rfl

end TracedWalk

/-- The walk over a nested descriptor, with the names that it gives. -/
abbrev TracedLevelWalk := Position → TracedWalk Level

/-- The walk without the names. -/
def TracedLevelWalk.walk (t : TracedLevelWalk) : LevelWalk := fun position => (t position).walk

namespace TracedWalk

open Flattening (Names)

variable {α β : Type} (store : String) (position : Position) (name : String)

/-! ## The walk over a descriptor

The visits are those of the walk, with the names that the levels below are given. -/

def visitDeclaredLevel (kind : NodeKind) (attached : Option String) (t : TracedLevelWalk) :
    TracedWalk Walk.Below := do
  let parent ← plain (Walk.node store position.node)
  let child ← allocateName name
  plain (Walk.addNode (Walk.childWith parent child name kind false attached))
  let level ← t (position.below child name kind)
  plain (Walk.closeLevel store position name kind child level)

def visitVirtualLevel (kind : NodeKind) (attached : Option String) : TracedWalk Walk.Below := do
  plain (Walk.require attached.isSome store (position.attributePath name)
    "nested attribute needs a sub-descriptor or a join marker")
  let parent ← plain (Walk.node store position.node)
  let child ← allocateName name
  plain (Walk.addVirtualNode (Walk.childWith parent child name kind true attached))
  return ⟨child, .foreign, Walk.attachmentValue kind⟩

def visitBelow (kind : NodeKind) (attached : Option String) :
    Option TracedLevelWalk → TracedWalk Walk.Below
  | some t => visitDeclaredLevel store position name kind attached t
  | none => visitVirtualLevel store position name kind attached

def visitNested (tuple : Tuple TracedLevelWalk) : TracedWalk Visited := do
  let path := position.attributePath name
  match tuple.nesting with
  | none => plain (Walk.refuse store path "nested descriptor requires 'array' or 'object'")
  | some kind =>
    plain (Walk.require tuple.column.isNone store path "column annotation on a nested attribute")
    let attached ← plain (Walk.attachedStore store path none tuple.links)
    plain (Walk.require tuple.computed.isNone store path "computed handler on a nested attribute")
    plain (Walk.registerHooks path tuple.hooks)
    let below ← visitBelow store position name kind attached tuple.nested
    plain (Walk.closeNested store position name (tuple.map TracedLevelWalk.walk) kind attached below)

def visitAttribute : Attribute TracedLevelWalk → TracedWalk Visited
  | .bare text => plain (Walk.visitAttribute store position name (.bare text))
  | .malformed kind => plain (Walk.visitAttribute store position name (.malformed kind))
  | .tuple directives =>
    match Tuple.ofDirectives directives with
    | .error rule => plain (Walk.refuse store (position.attributePath name) rule)
    | .ok tuple =>
      if tuple.isNested then visitNested store position name tuple
      else plain (Walk.visitScalar store position name (tuple.map TracedLevelWalk.walk))

def visitAttributes (level : Level) :
    List (String × Attribute TracedLevelWalk) → TracedWalk Level
  | [] => pure level
  | (name, attr) :: rest => do
    let visited ← visitAttribute store position name attr
    visitAttributes
      { attributes := level.attributes ++ [(visited.decl, visited.shape)]
        members := Fields.set level.members name visited.value } rest

def visitLevel (attributes : List (String × Attribute TracedLevelWalk)) : TracedLevelWalk :=
  fun position => visitAttributes store position {} attributes

/-- The walk over a whole descriptor with the names of all its levels. -/
def visit (store rootName : String) (descriptor : Descriptor) : TracedWalk (String × Level) := do
  let root ← allocateName rootName
  plain (Walk.addNode (.root root))
  let level ← descriptor.fold (visitLevel store)
    { node := root, path := "", column := "", keyOwner := root, keyFront := "", depth := 0 }
  return (root, level)

/-! ## Without the names

One equation for each visit, from a declared level up to the whole walk. -/

theorem walk_visitDeclaredLevel (kind : NodeKind) (attached : Option String)
    (t : TracedLevelWalk) :
    (visitDeclaredLevel store position name kind attached t).walk =
      Walk.visitDeclaredLevel store position name kind attached t.walk := by
  rw [Walk.visitDeclaredLevel_eq]
  simp only [visitDeclaredLevel, walk_bind, walk_plain, walk_allocateName, TracedLevelWalk.walk]

theorem walk_visitVirtualLevel (kind : NodeKind) (attached : Option String) :
    (visitVirtualLevel store position name kind attached).walk =
      Walk.visitVirtualLevel store position name kind attached := by
  simp only [visitVirtualLevel, walk_bind, walk_plain, walk_allocateName, walk_pure]
  cases kind <;> rfl

theorem walk_visitNested (tuple : Tuple TracedLevelWalk) :
    (visitNested store position name tuple).walk =
      Walk.visitNested store position name (tuple.map TracedLevelWalk.walk) := by
  -- of all the steps only what stands below gives names
  have hbelow : ∀ kind attached, (visitBelow store position name kind attached tuple.nested).walk =
      Walk.visitBelow store position name kind attached
        (tuple.map TracedLevelWalk.walk).nested := by
    intro kind attached
    show _ = Walk.visitBelow store position name kind attached
      (tuple.nested.map TracedLevelWalk.walk)
    cases tuple.nested with
    | none => exact walk_visitVirtualLevel store position name kind attached
    | some t => exact walk_visitDeclaredLevel store position name kind attached t
  unfold visitNested
  cases hkind : tuple.nesting with
  | none =>
    have hkind' : (tuple.map TracedLevelWalk.walk).nesting = none := hkind
    simp only [Walk.visitNested, hkind', walk_plain]
  | some kind =>
    have hkind' : (tuple.map TracedLevelWalk.walk).nesting = some kind := hkind
    rw [Walk.visitNested_eq store position name hkind']
    simp only [walk_bind, walk_plain, hbelow]
    rfl

theorem walk_visitAttribute (attr : Attribute TracedLevelWalk) :
    (visitAttribute store position name attr).walk =
      Walk.visitAttribute store position name (attr.map TracedLevelWalk.walk) := by
  cases attr with
  | bare text => rfl
  | malformed kind => rfl
  | tuple directives =>
    simp only [visitAttribute, Attribute.map, Walk.visitAttribute, Tuple.ofDirectives_map]
    cases Tuple.ofDirectives directives with
    | error rule => rfl
    | ok tuple =>
      simp only [Except.map, Tuple.isNested_map]
      split
      · exact walk_visitNested store position name tuple
      · rfl

theorem walk_visitAttributes (attributes : List (String × Attribute TracedLevelWalk)) :
    ∀ level, (visitAttributes store position level attributes).walk =
      Walk.visitAttributes store position level
        (attributes.map fun entry => (entry.1, entry.2.map TracedLevelWalk.walk)) := by
  induction attributes with
  | nil => exact fun level => rfl
  | cons entry rest ih =>
    intro level
    simp only [visitAttributes, Walk.visitAttributes, List.map_cons, walk_bind,
      walk_visitAttribute, ih]

/-- Without the names, the walk is that over the descriptor. -/
theorem walk_visit (rootName : String) (descriptor : Descriptor) :
    (visit store rootName descriptor).walk = Walk.visit store rootName descriptor := by
  have hfold : TracedLevelWalk.walk (descriptor.fold (visitLevel store)) =
      descriptor.fold (Walk.visitLevel store) :=
    Descriptor.map_fold (fun attributes => funext fun position =>
      walk_visitAttributes store position attributes {}) descriptor
  simp only [visit, walk_bind, walk_plain, walk_allocateName, walk_pure, Walk.visit, ← hfold]
  rfl

/-! ## The names of a walk -/

/-- What a walk gives are the names between the states around it, whether or not it fails. -/
def Accounts (t : TracedWalk α) : Prop := ∀ s, Names s (t s).2 (Walk.left (t s).1)

namespace Accounts

theorem plain {w : Walk α} (hw : w.Quiet) : Accounts (plain w) := fun s =>
  .nil (hw s).1 (hw s).2

theorem pure (a : α) : Accounts (pure a) := plain (.pure a)

theorem bind {t : TracedWalk α} {f : α → TracedWalk β} (ht : Accounts t)
    (hf : ∀ a, Accounts (f a)) : Accounts (t >>= f) := by
  intro s
  have hfirst := ht s
  show Names s (TracedWalk.bind t f s).2 (Walk.left (TracedWalk.bind t f s).1)
  unfold TracedWalk.bind
  split
  case h_1 a s' given hrun =>
    rw [hrun] at hfirst
    exact hfirst.append (hf a s')
  case h_2 fault s' given hrun =>
    -- the names given so far remain
    rw [hrun] at hfirst
    exact hfirst

/-- A level is entered under its name as soon as it has one. -/
theorem enter {base : String} (level : String → Node) {add : String → Walk Unit}
    {rest : String → TracedWalk β} (hname : ∀ child, (level child).uniqueName = child)
    (hadd : ∀ child s, add child s = .ok () (s.enter (level child)))
    (hrest : ∀ child, Accounts (rest child)) :
    Accounts (allocateName base >>= fun child => TracedWalk.plain (add child) >>= fun _ =>
      rest child) := by
  intro s
  have hentered := Names.enter ⟨base, s⟩ (hname (Naming.name ⟨base, s⟩))
  have hadded : TracedWalk.plain (add (Naming.name ⟨base, s⟩)) (Naming.after ⟨base, s⟩) =
      (.ok () ((Naming.after ⟨base, s⟩).enter (level (Naming.name ⟨base, s⟩))), []) :=
    congrArg (·, []) (hadd _ _)
  rw [bind_of_ok (allocateName_eq ⟨base, s⟩), bind_of_ok hadded, List.nil_append]
  exact hentered.append (hrest _ _)

end Accounts

/-- A declared level is named once, then come the names of the levels below it. -/
theorem accounts_visitDeclaredLevel (kind : NodeKind) (attached : Option String)
    {t : TracedLevelWalk} (ht : ∀ position, Accounts (t position)) :
    Accounts (visitDeclaredLevel store position name kind attached t) := by
  refine .bind (.plain (.node _ _)) fun parent => ?_
  refine .enter (fun child => Walk.childWith parent child name kind false attached)
    (fun _ => rfl) (fun _ _ => rfl) fun child => ?_
  exact .bind (ht _) fun level => .plain (Walk.quiet_closeLevel _ _ _ _ _ _)

theorem accounts_visitVirtualLevel (kind : NodeKind) (attached : Option String) :
    Accounts (visitVirtualLevel store position name kind attached) := by
  refine .bind (.plain (.require _ _ _ _)) fun _ => .bind (.plain (.node _ _)) fun parent => ?_
  exact .enter (fun child => Walk.childWith parent child name kind true attached)
    (fun _ => rfl) (fun _ _ => rfl) fun child => .pure _

theorem accounts_visitNested {tuple : Tuple TracedLevelWalk}
    (ht : ∀ t, tuple.nested = some t → ∀ position, Accounts (t position)) :
    Accounts (visitNested store position name tuple) := by
  unfold visitNested
  split
  · exact .plain (.refuse _ _ _)
  · next kind hkind =>
    refine .bind (.plain (.require _ _ _ _)) fun _ => ?_
    refine .bind (.plain (Walk.quiet_attachedStore _ _ _ _)) fun attached => ?_
    refine .bind (.plain (.require _ _ _ _)) fun _ => ?_
    refine .bind (.plain (Walk.quiet_registerHooks _ _)) fun _ => ?_
    refine .bind ?_ fun below => .plain (Walk.quiet_closeNested _ _ _ _ _ _ _)
    cases hnested : tuple.nested with
    | none => exact accounts_visitVirtualLevel _ _ _ _ _
    | some t => exact accounts_visitDeclaredLevel _ _ _ _ _ (ht t hnested)

theorem accounts_visitAttribute {attr : Attribute TracedLevelWalk}
    (ht : ∀ directives, attr = .tuple directives → ∀ t, .nested t ∈ directives →
      ∀ position, Accounts (t position)) :
    Accounts (visitAttribute store position name attr) := by
  cases attr with
  | bare text => exact .plain (.refuse _ _ _)
  | malformed kind => exact .plain (.refuse _ _ _)
  | tuple directives =>
    cases hread : Tuple.ofDirectives directives with
    | error rule =>
      simp only [visitAttribute, hread]
      exact .plain (.refuse _ _ _)
    | ok tuple =>
      simp only [visitAttribute, hread]
      split
      · exact accounts_visitNested _ _ _ fun t hnested =>
          ht directives rfl t (Tuple.mem_of_nested hread hnested)
      · exact .plain (Walk.quiet_visitScalar _ _ _ _)

theorem accounts_visitAttributes {attributes : List (String × Attribute TracedLevelWalk)}
    (ht : ∀ entry ∈ attributes, ∀ directives, entry.2 = .tuple directives →
      ∀ t, .nested t ∈ directives → ∀ position, Accounts (t position)) :
    ∀ level, Accounts (visitAttributes store position level attributes) := by
  induction attributes with
  | nil => exact fun level => .pure level
  | cons entry rest ih =>
    obtain ⟨name, attr⟩ := entry
    intro level
    refine .bind (accounts_visitAttribute _ _ _ (ht _ List.mem_cons_self)) fun visited => ?_
    exact ih (fun entry hentry => ht entry (List.mem_cons_of_mem _ hentry)) _

/-- The walk over a descriptor accounts for its names. -/
theorem accounts_visit (rootName : String) (descriptor : Descriptor) :
    Accounts (visit store rootName descriptor) := by
  -- the root is entered under its name like every level below it
  refine .enter Node.root (fun _ => rfl) (fun _ _ => rfl) fun root => ?_
  refine .bind ?_ fun level => .pure _
  exact Descriptor.fold_induction (p := fun t : TracedLevelWalk => ∀ position, Accounts (t position))
    (fun attributes ht position => accounts_visitAttributes store position ht {}) descriptor _

end TracedWalk

/-! ## A whole flattening -/

/-- The levels of a descriptor as they get their names. -/
def namings (store rootName : String) (descriptor : Descriptor) : List Naming :=
  (TracedWalk.visit store rootName descriptor (.start store)).2

/-- In the walk over a descriptor, no number is tried twice and no name given twice. -/
structure NamesOnce (store rootName : String) (descriptor : Descriptor) : Prop where
  /-- the walk over the descriptor gives these names -/
  traced : (TracedWalk.visit store rootName descriptor).walk =
    Walk.visit store rootName descriptor
  tried : (namings store rootName descriptor).flatMap Naming.tried =
    List.range (Walk.left (Walk.visit store rootName descriptor (.start store))).counter
  ascending : ((namings store rootName descriptor).map Naming.counter).Pairwise (· < ·)
  distinct : ((namings store rootName descriptor).map Naming.name).Nodup
  /-- the levels have these names, also where the walk has failed -/
  levels : (Walk.left (Walk.visit store rootName descriptor (.start store))).levelNames.Perm
    ((namings store rootName descriptor).map Naming.name)
  flattened : ∀ flattened, (flatten store rootName descriptor).1 = .ok flattened →
    (keys flattened.levels).Perm ((namings store rootName descriptor).map Naming.name)

theorem names_namings (store rootName : String) (descriptor : Descriptor) :
    Flattening.Names (.start store) (namings store rootName descriptor)
      (Walk.left (Walk.visit store rootName descriptor (.start store))) := by
  rw [← TracedWalk.walk_visit]
  exact TracedWalk.accounts_visit store rootName descriptor _

/-- The levels of a flattened descriptor are those in which the walk has ended. -/
theorem levels_of_flatten {store rootName : String} {descriptor : Descriptor}
    {flattened : Flattened}
    (h : (flatten store rootName descriptor).1 = .ok flattened) :
    keys flattened.levels =
      (Walk.left (Walk.visit store rootName descriptor (.start store))).levelNames := by
  unfold flatten EStateM.run at h
  cases hvisit : Walk.visit store rootName descriptor (.start store) with
  | ok ended s =>
    rw [hvisit] at h
    obtain rfl := Except.ok.inj h
    exact List.map_append
  | error fault s =>
    rw [hvisit] at h
    cases h

/-- The numbers in the names ascend as those that are tried. -/
theorem pairwise_counter {given : List Naming} {limit : Nat}
    (h : given.flatMap Naming.tried = List.range limit) :
    (given.map Naming.counter).Pairwise (· < ·) := by
  have htried : (given.flatMap Naming.tried).Pairwise (· < ·) := h ▸ List.pairwise_lt_range
  -- the number in a name is the last one tried for it
  refine List.pairwise_map.mpr ((List.pairwise_flatMap.mp htried).2.imp fun hlt => ?_)
  exact hlt _ (Naming.mem_tried.mpr ⟨Naming.le_counter _, Nat.le_refl _⟩)
    _ (Naming.mem_tried.mpr ⟨Naming.le_counter _, Nat.le_refl _⟩)

/-- In every state, a level gets a name that no level has; and over a whole descriptor, no number is
tried twice and no name given twice. -/
theorem namings_of_descriptor : (∀ naming : Naming, naming.Fresh) ∧
    ∀ store rootName descriptor, NamesOnce store rootName descriptor := by
  refine ⟨Naming.fresh, fun store rootName descriptor => ?_⟩
  have hnames := names_namings store rootName descriptor
  have hlevels : (Walk.left (Walk.visit store rootName descriptor (.start store))).levelNames.Perm
      ((namings store rootName descriptor).map Naming.name) := by
    simpa [Flattening.levelNames, Flattening.start, keys] using hnames.levels
  constructor
  case traced => exact TracedWalk.walk_visit store rootName descriptor
  case tried => exact hnames.tried
  case ascending => exact pairwise_counter hnames.tried
  case distinct => exact hlevels.nodup_iff.mp (hnames.distinct List.nodup_nil)
  case levels => exact hlevels
  case flattened =>
    intro flattened h
    rw [levels_of_flatten h]
    exact hlevels

/-- Shelves next to each other, the first of them with a digit at the end of its name. -/
def shelves : Descriptor :=
  .mk (["a1", "b", "c", "d", "e", "f", "g", "h", "i", "j", "a"].map fun name =>
    (name, .tuple [.word "object", .nested (.mk [])]))

/-- The name with the number 11 is that of the first shelf. -/
theorem namings_of_descriptor_shelves : NamesOnce "shop" "main" shelves ∧
    (∀ naming ∈ namings "shop" "main" shelves, naming.Fresh) ∧
    (namings "shop" "main" shelves).map Naming.name =
      ["main0", "a11", "b2", "c3", "d4", "e5", "f6", "g7", "h8", "i9", "j10", "a12"] ∧
    ((namings "shop" "main" shelves).map Naming.tried).getLast? = some [11, 12] :=
  ⟨namings_of_descriptor.2 _ _ _, fun naming _ => namings_of_descriptor.1 naming,
    by decide +kernel, by decide +kernel⟩

end NestedRecord
