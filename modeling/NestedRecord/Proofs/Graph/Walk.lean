import NestedRecord.Graph.Flatten
import NestedRecord.Proofs.Graph.Metadata

/-!
# Steps of the walk over a descriptor

Most steps of the walk enter something into the metadata or note something at a level. They
leave the levels and their attributes alone, keep the attachments and keep the tables of
aggregates tidy.

The walk is written in a state monad with faults, and every fact about the flattened graph is a fact
about the states that it goes through. Rather than following the whole state, each step is described
by the relation between the state before and the state after it; such relations compose. What a
visit does is then read off the relations of its steps, and later modules no longer open the monad.

* `Walk.bind_eq_ok` opens a sequence of steps. `Walk.Lasting` are the properties that a walk has as
  soon as its steps have them; what registers hooks, references, links and attachments has them if
  the single registrations do.
* `Revises` says how a step changes the state: attributes are added to one level, and nothing
  else happens to the graph, which is what `Redraws` says alone. `Notes` is what it notes beside
  the attributes: no levels, lists below one level, keys and conversions. `Steady` steps add no
  attributes and note no lists.
* `steady_registerLinks`, `steady_registerHooks` and their neighbours are the steps of the
  source that are steady; `adds_visitScalar` sums them up for a scalar attribute.
-/

namespace NestedRecord

open Fields (get? has)

theorem Fields.set_ne_nil {α : Type} (fields : Fields α) (key : String) (value : α) :
    Fields.set fields key value ≠ [] := by
  intro hnil
  have hget := Fields.get?_set_self fields key value
  rw [hnil] at hget
  cases hget

/-- A level without what is noted beside its attributes. -/
def Node.outline (node : Node) : Node :=
  { node with conversions := [], primaryKey := [], childArrays := [] }

/-- A level with further attributes. -/
def Node.extend (node : Node) (decls : List AttributeDecl) : Node :=
  { node with attributes := node.attributes ++ decls }

/-- A level with one more list right below it. -/
def Node.withArray (node : Node) (child : String) : Node :=
  { node with childArrays := node.childArrays ++ [child] }

theorem Node.extend_nil (node : Node) : node.extend [] = node := by
  rw [extend, List.append_nil]

/-- A step adds attributes to the level of a name and keeps the rest of the graph. -/
structure Redraws (name : String) (decls : List AttributeDecl) (s s' : Flattening) : Prop where
  nodes : ∀ other, (get? s'.nodes other).map Node.outline =
    (get? s.nodes other).map fun node =>
      if other = name then (node.extend decls).outline else node.outline
  virtualNodes : s'.virtualNodes = s.virtualNodes

namespace Redraws

variable {name : String} {decls : List AttributeDecl} {s s' s'' : Flattening}

/-- A step that adds no attributes, whatever the name. -/
theorem of_outlines
    (nodes : ∀ other, (get? s'.nodes other).map Node.outline = (get? s.nodes other).map Node.outline)
    (virtualNodes : s'.virtualNodes = s.virtualNodes) : Redraws name [] s s' where
  nodes other := by
    rw [nodes]
    refine congrArg (Option.map · _) (funext fun node => ?_)
    rw [Node.extend_nil, ite_self]
  virtualNodes := virtualNodes

/-- Apart from their attributes, the levels stay as they are. -/
theorem outlines (h : Redraws name [] s s') (other : String) :
    (get? s'.nodes other).map Node.outline = (get? s.nodes other).map Node.outline := by
  rw [h.nodes]
  refine congrArg (Option.map · _) (funext fun node => ?_)
  rw [Node.extend_nil, ite_self]

/-- A step that leaves the graph as it is. -/
theorem of_nodes (nodes : s'.nodes = s.nodes) (virtualNodes : s'.virtualNodes = s.virtualNodes) :
    Redraws name [] s s' :=
  of_outlines (fun _ => by rw [nodes]) virtualNodes

/-- Steps that add no attributes may come in front. -/
theorem trans (h : Redraws name [] s s') (h' : Redraws name decls s' s'') :
    Redraws name decls s s'' where
  nodes other := by
    have hmap : ∀ node : Node, (if other = name then (node.extend decls).outline
        else node.outline) = if other = name then node.outline.extend decls else node.outline := by
      intro node
      split <;> rfl
    have hcomp : ∀ found : Option Node, (found.map fun node =>
        if other = name then (node.extend decls).outline else node.outline) =
          (found.map Node.outline).map fun node =>
            if other = name then node.extend decls else node := by
      intro found
      rw [Option.map_map]
      refine congrArg (Option.map · found) (funext fun node => ?_)
      simp only [Function.comp]
      rw [hmap]
    rw [h'.nodes, hcomp, h.outlines, ← hcomp]
  virtualNodes := h'.virtualNodes.trans h.virtualNodes

end Redraws

/-- A step adds attributes to the level of a name, keeps the rest of the graph and the attachments,
and leaves the tables of aggregates tidy. -/
structure Revises (name : String) (decls : List AttributeDecl) (s s' : Flattening) : Prop
    extends Redraws name decls s s' where
  attachments : s'.metadata.attachments.Perm s.metadata.attachments
  tidy : s.metadata.Tidy → s'.metadata.Tidy

namespace Revises

variable {name : String} {decls : List AttributeDecl} {s s' s'' : Flattening}

theorem refl (s : Flattening) : Revises name [] s s :=
  ⟨.of_nodes rfl rfl, List.Perm.refl _, id⟩

theorem trans (h : Revises name [] s s') (h' : Revises name decls s' s'') :
    Revises name decls s s'' where
  toRedraws := h.toRedraws.trans h'.toRedraws
  attachments := h'.attachments.trans h.attachments
  tidy := fun htidy => h'.tidy (h.tidy htidy)

/-- A change of one level that is not seen in its outline. -/
theorem update (f : Node → Node) (hf : ∀ node, (f node).outline = node.outline)
    (other : String) (s : Flattening) :
    Revises name [] s { s with nodes := Fields.update f s.nodes other } := by
  refine ⟨.of_outlines (fun key => ?_) rfl, List.Perm.refl _, id⟩
  rw [Fields.get?_update]
  split
  · rw [Option.map_map]
    exact congrArg (Option.map · _) (funext hf)
  · rfl

/-- A step that only concerns the metadata. -/
theorem of_metadata (nodes : s'.nodes = s.nodes) (virtualNodes : s'.virtualNodes = s.virtualNodes)
    (attachments : s'.metadata.attachments.Perm s.metadata.attachments)
    (tidy : s.metadata.Tidy → s'.metadata.Tidy) : Revises name [] s s' :=
  ⟨.of_nodes nodes virtualNodes, attachments, tidy⟩

end Revises

/-- A level has keys and conversions if it had some before. -/
structure Node.Retains (node node' : Node) : Prop where
  keyed : node.primaryKey ≠ [] → node'.primaryKey ≠ []
  converting : node.conversions ≠ [] → node'.conversions ≠ []

/-- A step notes lists at the level of a name; it enters no level and forgets neither keys nor
conversions. -/
structure Notes (name : String) (arrays : List String) (s s' : Flattening) : Prop where
  keys : Fields.keys s'.nodes = Fields.keys s.nodes
  arrays : ∀ other, (get? s'.nodes other).map (·.childArrays) =
    (get? s.nodes other).map fun node =>
      node.childArrays ++ if other = name then arrays else []
  retained : ∀ {other node}, get? s.nodes other = some node →
    ∃ node', get? s'.nodes other = some node' ∧ node.Retains node'

namespace Notes

variable {name : String} {arrays arrays' : List String} {s s' s'' : Flattening}

/-- A step that leaves the levels as they are. -/
theorem of_nodes (nodes : s'.nodes = s.nodes) : Notes name [] s s' where
  keys := by rw [nodes]
  arrays other := by simp [nodes]
  retained hget := ⟨_, nodes ▸ hget, id, id⟩

theorem refl (s : Flattening) : Notes name [] s s := of_nodes rfl

theorem trans (h : Notes name arrays s s') (h' : Notes name arrays' s' s'') :
    Notes name (arrays ++ arrays') s s'' where
  keys := h'.keys.trans h.keys
  arrays other := by
    have hmap : ∀ found : Option Node, (found.map fun node =>
        node.childArrays ++ if other = name then arrays' else []) =
          (found.map (·.childArrays)).map (· ++ if other = name then arrays' else []) := by
      intro found
      rw [Option.map_map]
      rfl
    rw [h'.arrays, hmap, h.arrays, Option.map_map]
    refine congrArg (Option.map · _) (funext fun node => ?_)
    by_cases hother : other = name <;> simp [hother]
  retained hget := by
    obtain ⟨node', hget', hkeyed, hconverting⟩ := h.retained hget
    obtain ⟨node'', hget'', hkeyed', hconverting'⟩ := h'.retained hget'
    exact ⟨node'', hget'', hkeyed' ∘ hkeyed, hconverting' ∘ hconverting⟩

/-- A change of one level that keeps its keys and conversions. -/
theorem update (f : Node → Node) (arrays : List String)
    (harrays : ∀ node, (f node).childArrays = node.childArrays ++ arrays)
    (hretains : ∀ node, Node.Retains node (f node)) (s : Flattening) :
    Notes name arrays s { s with nodes := Fields.update f s.nodes name } where
  keys := Fields.keys_update f s.nodes name
  arrays other := by
    rw [Fields.get?_update]
    by_cases hother : other = name
    · rw [if_pos hother, Option.map_map]
      refine congrArg (Option.map · _) (funext fun node => ?_)
      simp [harrays, hother]
    · simp [hother]
  retained {other node} hget := by
    rw [Fields.get?_update, hget]
    by_cases hother : other = name
    · exact ⟨f node, by simp [hother], hretains node⟩
    · exact ⟨node, by simp [hother], id, id⟩

/-- What is noted nowhere is noted at no other level either. -/
theorem nowhere {other : String} (h : Notes name [] s s') : Notes other [] s s' where
  keys := h.keys
  arrays := by simpa using h.arrays
  retained := h.retained

end Notes

namespace Walk

variable {α β : Type} {s s' s'' : Flattening}

/-! ## Sequences of steps

Inversion lemmas: what is known of the parts of a walk that has succeeded. -/

/-- A sequence succeeds if its parts do, one after the other. -/
theorem bind_eq_ok {w : Walk α} {f : α → Walk β} {b : β} :
    (w >>= f) s = .ok b s'' ↔ ∃ a s', w s = .ok a s' ∧ f a s' = .ok b s'' := by
  show EStateM.bind w f s = _ ↔ _
  unfold EStateM.bind
  cases hw : w s with
  | ok a s' =>
    simp only
    constructor
    · intro h
      exact ⟨a, s', rfl, h⟩
    · rintro ⟨a', s₁, heq, h⟩
      cases heq
      exact h
  | error fault s' => simp

theorem pure_eq_ok {a b : α} : (pure a : Walk α) s = .ok b s' ↔ a = b ∧ s = s' := by
  show EStateM.Result.ok a s = _ ↔ _
  constructor
  · intro h
    cases h
    exact ⟨rfl, rfl⟩
  · rintro ⟨rfl, rfl⟩
    rfl

theorem modify_eq_ok {f : Flattening → Flattening} {u : Unit} :
    (modify f : Walk Unit) s = .ok u s' ↔ f s = s' := by
  show EStateM.Result.ok PUnit.unit (f s) = _ ↔ _
  constructor
  · intro h
    cases h
    rfl
  · rintro rfl
    rfl

/-- A level that is read is there, and reading changes nothing. -/
theorem node_eq_ok {store name : String} {node : Node} (h : Walk.node store name s = .ok node s') :
    s' = s ∧ get? s.nodes name = some node := by
  obtain ⟨state, s₁, hget, h⟩ := bind_eq_ok.mp h
  cases hget
  cases hfound : get? s.nodes name with
  | none =>
    rw [hfound] at h
    cases h
  | some found =>
    rw [hfound] at h
    obtain ⟨rfl, rfl⟩ := pure_eq_ok.mp h
    exact ⟨rfl, rfl⟩

/-- A level that is changed is there. -/
theorem updateNode_eq_ok {store name : String} {f : Node → Node} {u : Unit}
    (h : updateNode store name f s = .ok u s') :
    (∃ node, get? s.nodes name = some node) ∧
      s' = { s with nodes := Fields.update f s.nodes name } := by
  obtain ⟨node, s₁, hnode, hchange⟩ := bind_eq_ok.mp h
  obtain ⟨rfl, hget⟩ := node_eq_ok hnode
  exact ⟨⟨node, hget⟩, (modify_eq_ok.mp hchange).symm⟩

/-- Does a step for a value, if there is one. -/
def forSome (value : Option α) (f : α → Walk Unit) : Walk Unit :=
  match value with
  | some a => f a
  | none => pure ()

/-! ## Properties that last along a sequence -/

/-- A property that a walk has as soon as all its steps have it. -/
structure Lasting (P : ∀ {α : Type}, Walk α → Prop) : Prop where
  pure : ∀ {α : Type} (a : α), P (pure a : Walk α)
  bind : ∀ {α β : Type} {w : Walk α} {f : α → Walk β}, P w → (∀ a, P (f a)) → P (w >>= f)
  get : P (MonadState.get : Walk Flattening)
  refuse : ∀ {α : Type} (store path rule : String), P (refuse store path rule : Walk α)

/-- Registers one hook of a path. -/
def registerHook (path : String) (kind : HookKind) (hook : Hook) : Walk Unit :=
  modify fun state =>
    match kind with
    | .validate => { state with onValidate := Fields.set state.onValidate path hook }
    | .transform => { state with onTransform := Fields.set state.onTransform path hook }

namespace Lasting

variable {P : ∀ {α : Type}, Walk α → Prop} {store path : String}

theorem require (h : Lasting P) (holds : Bool) (store path rule : String) :
    P (require holds store path rule) := by
  unfold Walk.require
  split
  · exact h.pure ()
  · exact h.refuse store path rule

theorem forSome (h : Lasting P) {value : Option α} {f : α → Walk Unit}
    (hf : ∀ a, value = some a → P (f a)) : P (forSome value f) := by
  cases value with
  | none => exact h.pure ()
  | some a => exact hf a rfl

theorem registerHooks (h : Lasting P) (hhook : ∀ kind hook, P (registerHook path kind hook))
    (hooks : List (HookKind × Hook)) : P (registerHooks path hooks) := by
  unfold Walk.registerHooks
  induction hooks with
  | nil => exact h.pure ()
  | cons first rest ih => exact h.bind (hhook first.1 first.2) fun _ => ih

theorem registerReference (h : Lasting P) {referenced : String}
    (hset : P (updateMetadata fun metadata =>
      { metadata with references := Fields.set metadata.references path referenced })) :
    P (registerReference store path referenced) := by
  unfold Walk.registerReference
  refine h.bind (h.require _ _ _ _) fun _ => h.bind h.get fun s => ?_
  simp only
  split
  · exact h.refuse _ _ _
  · exact hset

theorem promote (h : Lasting P) {aggregate : ExternalAggregate}
    (hjournal : ∀ notice : Notice,
      P (modify fun state => { state with journal := state.journal ++ [notice] }))
    (hpromote : P (updateMetadata (·.promote aggregate))) : P (promote store aggregate) := by
  unfold Walk.promote
  refine h.bind h.get fun s => ?_
  split
  · exact h.bind (hjournal _) fun _ => hpromote
  · exact hpromote

/-- The links of a target register aggregates of this target only. -/
theorem registerLinks (h : Lasting P) {target : String}
    (hpromote : ∀ aggregate : ExternalAggregate, aggregate.target = target →
      P (Walk.promote store aggregate))
    (hlocal : ∀ aggregate : LocalAggregate, aggregate.target = target →
      P (updateMetadata (·.declareLocal aggregate))) (links : List Link) :
    P (registerLinks store target links) := by
  -- one link: it registers an aggregate or is refused
  have hlink : ∀ latest link, P (registerLink store target latest link) := by
    intro latest link
    cases link with
    | aggregate op source transformer =>
      unfold registerLink
      simp only
      split
      · split
        · exact h.refuse _ _ _
        · exact h.bind (hpromote _ rfl) fun _ => h.pure _
      · exact h.bind (hlocal _ rfl) fun _ => h.pure _
    | join source inner =>
      cases inner with
      | some inner => exact h.refuse _ _ _
      | none =>
        cases latest with
        | none => exact h.refuse _ _ _
        | some fed => exact h.bind (hpromote _ rfl) fun _ => h.pure _
  -- what a link leaves behind for the next one makes no difference
  have hfold : ∀ latest, P (links.foldlM (registerLink store target) latest) := by
    induction links with
    | nil => exact fun latest => h.pure latest
    | cons link rest ih =>
      intro latest
      rw [List.foldlM_cons]
      exact h.bind (hlink latest link) ih
  exact h.bind (hfold none) fun _ => h.pure _

/-- The attached store of a list is looked for among its links. -/
theorem attachedStore (h : Lasting P) (links : List Link) :
    ∀ attached, P (attachedStore store path attached links) := by
  induction links with
  | nil => exact fun attached => h.pure attached
  | cons link rest ih =>
    intro attached
    cases link with
    | aggregate op source transformer => exact h.refuse _ _ _
    | join source inner =>
      cases inner with
      | some inner => exact h.refuse _ _ _
      | none =>
        cases attached with
        | none => exact ih (some source)
        | some other => exact h.refuse _ _ _

end Lasting

/-! ## Steps that keep the graph

A step is steady if it adds no attribute anywhere. All registrations are, and `lasting` carries this
over to the sequences of them. -/

/-- A step that adds the given attributes to the level of a name. -/
def Adds (name : String) (decls : List AttributeDecl) (w : Walk α) : Prop :=
  ∀ s a s', w s = .ok a s' → Revises name decls s s' ∧ Notes name [] s s'

/-- A step that adds no attributes. -/
def Steady (w : Walk α) : Prop := ∀ name, Adds name [] w

/-- A steady step in front adds nothing. -/
theorem Adds.after {w : Walk α} {f : α → Walk β} {name : String} {decls : List AttributeDecl}
    (hw : Steady w) (hf : ∀ a, Adds name decls (f a)) : Adds name decls (w >>= f) := by
  intro s b s'' h
  obtain ⟨a, s', hfirst, hrest⟩ := bind_eq_ok.mp h
  obtain ⟨hrevises, hnotes⟩ := hw name s a s' hfirst
  obtain ⟨hrevises', hnotes'⟩ := hf a s' b s'' hrest
  exact ⟨hrevises.trans hrevises', hnotes.trans hnotes'⟩

namespace Steady

theorem pure (a : α) : Steady (pure a) := by
  intro name s b s' h
  obtain ⟨-, rfl⟩ := pure_eq_ok.mp h
  exact ⟨.refl s, .refl s⟩

theorem bind {w : Walk α} {f : α → Walk β} (hw : Steady w) (hf : ∀ a, Steady (f a)) :
    Steady (w >>= f) := fun name => .after hw fun a => hf a name

theorem get : Steady (MonadState.get : Walk Flattening) := by
  intro name s a s' h
  cases h
  exact ⟨.refl s, .refl s⟩

theorem throw (fault : Fault) : Steady (MonadExcept.throw fault : Walk α) := by
  intro name s a s' h
  cases h

theorem modify {f : Flattening → Flattening} (hf : ∀ name s, Revises name [] s (f s))
    (hnotes : ∀ name s, Notes name [] s (f s)) : Steady (modify f) := by
  intro name s a s' h
  obtain rfl := modify_eq_ok.mp h
  exact ⟨hf name s, hnotes name s⟩

theorem refuse (store path rule : String) : Steady (refuse store path rule : Walk α) := throw _

theorem lasting : Lasting Steady := ⟨pure, bind, get, refuse⟩

theorem require (holds : Bool) (store path rule : String) :
    Steady (require holds store path rule) := lasting.require holds store path rule

theorem forSome {value : Option α} {f : α → Walk Unit} (hf : ∀ a, Steady (f a)) :
    Steady (forSome value f) := lasting.forSome fun a _ => hf a

/-- A change of a level is steady if it keeps its attributes, its lists and what it retains. -/
theorem updateNode (store name : String) {f : Node → Node}
    (hf : ∀ node, (f node).outline = node.outline)
    (harrays : ∀ node, (f node).childArrays = node.childArrays)
    (hretains : ∀ node, Node.Retains node (f node)) :
    Steady (updateNode store name f) := by
  intro other s u s' h
  obtain ⟨-, rfl⟩ := updateNode_eq_ok h
  exact ⟨.update f hf name s,
    (Notes.update f [] (fun node => by rw [harrays, List.append_nil]) hretains s).nowhere⟩

theorem updateMetadata {f : Metadata → Metadata}
    (hattachments : ∀ metadata, (f metadata).attachments.Perm metadata.attachments)
    (htidy : ∀ metadata : Metadata, metadata.Tidy → (f metadata).Tidy) :
    Steady (updateMetadata f) :=
  modify (fun _ s => .of_metadata rfl rfl (hattachments s.metadata) (htidy s.metadata))
    fun _ _ => .of_nodes rfl

end Steady

theorem steady_registerHooks (path : String) (hooks : List (HookKind × Hook)) :
    Steady (registerHooks path hooks) := by
  refine Steady.lasting.registerHooks (fun kind hook => ?_) hooks
  cases kind <;>
    exact .modify (fun _ _ => .of_metadata rfl rfl (List.Perm.refl _) id) fun _ _ => .of_nodes rfl

theorem steady_registerReference (store path referenced : String) :
    Steady (registerReference store path referenced) :=
  Steady.lasting.registerReference
    (.updateMetadata (fun _ => List.Perm.refl _) fun _ htidy => htidy.of_tables rfl)

theorem steady_promote (store : String) (aggregate : ExternalAggregate) :
    Steady (promote store aggregate) :=
  Steady.lasting.promote
    (fun _ => .modify (fun _ _ => .of_metadata rfl rfl (List.Perm.refl _) id)
      fun _ _ => .of_nodes rfl)
    (.updateMetadata (fun metadata => metadata.attachments_promote aggregate)
      fun _ htidy => htidy.promote aggregate)

theorem steady_registerLinks (store target : String) (links : List Link) :
    Steady (registerLinks store target links) := by
  refine Steady.lasting.registerLinks (fun aggregate _ => steady_promote store aggregate)
    (fun aggregate _ => .updateMetadata (fun metadata => ?_) fun _ htidy =>
      htidy.declareLocal aggregate) links
  rw [Metadata.attachments_declareLocal]

theorem steady_registerColumn (store : String) (position : Position) (name column : String)
    (primary : Bool) : Steady (registerColumn store position name column primary) := by
  unfold registerColumn
  refine .bind (.updateMetadata (fun metadata => List.Perm.refl _) fun metadata htidy =>
    htidy.of_tables rfl)
    fun _ => ?_
  split
  · refine .bind (.modify (fun _ s => .of_metadata rfl rfl ?_ fun htidy => ?_)
      fun _ s => .of_nodes rfl) fun _ => .updateNode _ _ (fun node => rfl) (fun node => rfl)
        fun node => ⟨fun _ => by simp, id⟩
    · show (Metadata.attachments (if _ then _ else _)).Perm _
      split <;> exact List.Perm.refl _
    · show Metadata.Tidy (if _ then _ else _)
      split
      · exact htidy.of_tables rfl
      · exact htidy
  · exact .pure _

theorem steady_attachedStore (store path : String) (links : List Link) :
    ∀ attached, Steady (attachedStore store path attached links) :=
  Steady.lasting.attachedStore links

/-! ## A scalar attribute -/

/-- What is declared for a scalar attribute. -/
def scalarDecl (name : String) {ν : Type} (tuple : Tuple ν) : AttributeDecl :=
  { name, scalarType := tuple.scalarType, rules := tuple.rules,
    column := tuple.column.map (·.1),
    derived := tuple.computed.isSome || !tuple.links.isEmpty }

/-- The visit of a scalar attribute as a sequence of steps. -/
theorem visitScalar_eq (store : String) (position : Position) (name : String)
    (tuple : Tuple LevelWalk) :
    visitScalar store position name tuple = (do
      forSome (scalarDecl name tuple).conversion? fun conversion =>
        updateNode store position.node fun node =>
          { node with conversions := Fields.set node.conversions name conversion }
      forSome tuple.column fun column => registerColumn store position name column.1 column.2
      forSome tuple.computed fun handler =>
        updateMetadata fun metadata =>
          { metadata with
            computeds := metadata.computeds ++ [⟨position.attributePath name, handler⟩] }
      registerLinks store (position.attributePath name) tuple.links
      forSome tuple.reference fun referenced =>
        registerReference store (position.attributePath name) referenced
      registerHooks (position.attributePath name) tuple.hooks
      declare store position.node (scalarDecl name tuple)
      return ⟨scalarDecl name tuple, .scalar, tuple.fallback.getD .null⟩) := by
  obtain ⟨rules, scalarType, nesting, nested, column, fallback, hooks, links, computed,
    reference⟩ := tuple
  dsimp only [visitScalar, scalarDecl, AttributeDecl.conversion?]
  generalize List.findSome? _ rules = conversion
  cases conversion <;> rcases column with _ | ⟨column, primary⟩ <;> cases computed <;>
    cases reference <;> rfl

/-- A declaration adds its attribute. -/
theorem adds_declare (store name : String) (decl : AttributeDecl) (result : α) :
    Adds name [decl] (do declare store name decl; return result) := by
  intro s a s' h
  obtain ⟨_, s₁, hdeclare, hreturn⟩ := bind_eq_ok.mp h
  obtain ⟨-, rfl⟩ := updateNode_eq_ok hdeclare
  obtain ⟨-, rfl⟩ := pure_eq_ok.mp hreturn
  refine ⟨⟨⟨fun other => ?_, rfl⟩, List.Perm.refl _, id⟩,
    Notes.update (·.extend [decl]) [] (fun node => (List.append_nil node.childArrays).symm)
      (fun node => ⟨id, id⟩) s⟩
  rw [Fields.get?_update]
  by_cases heq : other = name
  · simp only [heq, if_true, Option.map_map]
    rfl
  · simp only [heq, if_false]

/-- Notes the conversion of a scalar attribute at its level. -/
def registerConversion (store : String) (position : Position) (name : String)
    (conversion : Conversion) : Walk Unit :=
  updateNode store position.node fun node =>
    { node with conversions := Fields.set node.conversions name conversion }

theorem steady_registerConversion (store : String) (position : Position) (name : String)
    (conversion : Conversion) : Steady (registerConversion store position name conversion) :=
  .updateNode _ _ (fun _ => rfl) (fun _ => rfl) fun _ => ⟨id, fun _ => Fields.set_ne_nil _ _ _⟩

/-- What is done for a scalar attribute once its conversion has been noted. -/
def registerScalar (store : String) (position : Position) (name : String)
    (tuple : Tuple LevelWalk) : Walk Visited := do
  forSome tuple.column fun column => registerColumn store position name column.1 column.2
  forSome tuple.computed fun handler =>
    updateMetadata fun metadata =>
      { metadata with
        computeds := metadata.computeds ++ [⟨position.attributePath name, handler⟩] }
  registerLinks store (position.attributePath name) tuple.links
  forSome tuple.reference fun referenced =>
    registerReference store (position.attributePath name) referenced
  registerHooks (position.attributePath name) tuple.hooks
  declare store position.node (scalarDecl name tuple)
  return ⟨scalarDecl name tuple, .scalar, tuple.fallback.getD .null⟩

/-- All that a scalar attribute adds is its declaration. -/
theorem adds_registerScalar (store : String) (position : Position) (name : String)
    (tuple : Tuple LevelWalk) :
    Adds position.node [scalarDecl name tuple] (registerScalar store position name tuple) := by
  refine .after (.forSome fun column => steady_registerColumn _ _ _ _ _) fun _ => ?_
  refine .after (.forSome fun handler => .updateMetadata (fun metadata => List.Perm.refl _)
    fun metadata htidy => htidy.of_tables rfl) fun _ => ?_
  refine .after (steady_registerLinks _ _ _) fun _ => ?_
  refine .after (.forSome fun referenced => steady_registerReference _ _ _) fun _ => ?_
  refine .after (steady_registerHooks _ _) fun _ => ?_
  exact adds_declare _ _ _ _

/-- Visiting a scalar attribute declares it and nothing else. -/
theorem adds_visitScalar (store : String) (position : Position) (name : String)
    (tuple : Tuple LevelWalk) :
    Adds position.node [scalarDecl name tuple] (visitScalar store position name tuple) := by
  rw [visitScalar_eq]
  exact .after (.forSome (steady_registerConversion store position name))
    fun _ => adds_registerScalar store position name tuple

/-- The level of a scalar attribute that is converted has a conversion. -/
theorem converting_visitScalar {store name : String} {position : Position}
    {tuple : Tuple LevelWalk} {visited : Visited}
    (hconversion : (scalarDecl name tuple).conversion? ≠ none)
    (hrun : visitScalar store position name tuple s = .ok visited s') :
    ∃ node, get? s'.nodes position.node = some node ∧ node.conversions ≠ [] := by
  obtain ⟨conversion, hsome⟩ := Option.ne_none_iff_exists'.mp hconversion
  rw [visitScalar_eq, hsome] at hrun
  obtain ⟨_, s₁, hnoted, hrest⟩ := bind_eq_ok.mp hrun
  obtain ⟨⟨node, hget⟩, rfl⟩ := updateNode_eq_ok hnoted
  obtain ⟨-, hnotes⟩ := adds_registerScalar store position name tuple _ _ _ hrest
  have hget' : get? (Fields.update (fun node : Node =>
      { node with conversions := Fields.set node.conversions name conversion }) s.nodes
        position.node) position.node =
      some { node with conversions := Fields.set node.conversions name conversion } := by
    rw [Fields.get?_update, if_pos rfl, hget]
    rfl
  obtain ⟨node', hlast, hretains⟩ := hnotes.retained hget'
  exact ⟨node', hlast, hretains.converting (Fields.set_ne_nil _ _ _)⟩

/-! ## A nested attribute -/

/-- Visits what stands below a nested attribute. -/
def visitBelow (store : String) (position : Position) (name : String) (kind : NodeKind)
    (attached : Option String) (nested : Option LevelWalk) : Walk Below :=
  match nested with
  | some walk => visitDeclaredLevel store position name kind attached walk
  | none => visitVirtualLevel store position name kind attached

/-- What is declared for a nested attribute. -/
def nestedDecl (name : String) {ν : Type} (tuple : Tuple ν) (child : String) : AttributeDecl :=
  { name, rules := tuple.rules, child := some child, derived := tuple.nested.isNone }

/-- The visit of a nested attribute as a sequence of steps. -/
theorem visitNested_eq (store : String) (position : Position) (name : String)
    {tuple : Tuple LevelWalk} {kind : NodeKind} (hkind : tuple.nesting = some kind) :
    visitNested store position name tuple = (do
      require tuple.column.isNone store (position.attributePath name)
        "column annotation on a nested attribute"
      let attached ← attachedStore store (position.attributePath name) none tuple.links
      require tuple.computed.isNone store (position.attributePath name)
        "computed handler on a nested attribute"
      registerHooks (position.attributePath name) tuple.hooks
      let below ← visitBelow store position name kind attached tuple.nested
      forSome attached fun source =>
        updateMetadata (·.addJoin
          ⟨source, position.attributePath name, if kind = .array then .many else .one⟩)
      forSome tuple.reference fun referenced =>
        registerReference store (position.attributePath name) referenced
      declare store position.node (nestedDecl name tuple below.child)
      return ⟨nestedDecl name tuple below.child, below.shape, below.value⟩) := by
  obtain ⟨rules, scalarType, nesting, nested, column, fallback, hooks, links, computed,
    reference⟩ := tuple
  obtain rfl : nesting = some kind := hkind
  refine congrArg (bind _) (funext fun _ => congrArg (bind _) (funext fun attached => ?_))
  refine congrArg (bind _) (funext fun _ => congrArg (bind _) (funext fun _ => ?_))
  cases nested <;> refine congrArg (bind _) (funext fun below => ?_) <;> cases attached <;>
    cases reference <;> rfl

end Walk

end NestedRecord
