import NestedRecord.Proofs.Descriptor.Nesting
import NestedRecord.Proofs.Graph.Walk

/-!
# Levels that the walk looks for are there

The walk over a descriptor looks up levels by name, and every level that it looks up has been
entered before. So it fails only where an attribute breaks a rule.

There are two kinds of faults: an attribute that breaks a rule, and a level that should be there and
is not. The second kind would be a defect of the walk. It is excluded by carrying along the names of
the levels that a step relies on, which are the level of the attribute and the one that owns its
key; the walk below an attribute starts with the new level in addition.

* `Walk.Finds names step`: if the levels of `names` are there, the step loses no level and does not
  miss one.
* `finds_visitScalar` and `finds_visitNested` sum up the steps of the two kinds of attributes.
* `LevelWalk.Finding` is the property of the walk over a level, `finding_fold` gives it for a
  descriptor and `isBuild_of_flatten` for the descriptor of a store.
-/

namespace NestedRecord

open Fields (get? has)

/-- Whether the fault says that the parts of a store do not fit together. -/
def Fault.isBuild : Fault → Bool
  | .build .. => true
  | _ => false

namespace Walk

variable {α β : Type} {names : List String} {s s' : Flattening}

/-- A step that misses no level as long as those of the given names are there. -/
structure Finds (names : List String) (w : Walk α) : Prop where
  keeps : ∀ {s a s'}, w s = .ok a s' → ∀ {name}, has s.nodes name = true → has s'.nodes name = true
  finds : ∀ {s fault s'}, (∀ name ∈ names, has s.nodes name = true) → w s = .error fault s' →
    fault.isBuild = false

/-- A sequence fails where one of its parts does. -/
theorem bind_eq_error {w : Walk α} {f : α → Walk β} {fault : Fault}
    (h : (w >>= f) s = .error fault s') :
    w s = .error fault s' ∨ ∃ a s₁, w s = .ok a s₁ ∧ f a s₁ = .error fault s' := by
  replace h : EStateM.bind w f s = .error fault s' := h
  unfold EStateM.bind at h
  cases hw : w s with
  | ok a s₁ =>
    rw [hw] at h
    exact .inr ⟨a, s₁, rfl, h⟩
  | error fault' s₁ =>
    rw [hw] at h
    cases h
    exact .inl rfl

namespace Finds

/-! ## Single steps

Only two steps look up a level. They are found to be harmless under the assumption that its name is
among those at hand, and a level that is entered joins them. -/

theorem pure (a : α) : Finds names (pure a) where
  keeps h _ hname := (pure_eq_ok.mp h).2 ▸ hname
  finds _ h := by cases h

theorem bind {w : Walk α} {f : α → Walk β} (hw : Finds names w) (hf : ∀ a, Finds names (f a)) :
    Finds names (w >>= f) where
  keeps h _ hname := by
    obtain ⟨a, s₁, hfirst, hrest⟩ := bind_eq_ok.mp h
    exact (hf a).keeps hrest (hw.keeps hfirst hname)
  finds hnames h := by
    rcases bind_eq_error h with hfirst | ⟨a, s₁, hfirst, hrest⟩
    · exact hw.finds hnames hfirst
    · exact (hf a).finds (fun name hname => hw.keeps hfirst (hnames name hname)) hrest

theorem get : Finds names (MonadState.get : Walk Flattening) where
  keeps h _ hname := by
    cases h
    exact hname
  finds _ h := by cases h

theorem modify {f : Flattening → Flattening}
    (hf : ∀ s name, has s.nodes name = true → has (f s).nodes name = true) :
    Finds names (modify f) where
  keeps {s a s'} h _ hname := modify_eq_ok.mp h ▸ hf s _ hname
  finds _ h := by cases h

theorem updateMetadata (f : Metadata → Metadata) : Finds names (updateMetadata f) :=
  modify fun _ _ => id

theorem refuse (store path rule : String) : Finds names (refuse store path rule : Walk α) where
  keeps h := by cases h
  finds _ h := by
    cases h
    rfl

theorem lasting : Lasting (Finds names) := ⟨pure, bind, get, refuse⟩

theorem require (holds : Bool) (store path rule : String) :
    Finds names (require holds store path rule) := lasting.require holds store path rule

theorem forSome {value : Option α} {f : α → Walk Unit} (hf : ∀ a, Finds names (f a)) :
    Finds names (forSome value f) := lasting.forSome fun a _ => hf a

/-- The level of a name that is there. -/
theorem node (store : String) {name : String} (hname : name ∈ names) :
    Finds names (node store name) where
  keeps h _ hhas := (node_eq_ok h).1 ▸ hhas
  finds {s fault s'} hnames h := by
    obtain ⟨found, hfound⟩ := Fields.has_iff.mp (hnames name hname)
    rcases bind_eq_error h with hget | ⟨state, s₁, hget, hrest⟩
    · cases hget
    · cases hget
      rw [hfound] at hrest
      cases hrest

theorem updateNode (store : String) {name : String} (hname : name ∈ names) (f : Node → Node) :
    Finds names (updateNode store name f) := by
  refine bind (node store hname) fun _ => modify fun s other hhas => ?_
  show has (Fields.update f s.nodes name) other = true
  rwa [← Fields.mem_keys_iff_has, Fields.keys_update, Fields.mem_keys_iff_has]

/-- A level that is entered is there from now on. -/
theorem addNode {level : Node} {f : Walk β} (hf : Finds (level.uniqueName :: names) f) :
    Finds names (Walk.addNode level >>= fun _ => f) := by
  have hadd : ∀ {s s' : Flattening} {u : Unit}, Walk.addNode level s = .ok u s' → ∀ {name},
      name = level.uniqueName ∨ has s.nodes name = true → has s'.nodes name = true := by
    intro s s' u h name hname
    rw [← modify_eq_ok.mp h]
    exact (Fields.has_set _ _ _ _).mpr hname
  constructor
  · intro s b s' h name hname
    obtain ⟨_, s₁, hfirst, hrest⟩ := bind_eq_ok.mp h
    exact hf.keeps hrest (hadd hfirst (.inr hname))
  · intro s fault s' hnames h
    rcases bind_eq_error h with hfirst | ⟨_, s₁, hfirst, hrest⟩
    · cases hfirst
    · refine hf.finds (fun name hname => ?_) hrest
      rcases List.mem_cons.mp hname with rfl | hname
      · exact hadd hfirst (.inl rfl)
      · exact hadd hfirst (.inr (hnames name hname))

/-- A name is given without looking at any level. -/
theorem allocateName (base : String) : Finds names (allocateName base) where
  keeps {s a s'} h _ hname := by
    obtain ⟨state, s₁, hget, h₁⟩ := bind_eq_ok.mp h
    cases hget
    obtain ⟨_, s₂, hset, h₂⟩ := bind_eq_ok.mp h₁
    cases hset
    exact (pure_eq_ok.mp h₂).2 ▸ hname
  finds _ h := by cases h

end Finds

/-! ## Hooks, references and links -/

theorem finds_registerHooks (path : String) (hooks : List (HookKind × Hook)) :
    Finds names (registerHooks path hooks) := by
  refine Finds.lasting.registerHooks (fun kind hook => .modify fun s name hname => ?_) hooks
  cases kind <;> exact hname

theorem finds_registerReference (store path referenced : String) :
    Finds names (registerReference store path referenced) :=
  Finds.lasting.registerReference (.updateMetadata _)

theorem finds_registerLinks (store target : String) (links : List Link) :
    Finds names (registerLinks store target links) :=
  Finds.lasting.registerLinks
    (fun _ _ => Finds.lasting.promote (fun _ => .modify fun _ _ => id) (.updateMetadata _))
    (fun _ _ => .updateMetadata _) links

theorem finds_attachedStore (store path : String) (links : List Link) :
    ∀ attached, Finds names (attachedStore store path attached links) :=
  Finds.lasting.attachedStore links

/-! ## Attributes -/

variable {store name : String} {position : Position}

/-- The key of an attribute is noted at the level that owns it. -/
theorem finds_registerColumn (column : String) (primary : Bool)
    (howner : position.keyOwner ∈ names) :
    Finds names (registerColumn store position name column primary) := by
  unfold registerColumn
  refine .bind (.updateMetadata _) fun _ => ?_
  split
  · exact .bind (.modify fun _ _ => id) fun _ => .updateNode store howner _
  · exact .pure _

/-- A scalar attribute only needs its level and the level that owns its key. -/
theorem finds_visitScalar (tuple : Tuple LevelWalk) (hnode : position.node ∈ names)
    (howner : position.keyOwner ∈ names) :
    Finds names (visitScalar store position name tuple) := by
  rw [visitScalar_eq]
  refine .bind (.forSome fun _ => .updateNode store hnode _) fun _ => ?_
  refine .bind (.forSome fun column => finds_registerColumn _ _ howner) fun _ => ?_
  refine .bind (.forSome fun _ => .updateMetadata _) fun _ => ?_
  refine .bind (finds_registerLinks _ _ _) fun _ => ?_
  refine .bind (.forSome fun _ => finds_registerReference _ _ _) fun _ => ?_
  refine .bind (finds_registerHooks _ _) fun _ => ?_
  exact .bind (.updateNode store hnode _) fun _ => .pure _

end Walk

/-- A walk over a level that needs nothing but the level and the one that owns its keys. -/
def LevelWalk.Finding (walk : LevelWalk) : Prop :=
  ∀ {position : Position} {names : List String}, position.node ∈ names →
    position.keyOwner ∈ names → Walk.Finds names (walk position)

namespace Walk

variable {names : List String} {store name : String} {position : Position}

/-- The level of a nested attribute is there for the walk below it. -/
theorem finds_visitDeclaredLevel (kind : NodeKind) (attached : Option String) {walk : LevelWalk}
    (hwalk : walk.Finding) (hnode : position.node ∈ names) (howner : position.keyOwner ∈ names) :
    Finds names (visitDeclaredLevel store position name kind attached walk) := by
  refine .bind (.node store hnode) fun parent => .bind (.allocateName name) fun child => ?_
  refine .addNode ?_
  -- from here on the level below is there as well
  have hchild : child ∈ child :: names := List.mem_cons_self
  have hnode' : position.node ∈ child :: names := List.mem_cons_of_mem _ hnode
  have hlevel : Finds (child :: names) (walk (position.below child name kind)) := by
    cases kind with
    | array => exact hwalk hchild hchild
    | object => exact hwalk hchild (List.mem_cons_of_mem _ howner)
  refine .bind hlevel fun level => ?_
  cases kind with
  | object => exact .pure _
  | array =>
    exact .bind (.node store hchild) fun _ => .bind (.require _ _ _ _) fun _ =>
      .bind (.updateNode store hnode' _) fun _ => .pure _

/-- A virtual level is entered apart from the others, and nothing is looked up in it. -/
theorem finds_visitVirtualLevel (kind : NodeKind) (attached : Option String)
    (hnode : position.node ∈ names) :
    Finds names (visitVirtualLevel store position name kind attached) := by
  refine .bind (.require _ _ _ _) fun _ => .bind (.node store hnode) fun parent => ?_
  refine .bind (.allocateName name) fun child => .bind (.modify fun _ _ => id) fun _ => ?_
  cases kind <;> exact .pure _

theorem finds_visitNested {tuple : Tuple LevelWalk}
    (hwalk : ∀ walk, tuple.nested = some walk → walk.Finding) (hnode : position.node ∈ names)
    (howner : position.keyOwner ∈ names) :
    Finds names (visitNested store position name tuple) := by
  cases hkind : tuple.nesting with
  | none =>
    rw [visitNested, hkind]
    exact .refuse _ _ _
  | some kind =>
    rw [visitNested_eq store position name hkind]
    refine .bind (.require _ _ _ _) fun _ => .bind (finds_attachedStore _ _ _ _) fun attached => ?_
    refine .bind (.require _ _ _ _) fun _ => .bind (finds_registerHooks _ _) fun _ => ?_
    have hbelow : Finds names (visitBelow store position name kind attached tuple.nested) := by
      cases hnested : tuple.nested with
      | none => exact finds_visitVirtualLevel kind attached hnode
      | some walk => exact finds_visitDeclaredLevel kind attached (hwalk walk hnested) hnode howner
    refine .bind hbelow fun below => .bind (.forSome fun _ => .updateMetadata _) fun _ => ?_
    refine .bind (.forSome fun _ => finds_registerReference _ _ _) fun _ => ?_
    exact .bind (.updateNode store hnode _) fun _ => .pure _

/-- Every attribute is scalar or nested, or refused. -/
theorem finds_visitAttribute {attr : Attribute LevelWalk}
    (hwalk : ∀ directives, attr = .tuple directives → ∀ walk : LevelWalk,
      .nested walk ∈ directives → walk.Finding)
    (hnode : position.node ∈ names) (howner : position.keyOwner ∈ names) :
    Finds names (visitAttribute store position name attr) := by
  cases attr with
  | bare text => exact .refuse _ _ _
  | malformed kind => exact .refuse _ _ _
  | tuple directives =>
    unfold visitAttribute
    simp only
    cases htuple : Tuple.ofDirectives directives with
    | error rule => exact .refuse _ _ _
    | ok tuple =>
      simp only
      split
      · exact finds_visitNested (fun walk hnested =>
          hwalk directives rfl walk (Tuple.mem_of_nested htuple hnested)) hnode howner
      · exact finds_visitScalar tuple hnode howner

theorem finds_visitAttributes {attributes : List (String × Attribute LevelWalk)}
    (hwalk : ∀ entry ∈ attributes, ∀ directives, entry.2 = .tuple directives →
      ∀ walk : LevelWalk, .nested walk ∈ directives → walk.Finding)
    (hnode : position.node ∈ names) (howner : position.keyOwner ∈ names) :
    ∀ level, Finds names (visitAttributes store position level attributes) := by
  induction attributes with
  | nil => exact fun level => .pure level
  | cons first rest ih =>
    obtain ⟨name, attr⟩ := first
    exact fun level =>
      .bind (finds_visitAttribute (hwalk _ List.mem_cons_self) hnode howner) fun visited =>
        ih (fun entry hentry => hwalk entry (List.mem_cons_of_mem _ hentry)) _

end Walk

/-- The walk over a descriptor needs nothing but the level where it starts. -/
theorem Descriptor.finding_fold (store : String) (descriptor : Descriptor) :
    LevelWalk.Finding (descriptor.fold (Walk.visitLevel store)) := by
  refine fold_induction (p := LevelWalk.Finding) (fun attributes hwalk => ?_) descriptor
  exact fun hnode howner => Walk.finds_visitAttributes hwalk hnode howner _

/-- A descriptor is refused only because an attribute breaks a rule. -/
theorem isBuild_of_flatten {store rootName : String} {descriptor : Descriptor} {fault : Fault}
    (h : (flatten store rootName descriptor).1 = .error fault) : fault.isBuild = false := by
  have hvisit : Walk.Finds [] (Walk.visit store rootName descriptor) := by
    refine .bind (.allocateName rootName) fun root => .addNode ?_
    exact .bind (descriptor.finding_fold store List.mem_cons_self List.mem_cons_self) fun _ =>
      .pure _
  unfold flatten at h
  cases hrun : (Walk.visit store rootName descriptor).run (.start store) with
  | ok result s =>
    rw [hrun] at h
    cases h
  | error fault' s =>
    rw [hrun] at h
    obtain rfl : fault' = fault := Except.error.inj h
    exact hvisit.finds (by simp) hrun

end NestedRecord
