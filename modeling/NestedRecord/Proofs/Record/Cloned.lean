import Mathlib.Data.List.Induction
import NestedRecord.Proofs.Graph.Portrait
import NestedRecord.Proofs.Json.Alike
import NestedRecord.Proofs.Store.Compiled

/-!
# Clones of the default record

A clone keeps what its store declares, but not always as it is: a list or an object under a scalar
attribute becomes a text, and milliseconds of a date become a timestamp. The default record is
cloned to itself exactly if no default that a descriptor declares is normalised in this way.

* `Descriptor.Normalised` says that a default is.
* `get?_members_ofVisited` and `Cloner.get?_members`: what the default record and its clone have
  under a key.
* `Drawn.fixes_iff`: a level is cloned to itself exactly if nothing below it is normalised.
* `Cloner.attributes_of_drawn`: the cloner keeps what the descriptor draws.
* `Store.exists_drawn`: a compiled store draws its descriptor, in its graph and in its cloner.
* `Store.same_clone_defaultRecord_iff` is the result.

Both the default record and its clone are built member by member over the attributes of a level, and
a name that is repeated is overwritten, so under each key both have what the last attribute of that
name makes. So a level is compared attribute by attribute, over its last ones, and a descriptor by
induction on its levels.
-/

namespace NestedRecord

open Fields (get? has keys)
open Walk (levelValue attachmentValue)

/-- Cloning changes a value of a scalar attribute. -/
def Cloner.Normalises (type : Option ScalarType) : Json → Prop
  | .object _ => True
  | .array _ => True
  | .number n => type = some .date ∧ (n.int64?.bind Timestamp.ofMillis?).isSome = true
  | _ => False

/-- Some default value of a descriptor is changed when it is cloned. Of attributes of one name the
last counts. -/
inductive Descriptor.Normalised : Descriptor → Prop
  | here {attributes : List (String × Attribute Descriptor)} {name : String}
      {directives : List (Directive Descriptor)} {tuple : Tuple Descriptor}
      (last : attributes.reverse.find? (·.1 = name) = some (name, .tuple directives))
      (read : Tuple.ofDirectives directives = .ok tuple) (plain : tuple.isNested = false)
      (normalises : Cloner.Normalises tuple.scalarType (tuple.fallback.getD .null)) :
      Normalised (.mk attributes)
  | inside {attributes : List (String × Attribute Descriptor)} {name : String}
      {directives : List (Directive Descriptor)} {tuple : Tuple Descriptor} {inner : Descriptor}
      (last : attributes.reverse.find? (·.1 = name) = some (name, .tuple directives))
      (read : Tuple.ofDirectives directives = .ok tuple) (nested : tuple.nested = some inner)
      (below : Normalised inner) : Normalised (.mk attributes)

/-! ## Equality -/

/-- A scalar is equal to itself. An object need not be: it could repeat a key. -/
theorem Json.same_self_of_scalar {value : Json} (h : ∀ members, value ≠ .object members)
    (h' : ∀ items, value ≠ .array items) : value.same value = true := by
  cases value with
  | object members => exact absurd rfl (h members)
  | array items => exact absurd rfl (h' items)
  | number n => cases n <;> simp [Json.same, Number.same, Finite.same]
  | _ => simp [Json.same]

/-- A scalar is cloned to itself if it is not normalised. -/
theorem Cloner.same_scalar_iff (type : Option ScalarType) (value : Json) :
    (Cloner.scalar type value).same value = true ↔ ¬ Cloner.Normalises type value := by
  cases value with
  | object members => simp [Cloner.scalar, Cloner.Normalises, Json.same]
  | array items => simp [Cloner.scalar, Cloner.Normalises, Json.same]
  | number n =>
    have hself : (Json.number n).same (.number n) = true :=
      Json.same_self_of_scalar (by simp) (by simp)
    -- a number is changed if it is a date whose milliseconds can be written
    by_cases hdate : type = some .date
    · cases hmillis : n.int64?.bind Timestamp.ofMillis? with
      | none => simp [Cloner.scalar, Cloner.Normalises, hdate, hmillis, hself]
      | some text => simp [Cloner.scalar, Cloner.Normalises, hdate, hmillis, Json.same]
    · simp [Cloner.scalar, Cloner.Normalises, hdate, hself]
  | _ => simp [Cloner.scalar, Cloner.Normalises, Json.same]

/-! ## Members -/

/-- To the first of a list that passes a test belongs the first of a related list. -/
theorem exists_find?_of_forall₂ {α β : Type} {r : α → β → Prop} {p : α → Bool} {q : β → Bool}
    (hpq : ∀ a b, r a b → p a = q b) {as : List α} {bs : List β} (h : List.Forall₂ r as bs) {a : α}
    (ha : as.find? p = some a) : ∃ b, bs.find? q = some b ∧ r a b := by
  induction h with
  | nil => cases ha
  | @cons first other _ _ hfirst _ ih =>
    rw [List.find?_cons, hpq first other hfirst] at ha
    rw [List.find?_cons]
    cases hother : q other with
    | true =>
      rw [hother] at ha
      cases ha
      exact ⟨other, rfl, hfirst⟩
    | false =>
      rw [hother] at ha
      exact ih ha

theorem exists_last_of_forall₂ {α β : Type} {r : α → β → Prop} {p : α → Bool} {q : β → Bool}
    (hpq : ∀ a b, r a b → p a = q b) {as : List α} {bs : List β} (h : List.Forall₂ r as bs) {a : α}
    (ha : as.reverse.find? p = some a) : ∃ b, bs.reverse.find? q = some b ∧ r a b :=
  exists_find?_of_forall₂ hpq (List.forall₂_reverse_iff.mpr h) ha

/-- What the default record has under a key is the default of the last attribute of the name. -/
theorem get?_members_ofVisited (visited : List Visited) (key : String) :
    get? (Level.ofVisited visited).members key =
      (visited.reverse.find? (·.decl.name = key)).map (·.value) := by
  induction visited using List.reverseRecOn with
  | nil => rfl
  | append_singleton front last ih =>
    rw [Level.ofVisited_append, Level.add, List.reverse_append, List.reverse_singleton,
      List.singleton_append, List.find?_cons]
    by_cases hname : last.decl.name = key
    · simp [hname]
    · rw [Fields.get?_set_of_ne _ _ (Ne.symm hname), ih]
      simp [hname]

/-- The default record repeats no key. -/
theorem nodup_keys_ofVisited (visited : List Visited) :
    (keys (Level.ofVisited visited).members).Nodup := by
  induction visited using List.reverseRecOn with
  | nil => exact List.nodup_nil
  | append_singleton front last ih =>
    rw [Level.ofVisited_append]
    exact Fields.nodup_keys_set ih _ _

namespace Cloner

variable {identityKey key : String}

/-- What a clone has under a key is made by the last attribute of the name. -/
theorem get?_members (attributes : List (AttributeDecl × Shape))
    (source clone : List (String × Json)) :
    get? (members identityKey attributes source clone) key =
      ((attributes.reverse.find? (·.1.name = key)).bind fun attr =>
        (get? source key).map (content identityKey attr.1.scalarType attr.2)).or
          (get? clone key) := by
  induction attributes generalizing clone with
  | nil => simp [members]
  | cons attr rest ih =>
    obtain ⟨decl, shape⟩ := attr
    rw [members, ih, List.reverse_cons, List.find?_append]
    by_cases hname : decl.name = key
    · subst hname
      cases get? source decl.name <;> cases rest.reverse.find? (·.1.name = decl.name) <;> simp
    · have hkept (value : Json) : get? (Fields.set clone decl.name value) key = get? clone key :=
        Fields.get?_set_of_ne _ _ (Ne.symm hname)
      cases get? source decl.name <;> simp [hname, hkept]

/-- Adding members repeats no key. -/
theorem nodup_keys_members (attributes : List (AttributeDecl × Shape))
    (source : List (String × Json)) {clone : List (String × Json)} (h : (keys clone).Nodup) :
    (keys (members identityKey attributes source clone)).Nodup := by
  induction attributes generalizing clone with
  | nil => exact h
  | cons attr rest ih =>
    obtain ⟨decl, shape⟩ := attr
    rw [members]
    refine ih ?_
    split
    · exact Fields.nodup_keys_set h _ _
    · exact h

/-- The identity is no member of its own. -/
theorem get?_identity_of_none {source : List (String × Json)} (h : get? source key = none) :
    get? (identity identityKey source) key = none := by
  unfold identity
  cases hvalue : get? source identityKey with
  | none => rfl
  | some value =>
    have hne : identityKey ≠ key := by
      rintro rfl
      rw [h] at hvalue
      cases hvalue
    simp [get?, hne]

theorem nodup_keys_identity (source : List (String × Json)) :
    (keys (identity identityKey source)).Nodup := by
  unfold identity
  split <;> simp [keys]

/-- What the clone of a default object has under a key is made of the default value there. -/
theorem get?_members_default (visited : List Visited) :
    get? (members identityKey (Level.ofVisited visited).attributes (Level.ofVisited visited).members
        (identity identityKey (Level.ofVisited visited).members)) key =
      (visited.reverse.find? (·.decl.name = key)).map fun last =>
        content identityKey last.decl.scalarType last.shape last.value := by
  have hsource := get?_members_ofVisited visited key
  rw [get?_members, Level.attributes_ofVisited, ← List.map_reverse, List.find?_map, hsource]
  cases hlast : visited.reverse.find? (·.decl.name = key) with
  | none =>
    rw [hlast] at hsource
    have hnone : visited.reverse.find? ((fun attr : AttributeDecl × Shape =>
        decide (attr.1.name = key)) ∘ fun attr => (attr.decl, attr.shape)) = none := hlast
    rw [hnone, get?_identity_of_none hsource]
    rfl
  | some last =>
    have hsome : visited.reverse.find? ((fun attr : AttributeDecl × Shape =>
        decide (attr.1.name = key)) ∘ fun attr => (attr.decl, attr.shape)) = some last := hlast
    rw [hsome]
    rfl

end Cloner

/-- The default object of a level is cloned to itself. -/
def Cloner.Fixes (identityKey : String) (level : Level) : Prop :=
  (Json.object (members identityKey level.attributes level.members
    (identity identityKey level.members))).same (.object level.members) = true

/-- A default object is cloned to itself exactly if the last default value of every name is. -/
theorem Cloner.fixes_iff (identityKey : String) (visited : List Visited) :
    Fixes identityKey (.ofVisited visited) ↔
      ∀ key last, visited.reverse.find? (·.decl.name = key) = some last →
        (content identityKey last.decl.scalarType last.shape last.value).same last.value = true := by
  rw [Fixes, Json.same_object_iff (nodup_keys_members _ _ (nodup_keys_identity _))
    (nodup_keys_ofVisited visited)]
  · simp only [get?_members_default, get?_members_ofVisited]
    constructor
    · intro h key last hlast
      exact h key _ _ (by rw [hlast]; rfl) (by rw [hlast]; rfl)
    · intro h key x y hx hy
      -- a key of both is the name of a last attribute
      obtain ⟨last, hlast, rfl⟩ := Option.map_eq_some_iff.mp hx
      rw [hlast] at hy
      cases hy
      exact h key last hlast
  · intro key
    rw [has, has, get?_members_default, get?_members_ofVisited, Option.isSome_map, Option.isSome_map]

/-- What a nested level holds by default is cloned to itself if its default object is. -/
theorem Cloner.same_levelValue_iff (identityKey : String) (type : Option ScalarType)
    (kind : NodeKind) (level : Level) :
    (content identityKey type (.level kind level.attributes) (levelValue kind level.members)).same
      (levelValue kind level.members) = true ↔ Fixes identityKey level := by
  cases kind with
  | object => rw [levelValue, content, Fixes]
  | array => simp [levelValue, content, Fixes, Json.same, Json.sameItems]

/-- A level of a joined store is empty by default. -/
theorem same_attachmentValue (kind : NodeKind) :
    (attachmentValue kind).same (attachmentValue kind) = true := by
  cases kind <;> rfl

/-- An attribute and its drawing have the same name. -/
theorem AttributeDrawn.decide_name_eq {s : Flattening}
    {below : Descriptor → String → Level → Prop} (key : String)
    (entry : String × Attribute Descriptor) (visited : Visited)
    (h : AttributeDrawn s below entry visited) :
    decide (entry.1 = key) = decide (visited.decl.name = key) := by
  rw [h.name_eq]

/-- The default object of a drawn level is cloned to itself exactly if no default of the descriptor
is normalised. -/
theorem Drawn.fixes_iff {s : Flattening} (identityKey : String) :
    ∀ (descriptor : Descriptor) {name : String} {level : Level}, Drawn s descriptor name level →
      (Cloner.Fixes identityKey level ↔ ¬ descriptor.Normalised) := by
  refine Descriptor.levels_induction fun attributes ih name level hdrawn => ?_
  cases hdrawn with
  | @mk _ _ node visited entered declared drawn =>
    rw [Cloner.fixes_iff]
    -- the value of a name is that of the last attribute under it, on both sides
    constructor
    · intro hsame hnormalised
      cases hnormalised with
      | @here _ name _ tuple last read plain normalises =>
        obtain ⟨attr, hfind, hattr⟩ := exists_last_of_forall₂
          (AttributeDrawn.decide_name_eq name) drawn last
        have hself := hsame name attr hfind
        rw [hattr.eq_of_plain read plain, Cloner.content] at hself
        exact (Cloner.same_scalar_iff _ _).mp hself normalises
      | @inside _ name _ tuple inner last read nested below =>
        obtain ⟨attr, hfind, hattr⟩ := exists_last_of_forall₂
          (AttributeDrawn.decide_name_eq name) drawn last
        have hself := hsame name attr hfind
        obtain ⟨child, node, level, -, -, hdrawn, rfl⟩ := hattr.exists_level read nested
        rw [Cloner.same_levelValue_iff] at hself
        have hentry := List.mem_reverse.mp (List.mem_of_find?_eq_some last)
        exact (ih _ hentry _ rfl inner (Tuple.mem_of_nested read nested) hdrawn).mp hself below
    · intro hnot key attr hattr
      obtain ⟨⟨name, directives⟩, hfind, hdrawn⟩ := exists_last_of_forall₂
        (fun attr entry h => (AttributeDrawn.decide_name_eq key entry attr h).symm) drawn.flip hattr
      obtain rfl : name = key := by simpa using List.find?_some hfind
      cases hdrawn with
      | scalar read plain =>
        rw [Cloner.content, Cloner.same_scalar_iff]
        exact fun normalises => hnot (.here hfind read plain normalises)
      | level read nesting nested entered kept drawn =>
        rw [Cloner.same_levelValue_iff]
        have hentry := List.mem_reverse.mp (List.mem_of_find?_eq_some hfind)
        exact (ih _ hentry _ rfl _ (Tuple.mem_of_nested read nested) drawn).mpr
          fun below => hnot (.inside hfind read nested below)
      | attachment =>
        rw [Cloner.content]
        exact same_attachmentValue _

/-! ## The cloner -/

/-- A list that is related by a function is mapped by it. -/
theorem eq_map_of_forall₂ {α β : Type} {r : α → β → Prop} {f : α → β} {as : List α} {bs : List β}
    (h : List.Forall₂ r as bs) (hf : ∀ a ∈ as, ∀ b, r a b → b = f a) : bs = as.map f := by
  induction h with
  | nil => rfl
  | cons hfirst _ ih =>
    rw [List.forall_mem_cons] at hf
    rw [List.map_cons, hf.1 _ hfirst, ih hf.2]

section Reading

variable {blueprint : Blueprint} {s : Flattening}

/-- The shape of an attribute is the one drawn, if the shapes below it are. -/
theorem Cloner.shape_of_drawn (h : blueprint.flattened.EndsIn s)
    {entry : String × Attribute Descriptor} {visited : Visited} {shape : Shape}
    {below : String → Except Fault (List (AttributeDecl × Shape))}
    (hdrawn : AttributeDrawn s (Drawn s) entry visited)
    (hbelow : ∀ directives, entry.2 = .tuple directives → ∀ inner, .nested inner ∈ directives →
      ∀ child level attributes, Drawn s inner child level → below child = .ok attributes →
        attributes = level.attributes)
    (hshape : shapeOf blueprint below visited.decl = .ok shape) : shape = visited.shape := by
  cases hdrawn with
  | scalar =>
    cases hshape
    rfl
  | @level _ child _ _ _ inner node _ read nesting nested entered kept drawn =>
    -- a name is that of a declared level or of one of another store, never of both
    have hdeclared : has blueprint.flattened.virtualNodes child = false := by
      rw [h.virtualNodes, has]
      cases hvirtual : get? s.virtualNodes child with
      | none => rfl
      | some other =>
        rw [h.get?_nodes_of_foreign hvirtual] at entered
        cases entered
    rw [shapeOf] at hshape
    simp only [Walk.nestedDecl, hdeclared, Bool.false_eq_true, if_false, h.nodes, entered] at hshape
    obtain ⟨attributes, hattributes, hshape⟩ := Except.bind_eq_ok.mp hshape
    cases hshape
    rw [kept, hbelow _ rfl inner (Tuple.mem_of_nested read nested) _ _ _ drawn hattributes]
  | @attachment _ child _ _ _ node read nesting nested entered =>
    have hforeign : has blueprint.flattened.virtualNodes child = true := by
      rw [h.virtualNodes]
      exact Fields.has_iff.mpr ⟨node, entered⟩
    rw [shapeOf] at hshape
    simp only [Walk.nestedDecl, hforeign, if_true] at hshape
    cases hshape
    rfl

/-- The cloner reads the shapes of a drawing off the graph. -/
theorem Cloner.attributes_of_drawn (h : blueprint.flattened.EndsIn s) :
    ∀ (descriptor : Descriptor) {height : Nat} {name : String} {level : Level}
      {attributes : List (AttributeDecl × Shape)}, Drawn s descriptor name level →
      attributesOf blueprint height name = .ok attributes → attributes = level.attributes := by
  refine Descriptor.levels_induction fun declared ih height name level attributes hdrawn hok => ?_
  cases height with
  | zero => cases hok
  | succ height =>
    cases hdrawn with
    | @mk _ _ node visited entered hattributes drawn =>
      rw [attributesOf, h.nodes, entered] at hok
      simp only [hattributes] at hok
      rw [Level.attributes_ofVisited]
      -- the attributes correspond one by one, and the shapes below by induction
      refine eq_map_of_forall₂ (List.forall₂_map_left_iff.mp (Except.forall₂_of_mapM hok))
        fun attr hattr pair hpair => ?_
      obtain ⟨shape, hshape, hpair⟩ := Except.bind_eq_ok.mp hpair
      cases hpair
      obtain ⟨entry, hentry, hdrawn⟩ := exists_of_forall₂_right drawn hattr
      rw [shape_of_drawn h hdrawn (fun directives htuple inner hinner _ _ _ =>
        ih entry hentry directives htuple inner hinner) hshape]

end Reading

/-! ## The result -/

namespace Store

/-- A compiled store draws its descriptor, and its cloner keeps what is drawn. -/
theorem exists_drawn {config : Config} {name : String} {descriptor : Descriptor} {store : Store}
    (h : (compile config name descriptor).1 = .ok store) :
    ∃ s level, store.flattened.EndsIn s ∧ Drawn s descriptor store.flattened.root level ∧
      store.flattened.attributes = level.attributes ∧
        store.defaultRecord = .object level.members ∧
          store.cloner = { identityKey := config.identityKey, attributes := level.attributes } := by
  obtain ⟨hflatten, hconfig, hstore⟩ := flatten_of_compile h
  obtain ⟨-, -, -, -, hcloner⟩ := parts_of_ofBlueprint hstore
  obtain ⟨attributes, hattributes, hcloner⟩ := Except.bind_eq_ok.mp hcloner
  obtain ⟨s, level, hends, hdrawn, hshown, hdefault⟩ := Flattened.exists_drawn hflatten
  refine ⟨s, level, hends, hdrawn, hshown, hdefault, ?_⟩
  rw [← Except.ok.inj hcloner, hconfig, Cloner.attributes_of_drawn hends descriptor hdrawn hattributes]

/-- Cloning the default record of a store changes nothing exactly if the descriptor has no default
that clones normalise. -/
theorem same_clone_defaultRecord_iff {config : Config} {name : String} {descriptor : Descriptor}
    {store : Store} (h : (compile config name descriptor).1 = .ok store) :
    (store.clone store.defaultRecord).same store.defaultRecord = true ↔ ¬ descriptor.Normalised := by
  obtain ⟨s, level, -, hdrawn, -, hdefault, hcloner⟩ := exists_drawn h
  rw [hdefault, clone, hcloner, ← Drawn.fixes_iff config.identityKey descriptor hdrawn, Cloner.Fixes]
  simp only [Cloner.clone, Cloner.record, Cloner.content]

/-- The menu of a day. -/
def menuOfDay (day : Directive Descriptor) : Descriptor :=
  .mk [("id", .tuple [.word "int", .word "<<id>>"]),
    ("day", .tuple [.word "date", day]),
    ("place", .tuple [.word "object", .nested (.mk [("city", .tuple [.word "string"])])]),
    ("dishes", .tuple [.word "array", .nested (.mk
      [("dish", .tuple [.word "int", .word "<<dish>>", .literal (.ofInt 1)]),
        ("price", .tuple [.word "number"])])]),
    ("orders", .tuple [.word "array", .word "@orders"])]

/-- A store of menus. -/
def menus : Store :=
  compiled "menus" (menuOfDay (.word "2024-02-29")) (by decide +kernel)

/-- A date that is given as a text is not normalised. -/
theorem same_clone_defaultRecord_iff_menus :
    (compile {} "menus" (menuOfDay (.word "2024-02-29"))).1 = .ok menus ∧
      (menus.clone menus.defaultRecord).same menus.defaultRecord = true ∧
        ¬ (menuOfDay (.word "2024-02-29")).Normalised := by
  have hcompile := compile_compiled "menus" (menuOfDay (.word "2024-02-29")) (by decide +kernel)
  have hsame : (menus.clone menus.defaultRecord).same menus.defaultRecord = true := by
    decide +kernel
  exact ⟨hcompile, hsame, (same_clone_defaultRecord_iff hcompile).mp hsame⟩

/-- The store of menus whose day is counted in milliseconds. -/
def datedMenus : Store := compiled "menus" (menuOfDay (.literal (.ofInt 0))) (by decide +kernel)

/-- A date that is given in milliseconds is cloned to its timestamp. -/
theorem not_same_clone_defaultRecord : ¬ ∀ store : Store, store.IsCompiled →
    (store.clone store.defaultRecord).same store.defaultRecord = true := by
  intro h
  have hsame := h datedMenus (isCompiled_compiled "menus" (menuOfDay (.literal (.ofInt 0))) _)
  revert hsame
  decide +kernel

end Store

end NestedRecord
