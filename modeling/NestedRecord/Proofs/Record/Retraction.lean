import NestedRecord.Proofs.Record.Cloned

/-!
# Clones are retractions

A clone shows what the descriptor of its store declares. To clone it once more changes nothing, and
what the descriptor does not declare has no part in it.

* `Descriptor.Assigns` and `Descriptor.Reaches` say what is declared: under a name, and at the
  places of a record. `Agree` compares two values there. The last attribute of a name counts here;
  `Descriptor.ReachesBy` has the places for any other reading of a name.
* `Cloner.part` is the clone of an object of a level. `eq_of_get?_cloned`: its members come in one
  order only, so it is known by their values.
* `Cloner.content_content`: every kind of content is settled once it has been cloned.
* `Drawn.locate?_part`: at a declared place of a clone stands the clone of what stands there.
* `Drawn.part_eq_of_agree`: values that agree on what is declared are cloned alike.
* `Store.clone_retracts` puts these together as `Retracts`. `Store.not_clone_attached`: attached
  records are not kept if a later attribute has their name.

Two things are shown by induction on descriptors. Along a declared place a clone is followed step by
step, which gives what stands there. For values that agree it is the other way round: their clones
are put together from the clones of their members, which are equal by induction, in the order of the
attributes. To clone twice needs no descriptor at all, only the shape of the level.
-/

namespace NestedRecord

open Fields (get? has keys)

/-! ## What is declared -/

/-- The number of elements of a list. -/
def Json.length? (value : Json) : Option Nat := value.items?.map List.length

theorem Json.items?_eq_some {value : Json} {items : List Json} :
    value.items? = some items ↔ value = .array items := by
  cases value <;> simp [items?]

theorem Json.isArray_of_none {value : Json} (h : value.items? = none) : value.isArray = false := by
  cases value <;> first | rfl | cases h

namespace Descriptor

/-- What a descriptor declares under a name, the last if attributes repeat it. -/
def Assigns (descriptor : Descriptor) (name : String) (tuple : Tuple Descriptor) : Prop :=
  ∃ directives, descriptor.attributes.reverse.find? (·.1 = name) = some (name, .tuple directives) ∧
    Tuple.ofDirectives directives = .ok tuple

/-- The places of a record at which objects are declared, each with its descriptor: the record
itself, nested objects, and the elements of nested lists. Attributes may repeat a name, so what
counts as declared under one is a parameter. -/
inductive ReachesBy (declares : Descriptor → String → Tuple Descriptor → Prop) :
    Descriptor → Location → Descriptor → Prop
  | here {descriptor : Descriptor} : ReachesBy declares descriptor [] descriptor
  | object {descriptor inner target : Descriptor} {name : String} {tuple : Tuple Descriptor}
      {place : Location} (declared : declares descriptor name tuple)
      (nesting : tuple.nesting = some .object) (nested : tuple.nested = some inner)
      (below : ReachesBy declares inner place target) :
      ReachesBy declares descriptor (.key name :: place) target
  | element {descriptor inner target : Descriptor} {name : String} {tuple : Tuple Descriptor}
      {place : Location} (index : Nat) (declared : declares descriptor name tuple)
      (nesting : tuple.nesting = some .array) (nested : tuple.nested = some inner)
      (below : ReachesBy declares inner place target) :
      ReachesBy declares descriptor (.key name :: .index index :: place) target

/-- The places at which objects are declared by the last attribute of every name. -/
abbrev Reaches (descriptor : Descriptor) (place : Location) (target : Descriptor) : Prop :=
  ReachesBy Assigns descriptor place target

/-- The places of a record, or of each record of a list, at which objects are declared. -/
inductive Describes (descriptor : Descriptor) : Json → Location → Descriptor → Prop
  | record {input : Json} {place : Location} {inner : Descriptor} (single : input.isArray = false)
      (reaches : descriptor.Reaches place inner) : Describes descriptor input place inner
  | listed {items : List Json} {place : Location} {inner : Descriptor} (index : Nat)
      (reaches : descriptor.Reaches place inner) :
      Describes descriptor (.array items) (.index index :: place) inner

end Descriptor

/-- Two values agree on what is declared at some places: there are objects at the same ones, with
the same identities and the same values of attributes; nested lists have the same length. -/
structure Agree (places : Location → Descriptor → Prop) (identityKey : String) (a b : Json) :
    Prop where
  objects : ∀ {place inner}, places place inner →
    (a.locate? place).map Json.isObject = (b.locate? place).map Json.isObject
  identities : ∀ {place inner}, places place inner →
    a.locate? (place ++ [.key identityKey]) = b.locate? (place ++ [.key identityKey])
  values : ∀ {place inner name tuple}, places place inner → inner.Assigns name tuple →
    tuple.nested = none → a.locate? (place ++ [.key name]) = b.locate? (place ++ [.key name])
  lists : ∀ {place inner name tuple}, places place inner → inner.Assigns name tuple →
    tuple.nested.isSome → tuple.nesting = some .array →
      (a.locate? (place ++ [.key name])).map Json.length? =
        (b.locate? (place ++ [.key name])).map Json.length?

/-- A function on records and lists of records keeps what is declared, and nothing else. -/
structure Retracts (descriptor : Descriptor) (identityKey : String) (clone : Json → Json) :
    Prop where
  /-- a clone is cloned to itself, with its members in their order -/
  again : ∀ input, clone (clone input) = clone input
  /-- where an object is declared, a clone has one exactly if its input has -/
  objects : ∀ {input place inner}, descriptor.Describes input place inner →
    ((clone input).locate? place).map Json.isObject = (input.locate? place).map Json.isObject
  /-- a declared object keeps its identity and the declared attributes that it has -/
  kept : ∀ {input place inner members}, descriptor.Describes input place inner →
    (clone input).locate? place = some (.object members) →
      ∃ source, input.locate? place = some (.object source) ∧
        ∀ key, has members key = true ↔
          has source key = true ∧ (key = identityKey ∨ ∃ tuple, inner.Assigns key tuple)
  /-- attached records that declare no shape stay as they are -/
  attached : ∀ {input place inner name tuple}, descriptor.Describes input place inner →
    inner.Assigns name tuple → tuple.nesting.isSome → tuple.nested = none →
      (clone input).locate? (place ++ [.key name]) = input.locate? (place ++ [.key name])
  /-- inputs that agree on what is declared have the same clone -/
  declared : ∀ {input other}, input.length? = other.length? →
    Agree (descriptor.Describes input) identityKey input other → clone input = clone other

theorem Json.locate?_append_child {front : Location} {step : Step} {a x u : Json}
    (hx : a.locate? front = some x) (hu : x.child? step = some u) :
    a.locate? (front ++ [step]) = some u := by
  rw [locate?_append, hx, Option.bind_some]
  exact locate?_step hu []

/-- What is the same of two options once it is mapped is so by another function that tells no more
apart. -/
theorem Option.map_eq_map_of_map {α β γ : Type} {f : α → β} {g : α → γ} {a b : Option α}
    (h : a.map f = b.map f) (hg : ∀ x y, a = some x → b = some y → f x = f y → g x = g y) :
    a.map g = b.map g := by
  cases a <;> cases b <;> simp_all

/-- Values that agree also agree in their parts. -/
theorem Agree.below {places places' : Location → Descriptor → Prop} {identityKey : String}
    {front : Location} {a b x y : Json} (h : Agree places identityKey a b)
    (hplaces : ∀ {place inner}, places' place inner → places (front ++ place) inner)
    (hx : a.locate? front = some x) (hy : b.locate? front = some y) :
    Agree places' identityKey x y := by
  have hfirst : ∀ back, x.locate? back = a.locate? (front ++ back) := fun back => by
    rw [Json.locate?_append, hx, Option.bind_some]
  have hsecond : ∀ back, y.locate? back = b.locate? (front ++ back) := fun back => by
    rw [Json.locate?_append, hy, Option.bind_some]
  constructor
  · intro place inner hplace
    rw [hfirst, hsecond]
    exact h.objects (hplaces hplace)
  · intro place inner hplace
    rw [hfirst, hsecond, ← List.append_assoc]
    exact h.identities (hplaces hplace)
  · intro place inner name tuple hplace hdeclared hnested
    rw [hfirst, hsecond, ← List.append_assoc]
    exact h.values (hplaces hplace) hdeclared hnested
  · intro place inner name tuple hplace hdeclared hnested hnesting
    rw [hfirst, hsecond, ← List.append_assoc]
    exact h.lists (hplaces hplace) hdeclared hnested hnesting

/-! ## Tables -/

section Tables

variable {α : Type} {fields fields' : Fields α}

theorem Fields.has_congr (h : keys fields = keys fields') (key : String) :
    has fields key = has fields' key := by
  rw [Bool.eq_iff_iff, ← Fields.mem_keys_iff_has, ← Fields.mem_keys_iff_has, h]

/-- A table is known by the order of its keys and their values. -/
theorem Fields.eq_of_get? (hkeys : keys fields = keys fields') (hnodup : (keys fields).Nodup)
    (h : ∀ key, get? fields key = get? fields' key) : fields = fields' := by
  induction fields generalizing fields' with
  | nil => exact (List.map_eq_nil_iff.mp hkeys.symm).symm
  | cons field rest ih =>
    obtain ⟨name, value⟩ := field
    cases fields' with
    | nil => cases hkeys
    | cons field' rest' =>
      obtain ⟨name', value'⟩ := field'
      rw [keys, List.map_cons, List.nodup_cons] at hnodup
      simp only [keys, List.map_cons, List.cons.injEq] at hkeys
      obtain ⟨rfl, hrest⟩ := hkeys
      obtain rfl : value = value' := by simpa [get?] using h name
      congr 1
      refine ih hrest hnodup.2 fun key => ?_
      by_cases hkey : name = key
      · subst hkey
        -- the first key is in neither rest, so both rests have nothing there
        have hnone : has rest name = false :=
          Bool.eq_false_iff.mpr fun hhas => hnodup.1 (Fields.mem_keys_iff_has.mpr hhas)
        have hnone' := (Fields.has_congr hrest name).symm.trans hnone
        rw [has, Option.isSome_eq_false_iff, Option.isNone_iff_eq_none] at hnone hnone'
        rw [hnone, hnone']
      · simpa [get?, hkey] using h key

end Tables

namespace Cloner

/-! ## The clone of an object -/

section Parts

variable {identityKey key : String} {attributes : List (AttributeDecl × Shape)}
  {source other : List (String × Json)}

variable (identityKey attributes) in
/-- The members of the clone of an object. -/
def cloned (source : List (String × Json)) : List (String × Json) :=
  members identityKey attributes source (identity identityKey source)

variable (identityKey attributes) in
/-- The clone of an object of a level; null for anything else. -/
def part (value : Json) : Json :=
  match value with
  | .object source => .object (cloned identityKey attributes source)
  | _ => .null

theorem part_of_not {value : Json} (h : value.isObject = false) :
    part identityKey attributes value = .null := by
  cases value with
  | object => cases h
  | _ => rfl

theorem content_object (type : Option ScalarType) (value : Json) :
    content identityKey type (.level .object attributes) value =
      part identityKey attributes value := by
  cases value <;> rfl

theorem content_array (type : Option ScalarType) (items : List Json) :
    content identityKey type (.level .array attributes) (.array items) =
      .array (items.map (part identityKey attributes)) := by
  refine congrArg Json.array (List.map_congr_left fun item _ => ?_)
  cases item <;> rfl

theorem content_array_of_not (type : Option ScalarType) {value : Json} (h : value.items? = none) :
    content identityKey type (.level .array attributes) value = .null := by
  cases value with
  | array items => cases h
  | _ => rfl

theorem record_eq (cloner : Cloner) : cloner.record = part cloner.identityKey cloner.attributes :=
  funext fun _ => content_object none _

/-- What the clone of an object has under a declared name. -/
theorem get?_cloned_of_last {decl : AttributeDecl} {shape : Shape}
    (h : attributes.reverse.find? (·.1.name = key) = some (decl, shape)) :
    get? (cloned identityKey attributes source) key =
      (get? source key).map (content identityKey decl.scalarType shape) := by
  rw [cloned, get?_members, h]
  cases hvalue : get? source key with
  | none => exact get?_identity_of_none hvalue
  | some value => rfl

/-- What it has under any other name. -/
theorem get?_cloned_of_none (h : attributes.reverse.find? (·.1.name = key) = none) :
    get? (cloned identityKey attributes source) key =
      if key = identityKey then get? source key else none := by
  rw [cloned, get?_members, h, Option.bind_none, Option.none_or, identity]
  by_cases hkey : key = identityKey
  · subst hkey
    cases get? source key <;> simp [get?]
  · cases get? source identityKey <;> simp [get?, hkey, Ne.symm hkey]

/-- What stands behind a declared name is cloned as its content. -/
theorem child?_part {decl : AttributeDecl} {shape : Shape}
    (h : attributes.reverse.find? (·.1.name = key) = some (decl, shape)) (value : Json) :
    (part identityKey attributes value).child? (.key key) =
      (value.child? (.key key)).map (content identityKey decl.scalarType shape) := by
  cases value with
  | object source => exact get?_cloned_of_last h
  | _ => rfl

/-- What stands at an index is cloned as an object of the level. -/
theorem child?_content_array (type : Option ScalarType) (value : Json) (index : Nat) :
    (content identityKey type (.level .array attributes) value).child? (.index index) =
      (value.child? (.index index)).map (part identityKey attributes) := by
  cases value with
  | array items =>
    rw [content_array]
    exact List.getElem?_map
  | _ => rfl

/-- Lists of the same length, whose elements are cloned alike, are cloned alike. -/
theorem content_array_congr (type : Option ScalarType) {a b : Json}
    (hlength : a.length? = b.length?)
    (h : ∀ index x y, a.child? (.index index) = some x → b.child? (.index index) = some y →
      part identityKey attributes x = part identityKey attributes y) :
    content identityKey type (.level .array attributes) a =
      content identityKey type (.level .array attributes) b := by
  cases hx : a.items? with
  | none =>
    rw [Json.length?, Json.length?, hx, Option.map_none] at hlength
    rw [content_array_of_not type hx,
      content_array_of_not type (Option.map_eq_none_iff.mp hlength.symm)]
  | some xs =>
    obtain rfl := Json.items?_eq_some.mp hx
    obtain ⟨ys, hy, hsame⟩ := Option.map_eq_some_iff.mp hlength.symm
    obtain rfl := Json.items?_eq_some.mp hy
    rw [content_array, content_array]
    refine congrArg Json.array (List.ext_getElem? fun index => ?_)
    rw [List.getElem?_map, List.getElem?_map]
    cases hfirst : xs[index]? with
    | none =>
      -- of lists of one length, one ends where the other does
      rw [List.getElem?_eq_none_iff, ← hsame, ← List.getElem?_eq_none_iff] at hfirst
      rw [hfirst]
    | some x =>
      obtain ⟨hindex, -⟩ := List.getElem?_eq_some_iff.mp hfirst
      have hsecond := List.getElem?_eq_getElem (hsame.symm ▸ hindex)
      rw [hsecond]
      exact congrArg some (h index _ _ hfirst hsecond)

/-- A clone has the members that its source has and the level declares, and the identity. -/
theorem has_cloned : has (cloned identityKey attributes source) key = true ↔
    has source key = true ∧
      (key = identityKey ∨ (attributes.reverse.find? (·.1.name = key)).isSome = true) := by
  rw [has, has]
  cases hlast : attributes.reverse.find? (·.1.name = key) with
  | none =>
    rw [get?_cloned_of_none hlast]
    by_cases hkey : key = identityKey <;> simp [hkey]
  | some attr =>
    rw [get?_cloned_of_last hlast]
    simp

/-- The order of a clone's members depends on which declared attributes there are. -/
theorem keys_members_congr {clone clone' : List (String × Json)} (hkeys : keys clone = keys clone')
    (h : ∀ attr ∈ attributes, has source attr.1.name = has other attr.1.name) :
    keys (members identityKey attributes source clone) =
      keys (members identityKey attributes other clone') := by
  induction attributes generalizing clone clone' with
  | nil => exact hkeys
  | cons attr rest ih =>
    obtain ⟨decl, shape⟩ := attr
    obtain ⟨hfirst, hrest⟩ := List.forall_mem_cons.mp h
    rw [members, members]
    refine ih ?_ hrest
    cases hx : get? source decl.name <;> cases hy : get? other decl.name
    · exact hkeys
    · simp [has, hx, hy] at hfirst
    · simp [has, hx, hy] at hfirst
    · rw [Fields.keys_set, Fields.keys_set, Fields.has_congr hkeys, hkeys]

/-- Clones of objects with the same values are the same, the order of members included. -/
theorem eq_of_get?_cloned (h : ∀ key, get? (cloned identityKey attributes source) key =
    get? (cloned identityKey attributes other) key) :
    cloned identityKey attributes source = cloned identityKey attributes other := by
  -- the order of members is decided by what the objects have, and their clones show that
  have hhas : ∀ key, key = identityKey ∨ (attributes.reverse.find? (·.1.name = key)).isSome = true →
      has source key = has other key := by
    intro key hkept
    have hsame : has (cloned identityKey attributes source) key =
        has (cloned identityKey attributes other) key := by rw [has, has, h]
    rwa [Bool.eq_iff_iff, has_cloned, has_cloned, and_iff_left hkept, and_iff_left hkept,
      ← Bool.eq_iff_iff] at hsame
  refine Fields.eq_of_get? (keys_members_congr ?_ fun attr hattr => hhas _ (.inr ?_))
    (nodup_keys_members _ _ (nodup_keys_identity _)) h
  · have hidentity := hhas identityKey (.inl rfl)
    unfold identity
    cases hx : get? source identityKey <;> cases hy : get? other identityKey
    · rfl
    · simp [has, hx, hy] at hidentity
    · simp [has, hx, hy] at hidentity
    · rfl
  · rw [List.find?_isSome]
    exact ⟨attr, List.mem_reverse.mpr hattr, decide_eq_true rfl⟩

/-! ## Cloning twice -/

/-- Texts are cloned to themselves, and all that is normalised is a text then. -/
theorem scalar_scalar (type : Option ScalarType) (value : Json) :
    scalar type (scalar type value) = scalar type value := by
  cases value with
  | number n =>
    by_cases htype : type = some .date
    · cases hmillis : n.int64?.bind Timestamp.ofMillis? <;> simp [scalar, htype, hmillis]
    · simp [scalar, htype]
  | _ => simp [scalar]

/-- A cloned object is settled if the values of its attributes are. -/
theorem cloned_cloned (h : ∀ attr ∈ attributes, ∀ value,
    content identityKey attr.1.scalarType attr.2
        (content identityKey attr.1.scalarType attr.2 value) =
      content identityKey attr.1.scalarType attr.2 value) :
    cloned identityKey attributes (cloned identityKey attributes source) =
      cloned identityKey attributes source := by
  refine eq_of_get?_cloned fun key => ?_
  cases hlast : attributes.reverse.find? (·.1.name = key) with
  | none =>
    rw [get?_cloned_of_none hlast, get?_cloned_of_none hlast]
    split <;> rfl
  | some attr =>
    have hattr := h attr (List.mem_reverse.mp (List.mem_of_find?_eq_some hlast))
    rw [get?_cloned_of_last hlast, get?_cloned_of_last hlast, Option.map_map]
    exact congrArg (Option.map · _) (funext hattr)

/-- What has been cloned is settled. -/
theorem content_content (identityKey : String) (type : Option ScalarType) :
    ∀ (shape : Shape) (value : Json),
      content identityKey type shape (content identityKey type shape value) =
        content identityKey type shape value
  | .scalar, value => scalar_scalar type value
  | .foreign, value => rfl
  | .level kind attributes, value => by
    -- the recursion goes through the attributes of one object, whether it stands alone or in a list
    have hpart : ∀ value, part identityKey attributes (part identityKey attributes value) =
        part identityKey attributes value := by
      intro value
      cases value with
      | object source =>
        exact congrArg Json.object (cloned_cloned fun attr hattr value =>
          content_content identityKey attr.1.scalarType attr.2 value)
      | _ => rfl
    cases kind with
    | object => rw [content_object, content_object, hpart]
    | array =>
      cases hitems : value.items? with
      | none =>
        rw [content_array_of_not type hitems]
        rfl
      | some items =>
        obtain rfl := Json.items?_eq_some.mp hitems
        rw [content_array, content_array, List.map_map]
        exact congrArg Json.array (List.map_congr_left fun item _ => hpart item)
termination_by shape => shape
decreasing_by
  have hlt := List.sizeOf_lt_of_mem hattr
  have hsnd : sizeOf attr.2 < sizeOf attr := by
    obtain ⟨decl, shape⟩ := attr
    simp only [Prod.mk.sizeOf_spec]
    omega
  simp only [Shape.level.sizeOf_spec]
  omega

theorem part_part (value : Json) :
    part identityKey attributes (part identityKey attributes value) =
      part identityKey attributes value := by
  have hsettled := content_content identityKey none (.level .object attributes) value
  rwa [content_object, content_object] at hsettled

end Parts

end Cloner

/-! ## Drawings -/

namespace Drawn

variable {s : Flattening} {descriptor inner target : Descriptor} {name : String} {level : Level}
  {tuple : Tuple Descriptor} {identityKey : String}

/-- The last attribute of a level under a name draws what is declared there. -/
theorem exists_last (h : Drawn s descriptor name level) {key : String}
    (hdeclared : descriptor.Assigns key tuple) :
    ∃ directives visited, Tuple.ofDirectives directives = .ok tuple ∧
      (key, .tuple directives) ∈ descriptor.attributes ∧
      level.attributes.reverse.find? (·.1.name = key) = some (visited.decl, visited.shape) ∧
      AttributeDrawn s (Drawn s) (key, .tuple directives) visited := by
  obtain ⟨directives, hlast, hread⟩ := hdeclared
  cases h with
  | @mk attributes _ node visited entered declared drawn =>
    obtain ⟨last, hfind, hdrawn⟩ := exists_last_of_forall₂
      (AttributeDrawn.decide_name_eq key) drawn hlast
    refine ⟨directives, last, hread, List.mem_reverse.mp (List.mem_of_find?_eq_some hlast), ?_,
      hdrawn⟩
    rw [Level.attributes_ofVisited, ← List.map_reverse, List.find?_map]
    exact congrArg (Option.map _) hfind

/-- A level has an attribute of a name if something is declared there. -/
theorem assigns_iff (h : Drawn s descriptor name level) (key : String) :
    (∃ tuple, descriptor.Assigns key tuple) ↔
      (level.attributes.reverse.find? (·.1.name = key)).isSome = true := by
  constructor
  · rintro ⟨tuple, hdeclared⟩
    obtain ⟨-, visited, -, -, hfind, -⟩ := h.exists_last hdeclared
    rw [hfind]
    rfl
  · intro hsome
    obtain ⟨attr, hattr⟩ := Option.isSome_iff_exists.mp hsome
    cases h with
    | @mk attributes _ node visited entered declared drawn =>
      rw [Level.attributes_ofVisited, ← List.map_reverse, List.find?_map] at hattr
      obtain ⟨last, hlast, -⟩ := Option.map_eq_some_iff.mp hattr
      -- attributes of the level and of the descriptor correspond, also the last ones
      obtain ⟨⟨name, attr⟩, hfind, hdrawn⟩ := exists_last_of_forall₂
        (fun attr entry h => (AttributeDrawn.decide_name_eq key entry attr h).symm) drawn.flip hlast
      obtain rfl : name = key := by simpa using List.find?_some hfind
      cases hdrawn with
      | scalar read => exact ⟨_, _, hfind, read⟩
      | level read => exact ⟨_, _, hfind, read⟩
      | attachment read => exact ⟨_, _, hfind, read⟩

/-- Under a nested attribute stands a level that draws its descriptor. -/
theorem exists_level (h : Drawn s descriptor name level) {key : String}
    (hdeclared : descriptor.Assigns key tuple) (hnested : tuple.nested = some inner) :
    ∃ decl kind child below, tuple.nesting = some kind ∧ Drawn s inner child below ∧
      level.attributes.reverse.find? (·.1.name = key) =
        some (decl, .level kind below.attributes) := by
  obtain ⟨directives, visited, hread, -, hfind, hdrawn⟩ := h.exists_last hdeclared
  obtain ⟨child, node, below, -, hnesting, hbelow, rfl⟩ := hdrawn.exists_level hread hnested
  exact ⟨_, node.kind, child, below, hnesting, hbelow, hfind⟩

/-- Under an attribute of attached records stand these. -/
theorem exists_foreign (h : Drawn s descriptor name level) {key : String}
    (hdeclared : descriptor.Assigns key tuple) (hnesting : tuple.nesting.isSome)
    (hnested : tuple.nested = none) :
    ∃ decl, level.attributes.reverse.find? (·.1.name = key) = some (decl, .foreign) := by
  obtain ⟨directives, visited, hread, -, hfind, hdrawn⟩ := h.exists_last hdeclared
  obtain ⟨kind, hkind⟩ := Option.isSome_iff_exists.mp hnesting
  obtain ⟨child, node, -, -, rfl⟩ := hdrawn.exists_attachment hread hkind hnested
  exact ⟨_, hfind⟩

/-- What stands at a declared place of a clone is the clone of what stands there. -/
theorem locate?_part {place : Location} (hreaches : descriptor.Reaches place target) :
    ∀ {name : String} {level : Level}, Drawn s descriptor name level →
      ∃ name' below, Drawn s target name' below ∧ ∀ value,
        (Cloner.part identityKey level.attributes value).locate? place =
          (value.locate? place).map (Cloner.part identityKey below.attributes) := by
  induction hreaches with
  | here => exact fun h => ⟨_, _, h, fun value => rfl⟩
  | @object descriptor inner target key tuple place declared nesting nested _ ih =>
    intro name level h
    obtain ⟨decl, kind, child, level', hkind, hinner, hfind⟩ := h.exists_level declared nested
    obtain rfl : NodeKind.object = kind := Option.some.inj (nesting.symm.trans hkind)
    obtain ⟨name', below, hbelow, hlocate⟩ := ih hinner
    refine ⟨name', below, hbelow, fun value => ?_⟩
    rw [Json.locate?, Cloner.child?_part hfind, Json.locate?]
    cases value.child? (.key key) with
    | none => rfl
    | some content =>
      rw [Option.map_some, Option.bind_some, Option.bind_some, Cloner.content_object]
      exact hlocate content
  | @element descriptor inner target key tuple place index declared nesting nested _ ih =>
    intro name level h
    obtain ⟨decl, kind, child, level', hkind, hinner, hfind⟩ := h.exists_level declared nested
    obtain rfl : NodeKind.array = kind := Option.some.inj (nesting.symm.trans hkind)
    obtain ⟨name', below, hbelow, hlocate⟩ := ih hinner
    refine ⟨name', below, hbelow, fun value => ?_⟩
    rw [Json.locate?, Cloner.child?_part hfind, Json.locate?]
    cases value.child? (.key key) with
    | none => rfl
    | some content =>
      rw [Option.map_some, Option.bind_some, Option.bind_some, Json.locate?,
        Cloner.child?_content_array, Json.locate?]
      cases content.child? (.index index) with
      | none => rfl
      | some item => exact hlocate item

/-- Values that agree have the same clone under a nested attribute, if all values that agree below
it have the same one. -/
theorem map_level_eq_of_agree {key : String} {kind : NodeKind}
    {attributes : List (AttributeDecl × Shape)} (hdeclared : descriptor.Assigns key tuple)
    (hnesting : tuple.nesting = some kind) (hnested : tuple.nested = some inner)
    (hbelow : ∀ {x y}, Agree inner.Reaches identityKey x y →
      Cloner.part identityKey attributes x = Cloner.part identityKey attributes y)
    (type : Option ScalarType) {a b : Json} (hagree : Agree descriptor.Reaches identityKey a b) :
    (a.get? key).map (Cloner.content identityKey type (.level kind attributes)) =
      (b.get? key).map (Cloner.content identityKey type (.level kind attributes)) := by
  rw [← Json.locate?_key, ← Json.locate?_key]
  cases kind with
  | object =>
    refine Option.map_eq_map_of_map (hagree.objects (.object hdeclared hnesting hnested .here))
      fun x y hx hy _ => ?_
    rw [Cloner.content_object, Cloner.content_object,
      hbelow (hagree.below (.object hdeclared hnesting hnested) hx hy)]
  | array =>
    refine Option.map_eq_map_of_map (hagree.lists .here hdeclared (hnested ▸ rfl) hnesting)
      fun x y hx hy hlength => Cloner.content_array_congr type hlength fun index u v hu hv => ?_
    exact hbelow (hagree.below (.element index hdeclared hnesting hnested)
      (Json.locate?_append_child hx hu) (Json.locate?_append_child hy hv))

/-- Values that agree on what is declared are cloned alike. -/
theorem part_eq_of_agree : ∀ (descriptor : Descriptor) {name : String} {level : Level},
    Drawn s descriptor name level → ∀ {a b : Json}, Agree descriptor.Reaches identityKey a b →
      Cloner.part identityKey level.attributes a = Cloner.part identityKey level.attributes b := by
  refine Descriptor.levels_induction fun attributes ih name level h a b hagree => ?_
  -- two objects, or twice null: the values agree at the place of the level itself
  have hobjects : a.isObject = b.isObject := Option.some.inj (hagree.objects .here)
  cases hobject : a.isObject with
  | false =>
    rw [Cloner.part_of_not hobject, Cloner.part_of_not (hobjects.symm.trans hobject)]
  | true =>
    obtain ⟨xs, rfl⟩ := Json.exists_members hobject
    obtain ⟨ys, rfl⟩ := Json.exists_members (hobjects.symm.trans hobject)
    refine congrArg Json.object (Cloner.eq_of_get?_cloned fun key => ?_)
    cases hlast : level.attributes.reverse.find? (·.1.name = key) with
    | none =>
      rw [Cloner.get?_cloned_of_none hlast, Cloner.get?_cloned_of_none hlast]
      by_cases hkey : key = identityKey
      · subst hkey
        have hidentity := hagree.identities .here
        rw [List.nil_append, Json.locate?_key, Json.locate?_key] at hidentity
        exact congrArg (ite (key = key) · none) hidentity
      · rw [if_neg hkey, if_neg hkey]
    | some attr =>
      obtain ⟨decl, shape⟩ := attr
      obtain ⟨tuple, hdeclared⟩ := (h.assigns_iff key).mpr (hlast ▸ rfl)
      rw [Cloner.get?_cloned_of_last hlast, Cloner.get?_cloned_of_last hlast]
      cases hnested : tuple.nested with
      | none =>
        have hvalue := hagree.values .here hdeclared hnested
        rw [List.nil_append, Json.locate?_key, Json.locate?_key] at hvalue
        exact congrArg _ hvalue
      | some inner =>
        -- a nested attribute: the values agree below it, where the induction applies
        obtain ⟨directives, -, hread, hmem, -, -⟩ := h.exists_last hdeclared
        obtain ⟨decl', kind, child, below, hkind, hinner, hfind⟩ :=
          h.exists_level hdeclared hnested
        obtain ⟨rfl, rfl⟩ := Prod.mk.inj (Option.some.inj (hlast.symm.trans hfind))
        exact map_level_eq_of_agree hdeclared hkind hnested
          (ih _ hmem directives rfl inner (Tuple.mem_of_nested hread hnested) hinner)
          decl.scalarType hagree

end Drawn

namespace Cloner

/-! ## The clone of a record or of a list -/

section Inputs

variable {s : Flattening} {cloner : Cloner} {descriptor inner : Descriptor} {name : String}
  {level : Level} {input other : Json} {place : Location}

theorem clone_of_not (h : input.isArray = false) :
    cloner.clone input = part cloner.identityKey cloner.attributes input := by
  rw [← record_eq]
  cases input with
  | array => cases h
  | _ => rfl

/-- The clone of a record is no list, so that it is cloned as a record again. -/
theorem isArray_part (identityKey : String) (attributes : List (AttributeDecl × Shape))
    (value : Json) : (part identityKey attributes value).isArray = false := by
  cases value <;> rfl

/-- Objects are cloned to objects, and nothing else is. -/
theorem isObject_part (identityKey : String) (attributes : List (AttributeDecl × Shape))
    (value : Json) : (part identityKey attributes value).isObject = value.isObject := by
  cases value <;> rfl

/-- To clone a clone changes nothing. -/
theorem clone_clone (cloner : Cloner) (input : Json) :
    cloner.clone (cloner.clone input) = cloner.clone input := by
  cases hinput : input.items? with
  | none =>
    have hclone : cloner.clone input = part cloner.identityKey cloner.attributes input :=
      clone_of_not (Json.isArray_of_none hinput)
    rw [hclone, clone_of_not (isArray_part _ _ _), part_part]
  | some items =>
    obtain rfl := Json.items?_eq_some.mp hinput
    rw [clone, clone, List.map_map, record_eq]
    exact congrArg Json.array (List.map_congr_left fun item _ => part_part item)

variable (h : Drawn s descriptor name level) (hkept : cloner.attributes = level.attributes)

include h hkept

/-- What stands at a declared place of a clone. -/
theorem locate?_clone (hplace : descriptor.Describes input place inner) :
    ∃ name' below, Drawn s inner name' below ∧ (cloner.clone input).locate? place =
      (input.locate? place).map (part cloner.identityKey below.attributes) := by
  cases hplace with
  | record single reaches =>
    obtain ⟨name', below, hbelow, hlocate⟩ := Drawn.locate?_part reaches h
    exact ⟨name', below, hbelow, by rw [clone_of_not single, hkept, hlocate]⟩
  | @listed items rest inner index reaches =>
    obtain ⟨name', below, hbelow, hlocate⟩ := Drawn.locate?_part reaches h
    refine ⟨name', below, hbelow, ?_⟩
    rw [clone, record_eq, hkept, Json.locate?, Json.locate?, Json.child?, Json.child?,
      List.getElem?_map]
    cases items[index]? with
    | none => rfl
    | some item => exact hlocate item

/-- Inputs that agree on what is declared have the same clone. -/
theorem clone_eq_of_agree (hlength : input.length? = other.length?)
    (hagree : Agree (descriptor.Describes input) cloner.identityKey input other) :
    cloner.clone input = cloner.clone other := by
  cases hx : input.items? with
  | none =>
    have hnone : other.items? = none := by
      rwa [Json.length?, Json.length?, hx, Option.map_none, eq_comm, Option.map_eq_none_iff]
        at hlength
    rw [clone_of_not (Json.isArray_of_none hx), clone_of_not (Json.isArray_of_none hnone), hkept]
    exact h.part_eq_of_agree descriptor (hagree.below (.record (Json.isArray_of_none hx))
      (Json.locate?_nil input) (Json.locate?_nil other))
  | some xs =>
    -- a list of records is cloned like a nested list of the level
    have hlist : ∀ items, cloner.clone (.array items) =
        content cloner.identityKey none (.level .array level.attributes) (.array items) := by
      intro items
      rw [clone, record_eq, hkept, content_array]
    obtain ⟨ys, hy, -⟩ := Option.map_eq_some_iff.mp
      (hlength.symm.trans (show input.length? = some xs.length by rw [Json.length?, hx]; rfl))
    obtain rfl := Json.items?_eq_some.mp hx
    obtain rfl := Json.items?_eq_some.mp hy
    rw [hlist, hlist]
    refine content_array_congr none hlength fun index x y hx hy => ?_
    exact h.part_eq_of_agree descriptor (hagree.below (.listed index)
      (Json.locate?_append_child (Json.locate?_nil _) hx)
      (Json.locate?_append_child (Json.locate?_nil _) hy))

/-- The parts of the result, each from what stands at declared places. -/
theorem retracts : Retracts descriptor cloner.identityKey cloner.clone where
  again := cloner.clone_clone
  objects := by
    intro input place inner hplace
    obtain ⟨name', below, -, hlocate⟩ := locate?_clone h hkept hplace
    rw [hlocate, Option.map_map]
    exact congrArg (Option.map · _) (funext (isObject_part _ _))
  kept := by
    intro input place inner members hplace hmembers
    obtain ⟨name', below, hbelow, hlocate⟩ := locate?_clone h hkept hplace
    obtain ⟨value, hvalue, hpart⟩ := Option.map_eq_some_iff.mp (hlocate.symm.trans hmembers)
    cases value with
    | object source =>
      obtain rfl := Json.object.inj hpart
      refine ⟨source, hvalue, fun key => ?_⟩
      rw [has_cloned, hbelow.assigns_iff]
    | _ => cases hpart
  attached := by
    intro input place inner key tuple hplace hdeclared hnesting hnested
    obtain ⟨name', below, hbelow, hlocate⟩ := locate?_clone h hkept hplace
    obtain ⟨decl, hforeign⟩ := hbelow.exists_foreign hdeclared hnesting hnested
    rw [Json.locate?_append, Json.locate?_append, hlocate]
    cases input.locate? place with
    | none => rfl
    | some value =>
      rw [Option.map_some, Option.bind_some, Option.bind_some, Json.locate?, Json.locate?,
        child?_part hforeign]
      cases value.child? (.key key) <;> rfl
  declared := clone_eq_of_agree h hkept

end Inputs

end Cloner

/-! ## The result -/

namespace Store

/-- To clone keeps what the descriptor of a store declares, and nothing else. -/
theorem clone_retracts {config : Config} {name : String} {descriptor : Descriptor} {store : Store}
    (h : (compile config name descriptor).1 = .ok store) :
    Retracts descriptor config.identityKey store.clone := by
  obtain ⟨s, level, -, hdrawn, -, -, hcloner⟩ := exists_drawn h
  have hkept : store.cloner.attributes = level.attributes := congrArg Cloner.attributes hcloner
  have hidentity : store.cloner.identityKey = config.identityKey :=
    congrArg Cloner.identityKey hcloner
  rw [← hidentity]
  exact Cloner.retracts hdrawn hkept

/-- Records of another store in a list. -/
theorem exists_tuple_orders : ∃ tuple : Tuple Descriptor,
    Tuple.ofDirectives [.word "array", .word "@orders"] = .ok tuple ∧ tuple.nesting.isSome ∧
      tuple.nested = none := by
  have hparts : (Tuple.ofDirectives [.word "array", .word "@orders"]).toOption.map
      (fun tuple : Tuple Descriptor => (tuple.nesting.isSome, tuple.nested.isNone)) =
        some (true, true) := by
    decide +kernel
  obtain ⟨tuple, htuple, heq⟩ := Option.map_eq_some_iff.mp hparts
  obtain ⟨hnesting, hnested⟩ := Prod.mk.inj heq
  exact ⟨tuple, Except.eq_ok_of_toOption htuple, hnesting,
    Option.isNone_iff_eq_none.mp hnested⟩

/-- A menu with a day in milliseconds, a dish that is no object, and prices where none are
declared. -/
def roughMenu : Json :=
  .object [("price", .ofNat 5), ("day", .ofNat 0), ("id", .ofNat 1),
    ("dishes", .array [.object [("price", .ofNat 7), ("spice", .ofNat 2)], .ofNat 5]),
    ("orders", .array [.object [("price", .ofNat 3)]])]

/-- A menu with undeclared members is settled by one clone, and its attached orders are kept. -/
theorem clone_retracts_menus :
    (compile {} "menus" (menuOfDay (.word "2024-02-29"))).1 = .ok menus ∧
      menus.clone (menus.clone roughMenu) = menus.clone roughMenu ∧
      (menus.clone roughMenu).locate? [.key "orders"] =
        some (.array [.object [("price", .ofNat 3)]]) := by
  have hcompile := compile_compiled "menus" (menuOfDay (.word "2024-02-29")) (by decide +kernel)
  have hretracts := clone_retracts hcompile
  obtain ⟨tuple, hread, hnesting, hnested⟩ := exists_tuple_orders
  exact ⟨hcompile, hretracts.again _, hretracts.attached (.record rfl .here)
    ⟨_, rfl, hread⟩ hnesting hnested⟩

/-- Customers whose orders are also declared as a text. -/
def ordersTwice : Descriptor :=
  .mk [("id", .tuple [.word "int", .word "<<id>>"]),
    ("orders", .tuple [.word "array", .word "@orders"]), ("orders", .tuple [.word "string"])]

/-- The last attribute of a name counts, also for attached records. -/
theorem not_clone_attached :
    ¬ ∀ (config : Config) (name : String) (descriptor : Descriptor) (store : Store) (input : Json)
      (key : String) (directives : List (Directive Descriptor)) (tuple : Tuple Descriptor),
        (compile config name descriptor).1 = .ok store → input.isArray = false →
        (key, .tuple directives) ∈ descriptor.attributes →
        Tuple.ofDirectives directives = .ok tuple → tuple.nesting.isSome → tuple.nested = none →
        (store.clone input).locate? [.key key] = input.locate? [.key key] := by
  intro h
  have hcompile := compile_compiled "customers" ordersTwice (by decide +kernel)
  obtain ⟨tuple, hread, hnesting, hnested⟩ := exists_tuple_orders
  have hsame := h {} "customers" ordersTwice _ (.object [("orders", .array [])]) "orders" _ tuple
    hcompile rfl (List.mem_cons_of_mem _ List.mem_cons_self) hread hnesting hnested
  have hshown := congrArg (Option.map Json.outline) hsame
  revert hshown
  decide +kernel

end Store

end NestedRecord
