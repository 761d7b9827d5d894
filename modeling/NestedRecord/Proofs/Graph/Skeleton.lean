import Mathlib.Data.List.Forall2
import NestedRecord.Proofs.Graph.Paths

/-!
# The default record mirrors the descriptor

Every object of the default record has the attributes of its level in order, every list one element,
and every scalar the first literal of its tuple.

* `Tuple.firstLiteral?` is the literal that a scalar starts out with, wherever words and their
  operands stand around it.
* `Flattened.Mirrors` compares the default record with the descriptor and with the levels of the
  graph at once.
* `Level.members_ofVisited`: where names differ, each attribute keeps the value it was visited with.
  From this `Drawn.mirrors` follows level by level.

The mirror compares three things because each says something of the others: an attribute of the
descriptor is an attribute of the graph, and its value in the default record depends on what kind of
level the graph has there. The drawings of `Portrait` already go through descriptor and graph
together, so the proof only adds the values, in the order in which attributes were visited.
-/

namespace NestedRecord

open Fields (get? has)
open Walk (scalarDecl nestedDecl levelValue attachmentValue)

/-! ## The first literal -/

section Literals

variable {ν : Type}

/-- The value of a literal that no word takes. -/
def Token.literal? : Token ν → Option Json
  | .literal value => some value
  | _ => none

/-- The first literal of a tuple that no word takes. -/
def Tuple.firstLiteral? (directives : List (Directive ν)) : Option Json :=
  (Token.ofDirectives directives).findSome? fun token => token.toOption.bind Token.literal?

namespace Tuple

variable {tuple tuple' : Tuple ν} {directives : List (Directive ν)}

/-- A literal is kept unless there was one before; no other token brings one. -/
theorem fallback_of_add {token : Token ν} (h : tuple.add token = .ok tuple') :
    tuple'.fallback = tuple.fallback.or token.literal? := by
  cases token with
  | literal value =>
    obtain rfl := Except.ok.inj h
    rfl
  | bound side value => cases side <;> cases h <;> exact (Option.or_none).symm
  | column | reference | handler | nested =>
    unfold add at h
    simp only at h
    split at h
    · cases h
    · cases h
      exact (Option.or_none).symm
  | _ =>
    cases h
    exact (Option.or_none).symm

/-- The default of tokens is the first literal among them, behind the one at the start. -/
theorem fallback_of_foldlM {tokens : List (Except String (Token ν))} {start : Tuple ν}
    (h : tokens.foldlM (fun tuple token => token.bind tuple.add) start = .ok tuple) :
    tuple.fallback = start.fallback.or
      (tokens.findSome? fun token => token.toOption.bind Token.literal?) := by
  induction tokens generalizing start with
  | nil =>
    obtain rfl := Except.ok.inj h
    exact Option.or_none.symm
  | cons token rest ih =>
    rw [List.foldlM_cons] at h
    obtain ⟨next, hadd, hrest⟩ := Except.bind_eq_ok.mp h
    obtain ⟨token, rfl, hadd⟩ := Except.bind_eq_ok.mp hadd
    have htoken : (.ok token : Except String (Token ν)).toOption.bind Token.literal? =
        token.literal? := rfl
    rw [ih hrest, fallback_of_add hadd, List.findSome?_cons, htoken, Option.or_assoc]
    cases token.literal? <;> rfl

/-- The default of a tuple is its first literal. -/
theorem fallback_of_ofDirectives (h : ofDirectives directives = .ok tuple) :
    tuple.fallback = firstLiteral? directives :=
  (fallback_of_foldlM h).trans Option.none_or

end Tuple

end Literals

/-! ## Mirrors -/

namespace Flattened

/-- An attribute of the graph and its default value mirror a declared attribute; `below` says so of
the members of a nested object. -/
inductive MirrorsAttribute (below : Descriptor → String → Fields Json → Prop) :
    String × Attribute Descriptor → AttributeDecl × Json → Prop
  /-- a scalar holds the first literal that no word takes, or null -/
  | scalar {name : String} {decl : AttributeDecl} {directives : List (Directive Descriptor)}
      {tuple : Tuple Descriptor} (named : decl.name = name)
      (read : Tuple.ofDirectives directives = .ok tuple) (plain : tuple.isNested = false)
      (leaf : decl.child = none) : MirrorsAttribute below (name, .tuple directives)
        (decl, (Tuple.firstLiteral? directives).getD .null)
  | object {name child : String} {decl : AttributeDecl} {directives : List (Directive Descriptor)}
      {tuple : Tuple Descriptor} {inner : Descriptor} {members : Fields Json}
      (named : decl.name = name) (read : Tuple.ofDirectives directives = .ok tuple)
      (nesting : tuple.nesting = some .object) (nested : tuple.nested = some inner)
      (leads : decl.child = some child) (mirrored : below inner child members) :
      MirrorsAttribute below (name, .tuple directives) (decl, .object members)
  /-- a list holds one element -/
  | list {name child : String} {decl : AttributeDecl} {directives : List (Directive Descriptor)}
      {tuple : Tuple Descriptor} {inner : Descriptor} {members : Fields Json}
      (named : decl.name = name) (read : Tuple.ofDirectives directives = .ok tuple)
      (nesting : tuple.nesting = some .array) (nested : tuple.nested = some inner)
      (leads : decl.child = some child) (mirrored : below inner child members) :
      MirrorsAttribute below (name, .tuple directives) (decl, .array [.object members])
  | attachedObject {name : String} {decl : AttributeDecl} {directives : List (Directive Descriptor)}
      {tuple : Tuple Descriptor} (named : decl.name = name)
      (read : Tuple.ofDirectives directives = .ok tuple) (nesting : tuple.nesting = some .object)
      (bare : tuple.nested = none) : MirrorsAttribute below (name, .tuple directives) (decl, .null)
  | attachedList {name : String} {decl : AttributeDecl} {directives : List (Directive Descriptor)}
      {tuple : Tuple Descriptor} (named : decl.name = name)
      (read : Tuple.ofDirectives directives = .ok tuple) (nesting : tuple.nesting = some .array)
      (bare : tuple.nested = none) :
      MirrorsAttribute below (name, .tuple directives) (decl, .array [])

/-- The members of a default object mirror a descriptor and the level of a name: they are the
attributes of both, in order. -/
inductive Mirrors (flattened : Flattened) : Descriptor → String → Fields Json → Prop
  | mk {attributes : List (String × Attribute Descriptor)} {key : String} {node : Node}
      {slots : List (AttributeDecl × Json)} (owner : (key, node) ∈ flattened.nodes)
      (declared : node.attributes = slots.map (·.1))
      (mirrored : List.Forall₂ (MirrorsAttribute (Mirrors flattened)) attributes slots) :
      Mirrors flattened (.mk attributes) key (slots.map fun slot => (slot.1.name, slot.2))

end Flattened

/-! ## What was visited of a level -/

/-- The values of a level are written one after the other. -/
theorem Level.members_ofVisited_eq_setAll (visited : List Visited) :
    (Level.ofVisited visited).members =
      Fields.setAll (visited.map fun attr => (attr.decl.name, attr.value)) [] := by
  have hfold : ∀ level : Level, (visited.foldl Level.add level).members =
      Fields.setAll (visited.map fun attr => (attr.decl.name, attr.value)) level.members := by
    induction visited with
    | nil => exact fun level => rfl
    | cons first rest ih => exact fun level => ih (level.add first)
  exact hfold {}

/-- Where names differ, each attribute keeps its value. -/
theorem Level.members_ofVisited {visited : List Visited}
    (h : (visited.map (·.decl.name)).Nodup) : (Level.ofVisited visited).members =
      visited.map fun attr => (attr.decl.name, attr.value) := by
  rw [members_ofVisited_eq_setAll, Fields.setAll_of_nodup _ _ fun _ _ => rfl, List.nil_append]
  rwa [List.map_map]

variable {flattened : Flattened} {s : Flattening} {store rootName : String}
  {descriptor : Descriptor}

open Flattened (MirrorsAttribute)

/-- An attribute that is drawn is mirrored by its value. -/
theorem AttributeDrawn.mirrors {entry : String × Attribute Descriptor} {visited : Visited}
    {below : Descriptor → String → Fields Json → Prop}
    (h : AttributeDrawn s (Drawn s) entry visited)
    (hbelow : ∀ {directives : List (Directive Descriptor)} {tuple : Tuple Descriptor}
      {inner : Descriptor} {child : String} {level : Level}, entry.2 = .tuple directives →
        Tuple.ofDirectives directives = .ok tuple → tuple.nested = some inner →
        Drawn s inner child level → below inner child level.members) :
    MirrorsAttribute below entry (visited.decl, visited.value) := by
  cases h with
  | @scalar name directives tuple read plain =>
    rw [Tuple.fallback_of_ofDirectives read]
    exact .scalar rfl read plain rfl
  | @level name child directives tuple kind inner node level read nesting nested _ _ drawn =>
    have hmirrored := hbelow rfl read nested drawn
    cases kind with
    | object => exact .object rfl read nesting nested rfl hmirrored
    | array => exact .list rfl read nesting nested rfl hmirrored
  | @attachment name child directives tuple kind node read nesting nested =>
    cases kind with
    | object => exact .attachedObject rfl read nesting nested
    | array => exact .attachedList rfl read nesting nested

/-- The members of a drawn level mirror its descriptor. -/
theorem Drawn.mirrors (h : flattened.EndsIn s) (descriptor : Descriptor) :
    ∀ {key : String} {level : Level}, descriptor.Levels List.Nodup →
      Drawn s descriptor key level → flattened.Mirrors descriptor key level.members := by
  refine Descriptor.levels_induction (p := fun descriptor => ∀ {key : String} {level : Level},
    descriptor.Levels List.Nodup → Drawn s descriptor key level →
      flattened.Mirrors descriptor key level.members) (fun attributes ih => ?_) descriptor
  rintro key level ⟨hnodup, hbelow⟩ ⟨entered, declared, drawn⟩
  rename_i node visited
  have hnames : visited.map (·.decl.name) = attributes.map (·.1) := AttributeDrawn.names_eq drawn
  have hmembers : (Level.ofVisited visited).members =
      (visited.map fun attr => (attr.decl, attr.value)).map fun slot => (slot.1.name, slot.2) := by
    rw [Level.members_ofVisited (hnames ▸ hnodup), List.map_map]
    rfl
  rw [hmembers]
  refine .mk (h.mem_nodes_iff.mpr entered) (by rw [declared, List.map_map]; rfl) ?_
  -- attribute by attribute, with what is known of the levels nested in it
  refine List.forall₂_map_right_iff.mpr ((List.forall₂_and_left _ _).mpr
    ⟨fun entry hentry => hentry, drawn⟩ |>.imp fun ⟨name, attr⟩ attrVisited ⟨hentry, hattr⟩ => ?_)
  refine hattr.mirrors fun {directives tuple inner child level} heq read nested hdrawn => ?_
  obtain rfl : attr = .tuple directives := heq
  exact ih _ hentry directives rfl inner (Tuple.mem_of_nested read nested)
    (hbelow hentry read nested) hdrawn

namespace Flattened

/-- The default record of a descriptor whose levels have distinct names mirrors it. -/
theorem mirrors_of_flatten (h : (flatten store rootName descriptor).1 = .ok flattened)
    (hlevels : descriptor.Levels List.Nodup) : ∃ members,
      flattened.defaultValue = .object members ∧
        flattened.Mirrors descriptor flattened.root members := by
  obtain ⟨s, level, hends, hdrawn, -, hdefault⟩ := exists_drawn h
  exact ⟨level.members, hdefault, Drawn.mirrors hends descriptor hlevels hdrawn⟩

/-- Tickets with a default behind the operands of other words, notes and a customer of other stores,
and a list with an object in it. -/
def tickets : Descriptor :=
  .mk [("id", .tuple [.word "int", .word "<<ticket>>"]),
    ("state", .tuple [.word "onValidate", .word "open", .word "string", .word "new", .word "old"]),
    ("customer", .tuple [.word "object", .word "@customers"]),
    ("notes", .tuple [.word "array", .word "@notes", .word "onTransform", .literal .null]),
    ("steps", .tuple [.word "array", .nested (.mk
      [("step", .tuple [.word "min", .literal (.ofNat 1), .word "int", .word "<<step>>"]),
       ("done", .tuple [.word "object", .nested (.mk
         [("by", .tuple [.word "string", .word "nobody"])])])])])]

def emptyTicket : String :=
  "\x7b\"id\":null,\"state\":\"new\",\"customer\":null,\"notes\":[],\"steps\":" ++
    "[\x7b\"step\":null,\"done\":\x7b\"by\":\"nobody\"\x7d\x7d]\x7d"

/-- The default of the tickets has one step, with an object in it. -/
theorem mirrors_of_flatten_tickets : ∃ flattened members,
    (flatten "tickets" "main" tickets).1 = .ok flattened ∧
    flattened.defaultValue = .object members ∧ flattened.Mirrors tickets flattened.root members ∧
    flattened.defaultValue.render = emptyTicket := by
  have haccepted : (flatten "tickets" "main" tickets).1.toOption.map (fun flattened =>
      (decide flattened.DistinctNames, flattened.defaultValue.render)) =
      some (true, emptyTicket) := by
    decide +kernel
  obtain ⟨flattened, hflatten, hboth⟩ := Option.map_eq_some_iff.mp haccepted
  simp only [Prod.mk.injEq, decide_eq_true_eq] at hboth
  have hok := Except.eq_ok_of_toOption hflatten
  obtain ⟨members, hdefault, hmirrors⟩ := mirrors_of_flatten hok (levels_of_flatten hok hboth.1)
  exact ⟨flattened, members, hok, hdefault, hmirrors, hboth.2⟩

end Flattened

end NestedRecord
