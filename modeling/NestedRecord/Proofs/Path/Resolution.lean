import NestedRecord.Procedure.Blueprint
import NestedRecord.Proofs.Procedure.Reach

/-!
# What resolved paths have in common

Paths that resolve go through the same levels as long as their names agree. So the names say
how two of them lie to one another.

- `Resolver.walk?` is the resolution of names without an accumulator. `toOption_follow` and
  `toOption_resolve` say that what the resolver finds is such a walk.
- `Resolver.Walks` has a constructor for each way names can lead on. It is the graph of `walk?`
  (`walk?_eq_some_iff`), and the laws below are inductions along it.
- `walk?_names`: the names of a walk are those of its loops and its leaf.
- `walk?_scalar_append`: no path goes on below a declared value.
- `walk?_level_append`: a path that goes on below a list enters it, and below records of
  another store it is taken as it stands.
- `Instance` are the locations that names have in records. Those of a declared path are the ones
  below the elements its loops reach (`instance_iff_of_walk?`); two of them with the same tokens
  are the same (`Instance.eq_of_tokens`).

The resolver carries along what it has crossed, which is convenient to run and hard to reason about:
two resolutions with a common beginning do not show it. A walk returns what is behind a level, and
what was crossed is put in front afterwards, so that walks with a common beginning differ in their
ends only.
-/

namespace NestedRecord

namespace ResolvedPath

/-- The path with names before its first name. -/
def behind (names : List String) (resolved : ResolvedPath) : ResolvedPath :=
  match resolved.loops with
  | [] => { resolved with leaf := names ++ resolved.leaf }
  | loop :: rest =>
    { resolved with loops := { loop with access := names ++ loop.access } :: rest }

/-- The path inside the elements of a list. -/
def inside (loops : List Loop) (resolved : ResolvedPath) : ResolvedPath :=
  { resolved with loops := loops ++ resolved.loops }

@[simp] theorem target_behind (names : List String) (resolved : ResolvedPath) :
    (resolved.behind names).target = resolved.target := by
  unfold behind
  split <;> rfl

@[simp] theorem isVirtual_behind (names : List String) (resolved : ResolvedPath) :
    (resolved.behind names).isVirtual = resolved.isVirtual := by
  unfold behind
  split <;> rfl

@[simp] theorem target_inside (loops : List Loop) (resolved : ResolvedPath) :
    (resolved.inside loops).target = resolved.target := rfl

@[simp] theorem isVirtual_inside (loops : List Loop) (resolved : ResolvedPath) :
    (resolved.inside loops).isVirtual = resolved.isVirtual := rfl

theorem behind_nil (resolved : ResolvedPath) : resolved.behind [] = resolved := by
  obtain ⟨path, loops, leaf, target, isVirtual⟩ := resolved
  cases loops <;> rfl

@[simp] theorem inside_nil (resolved : ResolvedPath) : resolved.inside [] = resolved := rfl

theorem behind_behind (front back : List String) (resolved : ResolvedPath) :
    (resolved.behind back).behind front = resolved.behind (front ++ back) := by
  obtain ⟨path, loops, leaf, target, isVirtual⟩ := resolved
  cases loops <;> simp [behind]

theorem depth_behind (names : List String) (resolved : ResolvedPath) :
    (resolved.behind names).depth = resolved.depth := by
  obtain ⟨path, loops, leaf, target, isVirtual⟩ := resolved
  cases loops <;> rfl

theorem depth_inside (loops : List Loop) (resolved : ResolvedPath) :
    (resolved.inside loops).depth = loops.length + resolved.depth :=
  List.length_append

@[simp] theorem isScalar_behind (names : List String) (resolved : ResolvedPath) :
    (resolved.behind names).isScalar = resolved.isScalar := by
  rw [isScalar, target_behind, isScalar]

/-- The names of a path: those to its lists, then those to its value. -/
def names (resolved : ResolvedPath) : List String :=
  resolved.loops.flatMap (·.access) ++ resolved.leaf

/-- Names in front are names of the path. -/
theorem names_behind (front : List String) (resolved : ResolvedPath) :
    (resolved.behind front).names = front ++ resolved.names := by
  obtain ⟨path, loops, leaf, target, isVirtual⟩ := resolved
  cases loops <;> simp [behind, names]

theorem names_inside (loops : List Loop) (resolved : ResolvedPath) :
    (resolved.inside loops).names = loops.flatMap (·.access) ++ resolved.names := by
  simp [inside, names]

/-- The locations of a path in records: its leaf below an element of the innermost list. -/
def Place (resolved : ResolvedPath) (location : Location) : Prop :=
  ∃ cursor : Cursor, cursor.Fits resolved.loops ∧ location = cursor.below resolved.leaf

/-- Outside of lists a path has one place. -/
theorem place_iff_of_nil {resolved : ResolvedPath} {location : Location}
    (h : resolved.loops = []) :
    resolved.Place location ↔ location = resolved.leaf.map .key := by
  rw [Place, h]
  constructor
  · rintro ⟨⟨entered⟩, hfits, rfl⟩
    obtain rfl : entered = [] := by simpa [Cursor.Fits] using hfits
    rfl
  · rintro rfl
    exact ⟨{}, rfl, rfl⟩

/-- Inside the elements of a list stands the key of the list, the index of an element and what
stands in that element. -/
theorem place_inside_iff {key name : String} {resolved : ResolvedPath} {location : Location} :
    (resolved.inside [⟨key, [name]⟩]).Place location ↔
      ∃ index inner, location = .key name :: .index index :: inner ∧ resolved.Place inner := by
  constructor
  · rintro ⟨⟨entered⟩, hfits, rfl⟩
    cases entered with
    | nil => cases hfits
    | cons first others =>
      obtain ⟨hfirst, hothers⟩ := List.cons.inj hfits
      refine ⟨first.index, Cursor.below ⟨others⟩ resolved.leaf, ?_, ⟨others⟩, hothers, rfl⟩
      simp [Cursor.below, Cursor.element, Cursor.Entered.location, hfirst, inside]
  · rintro ⟨index, inner, rfl, ⟨entered⟩, hfits, rfl⟩
    refine ⟨⟨⟨[name], index⟩ :: entered⟩, congrArg (List.cons [name]) hfits, ?_⟩
    simp [Cursor.below, Cursor.element, Cursor.Entered.location, inside]

/-- A name in front is a key in front. -/
theorem place_behind_iff {name : String} {resolved : ResolvedPath} {location : Location} :
    (resolved.behind [name]).Place location ↔
      ∃ inner, location = .key name :: inner ∧ resolved.Place inner := by
  obtain ⟨path, loops, leaf, target, isVirtual⟩ := resolved
  cases loops with
  | nil =>
    rw [place_iff_of_nil rfl]
    simp only [place_iff_of_nil]
    simp [behind]
  | cons loop rest =>
    constructor
    · rintro ⟨⟨entered⟩, hfits, rfl⟩
      cases entered with
      | nil => cases hfits
      | cons first others =>
        obtain ⟨hfirst, hothers⟩ := List.cons.inj hfits
        refine ⟨_, ?_, ⟨⟨loop.access, first.index⟩ :: others⟩,
          congrArg (List.cons loop.access) hothers, rfl⟩
        simp [Cursor.below, Cursor.element, Cursor.Entered.location, hfirst, behind]
    · rintro ⟨inner, rfl, ⟨entered⟩, hfits, rfl⟩
      cases entered with
      | nil => cases hfits
      | cons first others =>
        obtain ⟨hfirst, hothers⟩ := List.cons.inj hfits
        refine ⟨⟨⟨name :: first.access, first.index⟩ :: others⟩,
          congrArg₂ List.cons (congrArg (List.cons name) hfirst) hothers, ?_⟩
        simp [Cursor.below, Cursor.element, Cursor.Entered.location, behind]

end ResolvedPath

namespace Resolver

variable {resolver : Resolver} {path : String} {node : Node}

/-- The attribute of a name, with the level below it if it is nested. -/
def next? (resolver : Resolver) (node : Node) (name : String) :
    Option (AttributeDecl × Option Node) :=
  (node.attribute? name).bind fun decl =>
    match decl.child with
    | none => some (decl, none)
    | some child => (resolver.node? child).map fun child => (decl, some child)

/-- The resolution of names from a level on. -/
@[grind =]
def walk? (resolver : Resolver) (path : String) (node : Node) :
    List String → Option ResolvedPath
  | [] => none
  | name :: rest =>
    if node.isVirtual then
      some
        { path, loops := [], leaf := name :: rest, isVirtual := true
          target := .scalar node.uniqueName (ofSegments (name :: rest)) none }
    else
      match resolver.next? node name with
      | none => none
      | some (decl, none) =>
        match rest with
        | [] =>
          some
            { path, loops := [], leaf := [name], isVirtual := false
              target := .scalar node.uniqueName decl.name decl.scalarType }
        | _ :: _ => none
      | some (_, some child) =>
        match rest with
        | [] =>
          some
            { path, loops := [], leaf := [name], isVirtual := child.isVirtual
              target := .level child.uniqueName child.kind }
        | next :: rest =>
          (walk? resolver path child (next :: rest)).map fun resolved =>
            if child.isArray then resolved.inside [⟨child.uniqueName, [name]⟩]
            else resolved.behind [name]

/-- The ways that names can lead from a level on, one for each case of `walk?`. -/
inductive Walks (resolver : Resolver) (path : String) :
    Node → List String → ResolvedPath → Prop
  | foreign {node : Node} {name : String} {rest : List String} (foreign : node.isVirtual = true) :
      Walks resolver path node (name :: rest)
        { path, loops := [], leaf := name :: rest, isVirtual := true
          target := .scalar node.uniqueName (ofSegments (name :: rest)) none }
  | value {node : Node} {name : String} {decl : AttributeDecl} (declared : node.isVirtual = false)
      (next : resolver.next? node name = some (decl, none)) :
      Walks resolver path node [name]
        { path, loops := [], leaf := [name], isVirtual := false
          target := .scalar node.uniqueName decl.name decl.scalarType }
  | level {node child : Node} {name : String} {decl : AttributeDecl}
      (declared : node.isVirtual = false)
      (next : resolver.next? node name = some (decl, some child)) :
      Walks resolver path node [name]
        { path, loops := [], leaf := [name], isVirtual := child.isVirtual
          target := .level child.uniqueName child.kind }
  | list {node child : Node} {name : String} {rest : List String} {decl : AttributeDecl}
      {below : ResolvedPath} (declared : node.isVirtual = false)
      (next : resolver.next? node name = some (decl, some child)) (array : child.isArray = true)
      (inner : Walks resolver path child rest below) :
      Walks resolver path node (name :: rest) (below.inside [⟨child.uniqueName, [name]⟩])
  | object {node child : Node} {name : String} {rest : List String} {decl : AttributeDecl}
      {below : ResolvedPath} (declared : node.isVirtual = false)
      (next : resolver.next? node name = some (decl, some child)) (object : child.isArray = false)
      (inner : Walks resolver path child rest below) :
      Walks resolver path node (name :: rest) (below.behind [name])

theorem Walks.ne_nil {names : List String} {resolved : ResolvedPath}
    (h : resolver.Walks path node names resolved) : names ≠ [] := by
  cases h <;> exact List.cons_ne_nil _ _

/-- A walk that goes on behind a name goes on from the level below. -/
theorem walk?_cons {name : String} {rest : List String} {decl : AttributeDecl} {child : Node}
    (hdeclared : node.isVirtual = false)
    (hnext : resolver.next? node name = some (decl, some child)) (hrest : rest ≠ []) :
    resolver.walk? path node (name :: rest) =
      (resolver.walk? path child rest).map fun below =>
        if child.isArray then below.inside [⟨child.uniqueName, [name]⟩]
        else below.behind [name] := by
  cases rest with
  | nil => exact absurd rfl hrest
  | cons next rest =>
    rw [walk?, if_neg (by simp [hdeclared])]
    simp only [hnext]

/-- What the function finds is in the relation. -/
theorem walks_of_walk? {names : List String} {resolved : ResolvedPath}
    (h : resolver.walk? path node names = some resolved) :
    resolver.Walks path node names resolved := by
  induction names generalizing node resolved with
  | nil => cases h
  | cons name rest ih =>
    cases hvirtual : node.isVirtual with
    | true =>
      rw [walk?, if_pos hvirtual] at h
      cases h
      exact .foreign hvirtual
    | false =>
      cases rest with
      | nil =>
        rw [walk?, if_neg (by simp [hvirtual])] at h
        split at h
        · cases h
        · next hnext =>
          cases h
          exact .value hvirtual hnext
        · next hnext =>
          cases h
          exact .level hvirtual hnext
      | cons next rest =>
        obtain ⟨decl, child, hnext⟩ : ∃ decl child,
            resolver.next? node name = some (decl, some child) := by
          rw [walk?, if_neg (by simp [hvirtual])] at h
          split at h
          · cases h
          · cases h
          · next decl child hnext => exact ⟨decl, child, hnext⟩
        rw [walk?_cons hvirtual hnext (List.cons_ne_nil next rest)] at h
        obtain ⟨below, hbelow, rfl⟩ := Option.map_eq_some_iff.mp h
        cases harray : child.isArray with
        | true => exact .list hvirtual hnext harray (ih hbelow)
        | false => exact .object hvirtual hnext harray (ih hbelow)

/-- What is in the relation is found. -/
theorem Walks.walk?_eq {names : List String} {resolved : ResolvedPath}
    (h : resolver.Walks path node names resolved) :
    resolver.walk? path node names = some resolved := by
  induction h with
  | foreign foreign => rw [walk?, if_pos foreign]
  | value declared next => simp [walk?, declared, next]
  | level declared next => simp [walk?, declared, next]
  | list declared next array inner ih =>
    rw [walk?_cons declared next inner.ne_nil, ih, array]
    rfl
  | object declared next object inner ih =>
    rw [walk?_cons declared next inner.ne_nil, ih, object]
    rfl

/-- The function and the relation are the same; inductions go along the relation. -/
theorem walk?_eq_some_iff {names : List String} {resolved : ResolvedPath} :
    resolver.walk? path node names = some resolved ↔ resolver.Walks path node names resolved :=
  ⟨walks_of_walk?, Walks.walk?_eq⟩

/-- Following names is a walk from where they start, put behind what was crossed before. -/
theorem toOption_follow {names : List String} {loops : List Loop} {pending : List String} :
    (resolver.follow path node loops pending names).toOption =
      (resolver.walk? path node names).map fun walked =>
        (walked.behind pending).inside loops := by
  induction names generalizing node loops pending with
  | nil => rfl
  | cons name rest ih =>
    unfold follow walk? next?
    cases hvirtual : node.isVirtual with
    | true => simp [ResolvedPath.behind, ResolvedPath.inside, Except.toOption]
    | false =>
      simp only [Bool.false_eq_true, if_false]
      cases node.attribute? name with
      | none => rfl
      | some decl =>
        simp only [Option.bind_some]
        cases decl.child with
        | none => cases rest <;> simp [ResolvedPath.behind, ResolvedPath.inside, Except.toOption]
        | some key =>
          dsimp only
          cases resolver.node? key with
          | none => rfl
          | some child =>
            cases rest with
            | nil => simp [ResolvedPath.behind, ResolvedPath.inside, Except.toOption]
            | cons next rest =>
              simp only [Option.map_some, Option.map_map]
              -- a list closes the names that were pending and starts anew
              cases child.isArray with
              | true =>
                rw [if_pos rfl, ih]
                congr 1
                funext walked
                rw [ResolvedPath.behind_nil]
                simp [ResolvedPath.behind, ResolvedPath.inside]
              | false =>
                rw [if_neg Bool.false_ne_true, ih]
                congr 1
                funext walked
                simp [ResolvedPath.behind_behind]

/-- What a path resolves to is the walk of its names from the root on. -/
theorem toOption_resolve {root : String} : (resolver.resolve root path).toOption =
    if (segments path).any (·.isEmpty) then none
    else (resolver.node? root).bind fun node => resolver.walk? path node (segments path) := by
  unfold resolve
  simp only
  split
  · rfl
  · cases resolver.node? root with
    | none => rfl
    | some node => simp [toOption_follow, ResolvedPath.behind_nil]

/-- The walk of a path that resolves. -/
theorem walk?_of_resolve {root : String} {resolved : ResolvedPath}
    (h : resolver.resolve root path = .ok resolved) :
    ∃ node, resolver.node? root = some node ∧
      resolver.walk? path node (segments path) = some resolved := by
  have hsome := congrArg Except.toOption h
  rw [toOption_resolve] at hsome
  split at hsome
  · cases hsome
  · exact Option.bind_eq_some_iff.mp hsome

/-- A walk has all the names that it was given. -/
theorem walk?_names {names : List String} {resolved : ResolvedPath}
    (h : resolver.walk? path node names = some resolved) : resolved.names = names := by
  rw [walk?_eq_some_iff] at h
  induction h with
  | foreign | value | level => rfl
  | list declared next array inner ih =>
    rw [ResolvedPath.names_inside, ih]
    rfl
  | object declared next object inner ih =>
    rw [ResolvedPath.names_behind, ih]
    rfl

/-- There are names before every list and behind the last one. -/
theorem walk?_ne_nil {names : List String} {resolved : ResolvedPath}
    (h : resolver.walk? path node names = some resolved) :
    resolved.leaf ≠ [] ∧ ∀ loop ∈ resolved.loops, loop.access ≠ [] := by
  rw [walk?_eq_some_iff] at h
  induction h with
  | foreign | value | level => simp
  | list declared next array inner ih =>
    exact ⟨ih.1, List.forall_mem_cons.mpr ⟨List.cons_ne_nil _ [], ih.2⟩⟩
  | @object _ _ name _ _ below declared next object inner ih =>
    obtain ⟨path, loops, leaf, target, isVirtual⟩ := below
    cases loops with
    | nil => exact ⟨List.cons_ne_nil name leaf, by simp [ResolvedPath.behind]⟩
    | cons first others =>
      obtain ⟨-, hothers⟩ := List.forall_mem_cons.mp ih.2
      exact ⟨ih.1, List.forall_mem_cons.mpr ⟨List.cons_ne_nil name first.access, hothers⟩⟩

/-- The path of a walk is no part of it. -/
theorem walk?_path (path' : String) {names : List String} {resolved : ResolvedPath}
    (h : resolver.walk? path node names = some resolved) :
    resolver.walk? path' node names = some { resolved with path := path' } := by
  rw [walk?_eq_some_iff] at h ⊢
  induction h with
  | foreign foreign => exact .foreign foreign
  | value declared next => exact .value declared next
  | level declared next => exact .level declared next
  | list declared next array inner ih => exact .list declared next array ih
  | @object _ _ name _ _ below declared next object inner ih =>
    have hbehind : { below.behind [name] with path := path' } =
        ResolvedPath.behind [name] { below with path := path' } := by
      obtain ⟨path, loops, leaf, target, isVirtual⟩ := below
      cases loops <;> rfl
    rw [hbehind]
    exact .object declared next object ih

/-- Nothing lies below a declared value. -/
theorem walk?_scalar_append {names rest : List String} {resolved : ResolvedPath}
    (h : resolver.walk? path node names = some resolved) (hvirtual : resolved.isVirtual = false)
    (hscalar : resolved.isScalar) (hrest : rest ≠ []) :
    resolver.walk? path node (names ++ rest) = none := by
  rw [walk?_eq_some_iff] at h
  induction h with
  | foreign => cases hvirtual
  | value declared next =>
    obtain ⟨further, others, rfl⟩ := List.exists_cons_of_ne_nil hrest
    simp [walk?, declared, next]
  | level => cases hscalar
  | list declared next array inner ih =>
    rw [List.cons_append, walk?_cons declared next (by simp [hrest]), ih hvirtual hscalar]
    rfl
  | object declared next object inner ih =>
    rw [ResolvedPath.isVirtual_behind] at hvirtual
    rw [ResolvedPath.isScalar_behind] at hscalar
    rw [List.cons_append, walk?_cons declared next (by simp [hrest]), ih hvirtual hscalar]
    rfl

/-- A path that goes on below a level goes through it: into the elements if it is a list,
and as it stands if its shape belongs to another store. -/
theorem walk?_level_append {names rest : List String} {resolved longer : ResolvedPath}
    {key : String} {kind : NodeKind} (h : resolver.walk? path node names = some resolved)
    (htarget : resolved.target = .level key kind) (hrest : rest ≠ [])
    (hlonger : resolver.walk? path node (names ++ rest) = some longer) :
    ∃ child below, resolver.walk? path child rest = some below ∧
      child.isVirtual = resolved.isVirtual ∧ child.kind = kind ∧ child.uniqueName = key ∧
      longer = if kind = .array then below.inside (resolved.loops ++ [⟨key, resolved.leaf⟩])
        else (below.behind resolved.leaf).inside resolved.loops := by
  rw [walk?_eq_some_iff] at h
  induction h generalizing longer with
  | foreign | value => cases htarget
  | @level _ child name decl declared next =>
    rw [List.singleton_append, walk?_cons declared next hrest] at hlonger
    obtain ⟨below, hbelow, rfl⟩ := Option.map_eq_some_iff.mp hlonger
    obtain ⟨rfl, rfl⟩ := Target.level.inj htarget
    refine ⟨child, below, hbelow, rfl, rfl, rfl, ?_⟩
    cases hkind : child.kind <;> simp [Node.isArray, hkind]
  | list declared next array inner ih =>
    rw [List.cons_append, walk?_cons declared next (by simp [hrest])] at hlonger
    obtain ⟨further, hfurther, rfl⟩ := Option.map_eq_some_iff.mp hlonger
    -- the rest of the names goes on behind the level, wherever the walk has come from
    obtain ⟨last, deep, hdeep, hvirtual, hkind, hkey, rfl⟩ := ih htarget hfurther
    refine ⟨last, deep, hdeep, hvirtual, hkind, hkey, ?_⟩
    cases kind <;> simp [array, ResolvedPath.inside]
  | @object _ _ _ _ _ below declared next object inner ih =>
    rw [ResolvedPath.target_behind] at htarget
    rw [List.cons_append, walk?_cons declared next (by simp [hrest])] at hlonger
    obtain ⟨further, hfurther, rfl⟩ := Option.map_eq_some_iff.mp hlonger
    obtain ⟨last, deep, hdeep, hvirtual, hkind, hkey, rfl⟩ := ih htarget hfurther
    refine ⟨last, deep, hdeep, by simp [hvirtual], hkind, hkey, ?_⟩
    obtain ⟨_, loops, leaf, _, _⟩ := below
    obtain ⟨_, loops', leaf', _, _⟩ := deep
    cases kind <;> cases loops <;> cases loops' <;>
      simp [object, ResolvedPath.inside, ResolvedPath.behind]

/-- Below records of another store every path stays there. -/
theorem walk?_virtual_append {path' : String} {names rest : List String}
    {resolved longer : ResolvedPath}
    (h : resolver.walk? path node names = some resolved) (hvirtual : resolved.isVirtual = true)
    (hscalar : resolved.isScalar)
    (hlonger : resolver.walk? path' node (names ++ rest) = some longer) :
    longer.isVirtual = true := by
  rw [walk?_eq_some_iff] at h
  induction h generalizing longer with
  | foreign foreign =>
    rw [List.cons_append, walk?, if_pos foreign] at hlonger
    cases hlonger
    rfl
  | value => cases hvirtual
  | level => cases hscalar
  | list declared next array inner ih =>
    rw [List.cons_append, walk?_cons declared next (by simp [inner.ne_nil]), array] at hlonger
    obtain ⟨below, hbelow, rfl⟩ := Option.map_eq_some_iff.mp hlonger
    show below.isVirtual = true
    exact ih hvirtual hscalar hbelow
  | object declared next object inner ih =>
    rw [List.cons_append, walk?_cons declared next (by simp [inner.ne_nil]), object] at hlonger
    obtain ⟨below, hbelow, rfl⟩ := Option.map_eq_some_iff.mp hlonger
    rw [ResolvedPath.isVirtual_behind] at hvirtual
    rw [ResolvedPath.isScalar_behind] at hscalar
    exact (ResolvedPath.isVirtual_behind _ below).trans (ih hvirtual hscalar hbelow)

/-- More levels know at least the same attributes. -/
theorem next?_mono {bigger : Resolver}
    (hbigger : ∀ name node, resolver.node? name = some node → bigger.node? name = some node)
    {name : String} {pair : AttributeDecl × Option Node}
    (h : resolver.next? node name = some pair) : bigger.next? node name = some pair := by
  obtain ⟨decl, hdecl, h⟩ := Option.bind_eq_some_iff.mp h
  refine Option.bind_eq_some_iff.mpr ⟨decl, hdecl, ?_⟩
  cases hchild : decl.child with
  | none => rwa [hchild] at h
  | some key =>
    rw [hchild] at h
    obtain ⟨child, hknown, heq⟩ := Option.map_eq_some_iff.mp h
    exact Option.map_eq_some_iff.mpr ⟨child, hbigger key child hknown, heq⟩

/-- More levels to go through do not change a walk that succeeds. -/
theorem walk?_mono {bigger : Resolver}
    (hbigger : ∀ name node, resolver.node? name = some node → bigger.node? name = some node)
    {names : List String} {resolved : ResolvedPath}
    (h : resolver.walk? path node names = some resolved) :
    bigger.walk? path node names = some resolved := by
  rw [walk?_eq_some_iff] at h ⊢
  induction h with
  | foreign foreign => exact .foreign foreign
  | value declared next => exact .value declared (next?_mono hbigger next)
  | level declared next => exact .level declared (next?_mono hbigger next)
  | list declared next array inner ih => exact .list declared (next?_mono hbigger next) array ih
  | object declared next object inner ih =>
    exact .object declared (next?_mono hbigger next) object ih

/-- What stands behind an attribute is a known level. -/
theorem node?_of_next? {name : String} {decl : AttributeDecl} {child : Node}
    (h : resolver.next? node name = some (decl, some child)) :
    ∃ key, resolver.node? key = some child := by
  obtain ⟨found, -, h⟩ := Option.bind_eq_some_iff.mp h
  cases hkey : found.child with
  | none =>
    rw [hkey] at h
    cases h
  | some key =>
    rw [hkey] at h
    obtain ⟨known, hknown, heq⟩ := Option.map_eq_some_iff.mp h
    cases heq
    exact ⟨key, hknown⟩

/-- A walk through declared levels ends at a declared value or level. -/
theorem isVirtual_of_walk? (hlevels : ∀ name node, resolver.node? name = some node →
      node.isVirtual = false) {names : List String} {resolved : ResolvedPath}
    (hnode : node.isVirtual = false) (h : resolver.walk? path node names = some resolved) :
    resolved.isVirtual = false := by
  rw [walk?_eq_some_iff] at h
  induction h with
  | foreign foreign =>
    rw [foreign] at hnode
    cases hnode
  | value => rfl
  | level declared next =>
    obtain ⟨key, hknown⟩ := node?_of_next? next
    exact hlevels key _ hknown
  | list declared next array inner ih =>
    obtain ⟨key, hknown⟩ := node?_of_next? next
    exact ih (hlevels key _ hknown)
  | object declared next object inner ih =>
    obtain ⟨key, hknown⟩ := node?_of_next? next
    exact (ResolvedPath.isVirtual_behind _ _).trans (ih (hlevels key _ hknown))

/-! ## The locations of a path -/

/-- The locations that names have in records: an index stands behind the name of every list
that the path enters. -/
inductive Instance (resolver : Resolver) : Node → List String → Location → Prop
  | last {node : Node} (name : String) : Instance resolver node [name] [.key name]
  | list {node child : Node} {decl : AttributeDecl} {name : String} {rest : List String}
      {location : Location} (next : resolver.next? node name = some (decl, some child))
      (array : child.isArray) (index : Nat) (inner : Instance resolver child rest location) :
      Instance resolver node (name :: rest) (.key name :: .index index :: location)
  | object {node child : Node} {decl : AttributeDecl} {name : String} {rest : List String}
      {location : Location} (next : resolver.next? node name = some (decl, some child))
      (object : child.isArray = false) (inner : Instance resolver child rest location) :
      Instance resolver node (name :: rest) (.key name :: location)

/-- A declared path has the locations below the cursors through its lists. -/
theorem instance_iff_of_walk? {names : List String} {resolved : ResolvedPath}
    {location : Location} (h : resolver.walk? path node names = some resolved)
    (hvirtual : resolved.isVirtual = false) :
    Instance resolver node names location ↔ resolved.Place location := by
  rw [walk?_eq_some_iff] at h
  induction h generalizing location with
  | foreign => cases hvirtual
  | value | level =>
    rw [ResolvedPath.place_iff_of_nil rfl]
    constructor
    · intro hinstance
      cases hinstance with
      | last => rfl
      | list _ _ _ inner => cases inner
      | object _ _ inner => cases inner
    · rintro rfl
      exact .last _
  | list declared next array inner ih =>
    rw [ResolvedPath.place_inside_iff]
    constructor
    · intro hinstance
      cases hinstance with
      | last => exact absurd rfl inner.ne_nil
      | list next' _ index deeper =>
        cases Option.some.inj (next.symm.trans next')
        exact ⟨index, _, rfl, (ih hvirtual).mp deeper⟩
      | object next' object _ =>
        cases Option.some.inj (next.symm.trans next')
        rw [array] at object
        cases object
    · rintro ⟨index, deeper, rfl, hplace⟩
      exact .list next array index ((ih hvirtual).mpr hplace)
  | object declared next object inner ih =>
    rw [ResolvedPath.isVirtual_behind] at hvirtual
    rw [ResolvedPath.place_behind_iff]
    constructor
    · intro hinstance
      cases hinstance with
      | last => exact absurd rfl inner.ne_nil
      | list next' array _ _ =>
        cases Option.some.inj (next.symm.trans next')
        rw [object] at array
        cases array
      | object next' _ deeper =>
        cases Option.some.inj (next.symm.trans next')
        exact ⟨_, rfl, (ih hvirtual).mp deeper⟩
    · rintro ⟨deeper, rfl, hplace⟩
      exact .object next object ((ih hvirtual).mpr hplace)

theorem Instance.ne_nil {names : List String} {location : Location}
    (h : Instance resolver node names location) : location ≠ [] := by
  cases h <;> simp

/-- Locations of two paths that are written alike are the same: the levels on the way say
which of their tokens are keys. -/
theorem Instance.eq_of_tokens {names names' : List String} {location location' : Location}
    (h : Instance resolver node names location) (h' : Instance resolver node names' location')
    (hkeys : ∀ a b, Location.escapeKey a = Location.escapeKey b → a = b)
    (hindexes : ∀ i j, Numeral.natText i = Numeral.natText j → i = j)
    (htokens : location.map Location.stepText = location'.map Location.stepText) :
    location = location' := by
  induction h generalizing names' location' with
  | last name =>
    cases h' with
    | last name' =>
      rw [hkeys name name' (List.cons.inj htokens).1]
    | list _ _ _ _ => simp at htokens
    | object _ _ inner =>
      have hempty := (List.cons.inj htokens).2.symm
      exact absurd (List.map_eq_nil_iff.mp hempty) inner.ne_nil
  | list hnext harray index inner ih =>
    cases h' with
    | last name' => simp at htokens
    | list hnext' harray' index' inner' =>
      obtain ⟨hname, hrest⟩ := List.cons.inj htokens
      obtain ⟨hindex, hrest⟩ := List.cons.inj hrest
      -- the same name leads to one level, a list in both walks or an object in both
      cases hkeys _ _ hname
      cases Option.some.inj (hnext.symm.trans hnext')
      rw [hindexes _ _ hindex, ih inner' hrest]
    | object hnext' harray' inner' =>
      cases hkeys _ _ (List.cons.inj htokens).1
      cases Option.some.inj (hnext.symm.trans hnext')
      rw [harray] at harray'
      cases harray'
  | object hnext harray inner ih =>
    cases h' with
    | last name' =>
      have hempty := (List.cons.inj htokens).2
      exact absurd (List.map_eq_nil_iff.mp hempty) inner.ne_nil
    | list hnext' harray' index' inner' =>
      cases hkeys _ _ (List.cons.inj htokens).1
      cases Option.some.inj (hnext.symm.trans hnext')
      rw [harray] at harray'
      cases harray'
    | object hnext' harray' inner' =>
      obtain ⟨hname, hrest⟩ := List.cons.inj htokens
      cases hkeys _ _ hname
      cases Option.some.inj (hnext.symm.trans hnext')
      rw [ih inner' hrest]

end Resolver

end NestedRecord
