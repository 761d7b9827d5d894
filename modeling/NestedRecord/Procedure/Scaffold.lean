import NestedRecord.Path
import NestedRecord.Procedure.Cursor

/-!
# Scaffolds and programs

A procedure is put together from fragments, each to be run at the record or for the
elements of nested lists. Fragments at the same lists share one pass over them.

* `Pass` is such a pass: fragments before it, for every element and after it, and the
  passes over lists inside the elements.
* `Scaffold.add` adds a fragment at the loops it needs; `Scaffold.synthesize` gives the
  finished `Program`, or the reason why the loops do not fit together.
* `Program.run` runs a program. For each element the inner passes come first, so that the
  element's own fragments see what was derived below it.
-/

namespace NestedRecord

/-- A step of a procedure with the text that stands for it in plans; `F` is what is
done. -/
structure Fragment (F : Type) where
  label : String
  action : F

/-- A pass over the elements of a list, or over the record as a whole. -/
inductive Pass (F : Type) where
  | mk (pre body post : List (Fragment F)) (inner : List (Loop × Pass F))

namespace Pass

variable {F : Type}

def pre : Pass F → List (Fragment F)
  | .mk pre _ _ _ => pre

def body : Pass F → List (Fragment F)
  | .mk _ body _ _ => body

def post : Pass F → List (Fragment F)
  | .mk _ _ post _ => post

def inner : Pass F → List (Loop × Pass F)
  | .mk _ _ _ inner => inner

def empty : Pass F := .mk [] [] [] []

def isEmpty (pass : Pass F) : Bool :=
  pass.pre.isEmpty && pass.body.isEmpty && pass.post.isEmpty && pass.inner.isEmpty

end Pass

/-- When a fragment is run: before a pass, for every element, or after it. -/
inductive Bucket where
  | pre
  | body
  | post
deriving DecidableEq

/-- Adds a fragment at the end of a bucket. -/
def Pass.push {F : Type} (bucket : Bucket) (fragment : Fragment F) : Pass F → Pass F
  | .mk pre body post inner =>
    match bucket with
    | .pre => .mk (pre ++ [fragment]) body post inner
    | .body => .mk pre (body ++ [fragment]) post inner
    | .post => .mk pre body (post ++ [fragment]) inner

/-- Why a scaffold is no program, with its plan. -/
structure BuildFailure where
  cause : String
  plan : String
deriving DecidableEq

/-- A procedure that is being put together. -/
structure Scaffold (F : Type) where
  name : String
  root : Pass F := .empty
  /-- what does not fit together, oldest first -/
  conflicts : List String := []

/-! ## Building -/

namespace Pass

variable {F : Type}

/-- Changes the pass over the list of a key, which is added if there is none yet. A list
reached through other names than before is a conflict. -/
def editInner (edit : Pass F → Pass F × List String) (loop : Loop) :
    List (Loop × Pass F) → List (Loop × Pass F) × List String
  | [] =>
    let (pass, conflicts) := edit .empty
    ([(loop, pass)], conflicts)
  | (known, pass) :: rest =>
    if known.key = loop.key then
      let (pass, conflicts) := edit pass
      let conflict :=
        if known = loop then []
        else ["loop '" ++ loop.key ++ "' reached through different accesses"]
      -- the names by which the list was reached first are kept
      ((known, pass) :: rest, conflict ++ conflicts)
    else
      let (rest, conflicts) := editInner edit loop rest
      ((known, pass) :: rest, conflicts)

/-- Changes the pass that loops lead to. -/
def edit (f : Pass F → Pass F) : List Loop → Pass F → Pass F × List String
  | [], pass => (f pass, [])
  | loop :: rest, .mk pre body post inner =>
    let (inner, conflicts) := editInner (edit f rest) loop inner
    (.mk pre body post inner, conflicts)

end Pass

namespace Scaffold

variable {F : Type}

/-- Changes the pass that loops lead to and notes what does not fit. -/
def edit (scaffold : Scaffold F) (loops : List Loop) (f : Pass F → Pass F) : Scaffold F :=
  let (root, conflicts) := scaffold.root.edit f loops
  { scaffold with root, conflicts := scaffold.conflicts ++ conflicts }

/-- Makes sure that there is a pass where loops lead to. -/
def reach (scaffold : Scaffold F) (loops : List Loop) : Scaffold F := scaffold.edit loops id

/-- Adds a fragment to the pass that loops lead to. -/
def add (scaffold : Scaffold F) (loops : List Loop) (bucket : Bucket) (label : String)
    (action : F) : Scaffold F :=
  scaffold.edit loops (Pass.push bucket ⟨label, action⟩)

end Scaffold

/-! ## Plans -/

namespace Pass

variable {F : Type}

/-- A line of a plan. -/
def line (indent : Nat) (text : String) : String :=
  String.ofList (List.replicate (2 * indent) ' ') ++ text ++ "\n"

/-- The fragments of a bucket, one a line. -/
def bucketText (indent : Nat) (bucket : String) (fragments : List (Fragment F)) : String :=
  String.join (fragments.map fun fragment => line indent (bucket ++ ": " ++ fragment.label))

mutual

/-- The lines of a pass: its fragments, then the passes inside. -/
def render (indent : Nat) : Pass F → String
  | .mk pre body post inner =>
    bucketText indent "pre" pre ++ bucketText indent "body" body ++
      bucketText indent "post" post ++ renderInner indent inner
termination_by structural pass => pass

/-- The lines of passes over lists. -/
def renderInner (indent : Nat) : List (Loop × Pass F) → String
  | [] => ""
  | (loop, pass) :: rest =>
    line indent ("for " ++ loop.key ++ " in ." ++ ofSegments loop.access ++ ":") ++
      render (indent + 1) pass ++ renderInner indent rest
termination_by structural inner => inner

end

mutual

/-- The first loop without names to its list, outer ones before inner ones. -/
def unreachable? : Pass F → Option String
  | .mk _ _ _ inner => unreachableInner? inner
termination_by structural pass => pass

/-- The first such loop among passes over lists. -/
def unreachableInner? : List (Loop × Pass F) → Option String
  | [] => none
  | (loop, pass) :: rest =>
    let found := if loop.access.isEmpty then some loop.key else unreachable? pass
    match found with
    | some key => some key
    | none => unreachableInner? rest
termination_by structural inner => inner

end

mutual

/-- The pass without inner passes that do nothing. -/
def prune : Pass F → Pass F
  | .mk pre body post inner => .mk pre body post (pruneInner inner)
termination_by structural pass => pass

/-- Passes over lists without those that do nothing. -/
def pruneInner : List (Loop × Pass F) → List (Loop × Pass F)
  | [] => []
  | (loop, pass) :: rest =>
    let pruned := prune pass
    -- a pass may do nothing only once the passes inside it are gone
    if pruned.isEmpty then pruneInner rest else (loop, pruned) :: pruneInner rest
termination_by structural inner => inner

end

end Pass

/-- A finished procedure. -/
structure Program (F : Type) where
  name : String
  root : Pass F
  plan : String

namespace Scaffold

variable {F : Type}

/-- The plan of the procedure as far as it has been put together. -/
def render (scaffold : Scaffold F) : String :=
  "procedure " ++ scaffold.name ++ ":\n" ++ scaffold.root.render 1

/-- The finished procedure, without passes that do nothing. -/
def synthesize (scaffold : Scaffold F) : Except BuildFailure (Program F) :=
  match scaffold.conflicts with
  | conflict :: _ => .error ⟨conflict, scaffold.render⟩
  | [] =>
    match scaffold.root.unreachable? with
    | some key => .error ⟨"loop '" ++ key ++ "' has no access path", scaffold.render⟩
    | none =>
      let pruned := { scaffold with root := scaffold.root.prune }
      .ok ⟨scaffold.name, pruned.root, pruned.render⟩

end Scaffold

def Program.isEmpty {F : Type} (program : Program F) : Bool := program.root.isEmpty

end NestedRecord
