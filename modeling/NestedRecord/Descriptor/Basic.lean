import NestedRecord.Fault
import NestedRecord.Json.Basic

/-!
# Descriptors

A descriptor declares a store: an ordered list of attributes, each with a tuple of
directives. A directive may hold the descriptor of a nested object.

* `Handler` is a function embedded in a descriptor.
* `Directive` and `Attribute` are parametric in what stands for a nested descriptor,
  so that `Descriptor.fold` can replace the innermost descriptors first.
* `Descriptor.ofJson` reads a descriptor without handlers.
-/

namespace NestedRecord

/-- A function embedded in a descriptor. It gets a value and a context and may fail
with a reason. -/
abbrev Handler := Json → Json → Except String Json

/-- One element of a tuple; `ν` stands for nested descriptors. -/
inductive Directive (ν : Type) where
  /-- a word, to be classified by its position -/
  | word (text : String)
  /-- a literal that is not a text -/
  | literal (value : Json)
  | handler (handler : Handler)
  | nested (descriptor : ν)

/-- What is declared under a name; `ν` stands for nested descriptors. -/
inductive Attribute (ν : Type) where
  | tuple (directives : List (Directive ν))
  /-- a text where a tuple is expected -/
  | bare (text : String)
  /-- a value of another kind where a tuple is expected -/
  | malformed (kind : String)

/-- The declaration of a store or of a nested object. -/
inductive Descriptor where
  | mk (attributes : List (String × Attribute Descriptor))

instance {ν : Type} : Inhabited (Directive ν) := ⟨.literal .null⟩

instance {ν : Type} : Inhabited (Attribute ν) := ⟨.tuple []⟩

instance : Inhabited Descriptor := ⟨.mk []⟩

namespace Descriptor

def attributes : Descriptor → List (String × Attribute Descriptor)
  | .mk attributes => attributes

mutual

/-- Replaces every descriptor, from the innermost ones outward, by what `level` makes
of its attributes. -/
def fold {ν : Type} (level : List (String × Attribute ν) → ν) : Descriptor → ν
  | .mk attributes => level (foldAttributes level attributes)
termination_by structural descriptor => descriptor

/-- The attributes with their nested descriptors replaced. -/
def foldAttributes {ν : Type} (level : List (String × Attribute ν) → ν) :
    List (String × Attribute Descriptor) → List (String × Attribute ν)
  | [] => []
  | (name, attr) :: rest => (name, foldAttribute level attr) :: foldAttributes level rest
termination_by structural attributes => attributes

/-- One attribute with its nested descriptors replaced. -/
def foldAttribute {ν : Type} (level : List (String × Attribute ν) → ν) :
    Attribute Descriptor → Attribute ν
  | .tuple directives => .tuple (foldDirectives level directives)
  | .bare text => .bare text
  | .malformed kind => .malformed kind
termination_by structural attr => attr

/-- The directives with their nested descriptors replaced. -/
def foldDirectives {ν : Type} (level : List (String × Attribute ν) → ν) :
    List (Directive Descriptor) → List (Directive ν)
  | [] => []
  | directive :: rest => foldDirective level directive :: foldDirectives level rest
termination_by structural directives => directives

/-- One directive with its nested descriptor replaced. -/
def foldDirective {ν : Type} (level : List (String × Attribute ν) → ν) :
    Directive Descriptor → Directive ν
  | .word text => .word text
  | .literal value => .literal value
  | .handler handler => .handler handler
  | .nested descriptor => .nested (fold level descriptor)
termination_by structural directive => directive

end

/-! ## Reading -/

mutual

/-- A tuple element: a text is a word, an object a nested descriptor, and anything
else a literal. -/
def directiveOfJson : Json → Directive Descriptor
  | .string text => .word text
  | .object members => .nested (.mk (attributesOfMembers members))
  | .null => .literal .null
  | .bool b => .literal (.bool b)
  | .number n => .literal (.number n)
  | .array items => .literal (.array items)
termination_by structural value => value

/-- The elements of a tuple. -/
def directivesOfItems : List Json → List (Directive Descriptor)
  | [] => []
  | item :: rest => directiveOfJson item :: directivesOfItems rest
termination_by structural items => items

/-- What is declared under a name: a list is a tuple, anything else is refused when
the descriptor is compiled. -/
def attributeOfJson : Json → Attribute Descriptor
  | .array items => .tuple (directivesOfItems items)
  | .string text => .bare text
  | value => .malformed value.kindName
termination_by structural value => value

/-- The attributes of an object, in order. -/
def attributesOfMembers : List (String × Json) → List (String × Attribute Descriptor)
  | [] => []
  | (name, value) :: rest => (name, attributeOfJson value) :: attributesOfMembers rest
termination_by structural members => members

end

/-- Reads a descriptor without handlers. -/
def ofJson : Json → Except Fault Descriptor
  | .object members => .ok (.mk (attributesOfMembers members))
  | _ => .error (.configuration "*" "$root" "descriptor must be an object")

end Descriptor

end NestedRecord
