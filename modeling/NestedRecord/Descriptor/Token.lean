import NestedRecord.Aggregate.Kind
import NestedRecord.Descriptor.Hook
import NestedRecord.Dotted

/-!
# Tokens of a tuple

The directives of a tuple are read from left to right. A word is classified by its
text, and some words take the directives behind them as operands.

* `Token` is a classified directive together with its operands.
* `Word.classify` says what a word is and whether it takes an operand.
* `Token.ofDirectives` reads a tuple: one token after the other, up to the first
  directive that breaks a rule.
-/

namespace NestedRecord

/-- Whether a nested attribute holds one object or a list of them. -/
inductive NodeKind where
  | object
  | array
deriving DecidableEq

/-- The side on which a bound stands. -/
inductive BoundSide where
  | min
  | max
deriving DecidableEq

/-- A classified directive; `ν` stands for nested descriptors. -/
inductive Token (ν : Type) where
  | type (type : ScalarType)
  | conversion (conversion : Conversion)
  | nesting (kind : NodeKind)
  | optional
  | bound (side : BoundSide) (value : Json)
  /-- a fold over the values at a path -/
  | aggregate (op : AggregateOp) (path : String) (transformer : Option Handler)
  /-- a storage column -/
  | column (name : String) (primary : Bool)
  /-- records of another store, or one attribute of them -/
  | join (store : String) (path : Option String)
  | reference (store : String)
  | hook (kind : HookKind) (hook : Hook)
  /-- a handler that no word takes -/
  | handler (handler : Handler)
  /-- a literal that no word takes -/
  | literal (value : Json)
  | nested (descriptor : ν)

/-- A word that takes an operand. -/
inductive OperandWord where
  | hook (kind : HookKind)
  | reference
  | bound (side : BoundSide)
  | aggregate (op : AggregateOp)

namespace BoundSide

def keyword : BoundSide → String
  | .min => "min"
  | .max => "max"

/-- The aggregate of the same keyword. -/
def op : BoundSide → AggregateOp
  | .min => .min
  | .max => .max

end BoundSide

/-- What a word is. -/
inductive Word (ν : Type) where
  | token (token : Token ν)
  | operand (word : OperandWord)
  | malformed (rule : String)

/-- The text between an opening and a closing bracket, if it is not empty and holds
no bracket itself. -/
def bracketed? (opening closing text : List Char) : Option String :=
  match after? opening text with
  | none => none
  | some rest =>
    match after? closing.reverse rest.reverse with
    | none => none
    | some inner =>
      if inner.isEmpty || inner.contains '<' || inner.contains '>' then none
      else some (String.ofList inner.reverse)

/-- Cuts `orders.amount` into the store and the path below it. -/
def splitMarker (marker : List Char) : Except String (String × Option String) :=
  let (store, path) :=
    match splitFirst? '.' marker with
    | some (store, path) => (store, some path)
    | none => (marker, none)
  if store.isEmpty || path == some [] then
    .error ("malformed join marker '@" ++ String.ofList marker ++ "'")
  else .ok (String.ofList store, path.map String.ofList)

/-- What a text is that is none of the reserved words. -/
def Word.ofText {ν : Type} (text : String) : Word ν :=
  let cs := text.toList
  match bracketed? ['<', '<'] ['>', '>'] cs with
  | some name => .token (.column name true)
  | none =>
  match bracketed? ['<'] ['>'] cs with
  | some name => .token (.column name false)
  | none =>
  match after? ['@'] cs with
  | some marker =>
    match splitMarker marker with
    | .ok (store, path) => .token (.join store path)
    | .error rule => .malformed rule
  | none =>
  match ScalarType.ofToken? text with
  | some type => .token (.type type)
  | none =>
  match Conversion.ofToken? text with
  | some conversion => .token (.conversion conversion)
  | none => .token (.literal (.string text))

/-- What a word is. -/
def Word.classify {ν : Type} (text : String) : Word ν :=
  match text with
  | "array" => .token (.nesting .array)
  | "object" => .token (.nesting .object)
  | "optional" => .token .optional
  | "onValidate" => .operand (.hook .validate)
  | "onTransform" => .operand (.hook .transform)
  | "ref" => .operand .reference
  | "min" => .operand (.bound .min)
  | "max" => .operand (.bound .max)
  | text =>
    match AggregateOp.ofToken? text with
    | some op => .operand (.aggregate op)
    | none => Word.ofText text

namespace OperandWord

/-- The rule that is broken when the operand is missing or of the wrong kind. -/
def rule : OperandWord → String
  | .hook kind => "'" ++ kind.keyword ++ "' must be followed by a handler or a literal"
  | .reference => "'ref' must be followed by '@store'"
  | .bound side => "'" ++ side.keyword ++ "' must be followed by a bound or a source path"
  | .aggregate op => "aggregate '" ++ op.keyword ++ "' must be followed by a source path"

/-- The store that a reference names: `@store` without a path. -/
def referenced? (text : String) : Option String :=
  (after? ['@'] text.toList).bind fun store =>
    if store.isEmpty || store.contains '.' then none else some (String.ofList store)

/-- What a word and its operand are together: a complete token, or an aggregate with
its source path, behind which a handler may still follow. -/
def take {ν : Type} (word : OperandWord) (operand : Directive ν) :
    Except String (Token ν ⊕ (AggregateOp × String)) :=
  match word, operand with
  | .hook kind, .handler handler => .ok (.inl (.hook kind (.handler handler)))
  | .hook kind, .literal value => .ok (.inl (.hook kind (.literal value)))
  | .hook kind, .word text => .ok (.inl (.hook kind (.literal (.string text))))
  | .reference, .word text =>
    match referenced? text with
    | some store => .ok (.inl (.reference store))
    | none => .error ("'ref' must be followed by '@store', found '" ++ text ++ "'")
  | .bound side, .word text =>
    match Conversion.numeral? text with
    | some n => .ok (.inl (.bound side (.ofDouble n)))
    -- what is no numeral is the source of the aggregate with the same keyword
    | none =>
      if text.isEmpty then .error (OperandWord.aggregate side.op).rule
      else .ok (.inr (side.op, text))
  | .bound side, .literal value => .ok (.inl (.bound side value))
  | .aggregate op, .word text =>
    if text.isEmpty then .error (OperandWord.aggregate op).rule else .ok (.inr (op, text))
  | word, _ => .error word.rule

end OperandWord

namespace Token

/-- The tokens of a tuple in order. Reading ends at the first directive that breaks a
rule, and that rule is then the last element. -/
def ofDirectives {ν : Type} : List (Directive ν) → List (Except String (Token ν))
  | [] => []
  | .literal value :: rest => .ok (.literal value) :: ofDirectives rest
  | .handler call :: rest => .ok (.handler call) :: ofDirectives rest
  | .nested inner :: rest => .ok (.nested inner) :: ofDirectives rest
  | .word text :: rest =>
    match Word.classify text with
    | .malformed rule => [.error rule]
    | .token token => .ok token :: ofDirectives rest
    | .operand word =>
      match rest with
      | [] => [.error word.rule]
      | operand :: rest =>
        match word.take operand with
        | .error rule => [.error rule]
        | .ok (.inl token) => .ok token :: ofDirectives rest
        | .ok (.inr (op, path)) =>
          match rest with
          -- a handler right behind the source path is its transformer
          | .handler call :: rest =>
            .ok (.aggregate op path (some call)) :: ofDirectives rest
          | rest => .ok (.aggregate op path none) :: ofDirectives rest
termination_by structural directives => directives

end Token

end NestedRecord
