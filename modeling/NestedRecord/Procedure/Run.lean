import NestedRecord.Procedure.Scaffold

/-!
# Running programs

* `Machine` says what a fragment does to a state at a position of the record.
* `Program.run` runs a program: the fragments before a pass, then for every element the
  inner passes and the element's fragments, then those after the pass. Nothing more is
  done once the state is settled.

A pass visits the elements that its list holds when it is entered, as long as they are
there.
-/

namespace NestedRecord

/-- What fragments work on. -/
structure Machine (F σ : Type) where
  /-- what a fragment does at a position of the record -/
  act : F → Cursor → σ → σ
  /-- the record that is worked on -/
  record : σ → Json
  /-- whether nothing more is to be done -/
  isSettled : σ → Bool := fun _ => false

namespace Machine

variable {F σ : Type}

/-- Runs fragments one after the other, until the state is settled. -/
def runFragments (machine : Machine F σ) (cursor : Cursor) : List (Fragment F) → σ → σ
  | [], state => state
  | fragment :: rest, state =>
    if machine.isSettled state then state
    else runFragments machine cursor rest (machine.act fragment.action cursor state)

/-- Repeats a step for successive numbers, at most `fuel` times, until it declines. -/
def iterate (step : Nat → σ → Option σ) : Nat → Nat → σ → σ
  | 0, _, state => state
  | fuel + 1, index, state =>
    match step index state with
    | none => state
    | some state => iterate step fuel (index + 1) state

/-- The number of elements that the list of a loop holds at present. -/
def size (machine : Machine F σ) (cursor : Cursor) (loop : Loop) (state : σ) : Nat :=
  match cursor.get? (machine.record state) loop.access with
  | some (.array items) => items.length
  | _ => 0

mutual

/-- Runs a pass over the list of a loop, from an element that holds the list. -/
def runPass (machine : Machine F σ) (cursor : Cursor) (loop : Loop) : Pass F → σ → σ
  | .mk pre body post inner, state =>
    let state := machine.runFragments cursor pre state
    let visit (index : Nat) (state : σ) : Option σ :=
      -- the list is measured again: a fragment may have replaced it by a shorter one
      if machine.isSettled state || decide (machine.size cursor loop state ≤ index) then none
      else
        let element := cursor.enter loop.access index
        some (machine.runFragments element body (runInner machine element inner state))
    let state := iterate visit (machine.size cursor loop state) 0 state
    machine.runFragments cursor post state
termination_by structural pass => pass

/-- Runs passes over lists one after the other. -/
def runInner (machine : Machine F σ) (cursor : Cursor) : List (Loop × Pass F) → σ → σ
  | [], state => state
  | (loop, pass) :: rest, state =>
    runInner machine cursor rest (runPass machine cursor loop pass state)
termination_by structural inner => inner

end

end Machine

/-- Runs a program from the record as a whole. -/
def Program.run {F σ : Type} (program : Program F) (machine : Machine F σ) (state : σ) : σ :=
  let state := machine.runFragments {} program.root.pre state
  let state := machine.runInner {} program.root.inner state
  let state := machine.runFragments {} program.root.body state
  machine.runFragments {} program.root.post state

end NestedRecord
