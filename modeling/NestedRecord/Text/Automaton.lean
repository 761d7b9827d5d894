import NestedRecord.Text.Folding

/-!
# Automata over bytes

Text is matched byte by byte in UTF-8. A set of characters then is a set of byte sequences,
and an automaton for it is as large as its states and the ways between them. An automaton
that reads forward makes one state of all that continue alike; one that reads backward
branches once, into a chain for every sequence, and chains share what they end with.

* `byteSequences` are the sequences of given characters, `everySequence` those of all.
* `AutomatonSize` is the size of a pair of automata, one in each direction, in bytes. It is
  counted as the matching library counts what it builds, on a machine with words of 64 bits,
  to tell whether an automaton keeps to its limit: `state`, `edge` and `branch` are the sizes
  of the library's own records, and the number of states is that of its own construction.
* `AutomatonSize.ofChars` is the size for a set of characters: `anyChar_eq` says how much
  the set of all characters takes.
-/

namespace NestedRecord

namespace Text

/-- The bytes from a first to a last. -/
abbrev ByteRange := Nat × Nat

/-- One byte after the other, each in a range. -/
abbrev ByteSequence := List ByteRange

/-- Puts the bytes of a character before the sequences of greater ones. Two that differ in
their last bytes only, and there by a step, are one sequence. -/
def joinSequence (bytes : List Nat) (sequences : List ByteSequence) : List ByteSequence :=
  let front : ByteSequence := bytes.dropLast.map fun byte => (byte, byte)
  let last := bytes.getLast?.getD 0
  match sequences with
  | next :: rest =>
    match next.getLast? with
    | some (low, high) =>
      if next.dropLast = front ∧ low = last + 1 then (front ++ [(last, high)]) :: rest
      else (front ++ [(last, last)]) :: next :: rest
    | none => (front ++ [(last, last)]) :: next :: rest
  | [] => [front ++ [(last, last)]]

/-- The byte sequences of characters that are given in order. -/
def byteSequences (chars : List Char) : List ByteSequence :=
  chars.foldr (fun c => joinSequence ((String.utf8EncodeChar c).map (·.toNat))) []

/-- The byte sequences of all characters. -/
def everySequence : List ByteSequence :=
  let next : ByteRange := (0x80, 0xBF)
  [[(0x00, 0x7F)],
   [(0xC2, 0xDF), next],
   [(0xE0, 0xE0), (0xA0, 0xBF), next],
   [(0xE1, 0xEC), next, next],
   [(0xED, 0xED), (0x80, 0x9F), next],
   [(0xEE, 0xEF), next, next],
   [(0xF0, 0xF0), (0x90, 0xBF), next, next],
   [(0xF1, 0xF3), next, next, next],
   [(0xF4, 0xF4), (0x80, 0x8F), next, next]]

/-- The ways in which sequences begin, each once. -/
def beginnings (sequences : List ByteSequence) : List ByteSequence :=
  (sequences.flatMap fun sequence =>
    (List.range sequence.length).map fun n => sequence.take (n + 1)).eraseDups

/-- How the sequences with a given beginning go on. -/
def continuations (sequences : List ByteSequence) (beginning : ByteSequence) :
    List ByteSequence :=
  sequences.filterMap fun sequence =>
    if beginning.isPrefixOf sequence && decide (beginning.length < sequence.length) then
      some (sequence.drop beginning.length)
    else none

/-- The different ways in which sequences go on after some beginning. -/
def continuationStates (sequences : List ByteSequence) : List (List ByteSequence) :=
  ((([] :: beginnings sequences).map (continuations sequences)).filter
    fun state => !state.isEmpty).eraseDups

end Text

/-- The sizes, in bytes, of an automaton that reads forward and of one that reads backward. -/
structure AutomatonSize where
  forward : Nat
  backward : Nat
deriving DecidableEq

namespace AutomatonSize

open Text

/-- What a state takes: a record of four words, whatever kind of state it is. -/
def state : Nat := 32

/-- What a way on takes when it has a byte range of its own: the two ends of the range and the
number of the state that it leads to, which has four bytes and is aligned. -/
def edge : Nat := 8

/-- What a way on takes when it reads nothing: the number of a state. -/
def branch : Nat := 4

instance : Add AutomatonSize := ⟨fun a b => ⟨a.forward + b.forward, a.backward + b.backward⟩⟩

/-- A pair of automata of one size. -/
def both (size : Nat) : AutomatonSize := ⟨size, size⟩

/-- Automata for byte sequences that differ in length or are longer than one byte. -/
def ofSequences (sequences : List ByteSequence) : AutomatonSize where
  forward :=
    (continuationStates sequences).foldl (fun size continuing =>
      size + state + edge * (continuing.map List.head?).eraseDups.length) state
  backward :=
    2 * state + branch * sequences.length + state * (beginnings sequences).length

/-- Automata for one out of a set of characters that are given in order. A single character
needs a state for each byte, and ASCII characters share one state. -/
def ofChars : List Char → AutomatonSize
  | [c] => both (state * c.utf8Size)
  | chars =>
    let sequences := byteSequences chars
    if sequences.all fun sequence => sequence.length == 1 then
      both (2 * state + edge * sequences.length)
    else ofSequences sequences

/-- Automata for any character. -/
def anyChar : AutomatonSize := ofSequences everySequence

/-- Reading backward costs more than twice as much, since chains share only their ends. -/
theorem anyChar_eq : anyChar = ⟨416, 964⟩ := by decide

/-- Automata for a run of what given automata match: one more state, with a way in and
a way on. -/
def run (size : AutomatonSize) : AutomatonSize := both (state + 2 * branch) + size

end AutomatonSize

end NestedRecord
