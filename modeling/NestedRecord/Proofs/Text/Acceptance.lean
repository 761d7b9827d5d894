import Mathlib.Algebra.Order.BigOperators.Group.List
import Mathlib.Algebra.Order.Ring.Nat
import Mathlib.Data.List.Perm.Subperm
import NestedRecord.Proofs.Sorting
import NestedRecord.Text.Like

/-!
# Patterns that are small enough

A pattern is refused when the automata for it would be too large. Their sizes are those of the
items, added up, and of a frame around them; so what counts is which characters a pattern has, and
not how they follow each other.

How much one item takes is known for runs and single characters without a case of their own. For
all others it is bounded: at most four characters are the same up to case, each of at most four
bytes, and no automaton for so few short sequences is larger than the one for a run. So a run is
the largest item of all, and a state of its own is the least that any item takes. That leaves a
range in which the length of a pattern does not decide yet.

- `Like.isAccepted_iff`: the sum that is compared with the limit.
- `Like.isAccepted_of_subperm`: a pattern with fewer characters, in any order, is accepted with the
  pattern.
- `Text.length_foldMates_le`: at most four characters fold alike. The ranges of the folding table
  are swept from one start to the next.
- `AutomatonSize.atMost_ofChars`, `Like.Item.atMost_size`: what one item takes at most.
- `Like.isAccepted_of_length_le` and `Like.length_le_of_isAccepted`: all patterns of up to 10443
  characters are accepted, none of more than 327674. `Like.isAccepted_runs_iff`: the first number
  could not be greater.
-/

namespace NestedRecord

/-! ## Distinct elements -/

section Distinct

variable {α : Type} [BEq α]

/-- Only elements are taken out. -/
theorem eraseDups_sublist : ∀ xs : List α, xs.eraseDups.Sublist xs
  | [] => .slnil
  | x :: xs => by
    have hshorter : (xs.filter fun other => !other == x).length < xs.length + 1 :=
      Nat.lt_succ_of_le (List.length_filter_le _ _)
    rw [List.eraseDups_cons]
    exact ((eraseDups_sublist _).trans List.filter_sublist).cons_cons x
termination_by xs => xs.length

/-- No element is left twice. -/
theorem nodup_eraseDups [LawfulBEq α] : ∀ xs : List α, xs.eraseDups.Nodup
  | [] => List.nodup_nil
  | x :: xs => by
    have hshorter : (xs.filter fun other => !other == x).length < xs.length + 1 :=
      Nat.lt_succ_of_le (List.length_filter_le _ _)
    rw [List.eraseDups_cons, List.nodup_cons]
    refine ⟨fun hmem => ?_, nodup_eraseDups _⟩
    simp [List.mem_eraseDups] at hmem
termination_by xs => xs.length

end Distinct

/-! ## Characters that fold alike -/

namespace Text

/-- Whether a place lies in a range of code points, the ends included. -/
def within (place : Nat) (range : Nat × Nat) : Bool :=
  decide (range.1 ≤ place) && decide (place ≤ range.2)

/-- Goes through ranges in the order of their starts with the ends of those that have not ended yet,
and tells whether these are never more than a number. -/
def sweep (bound : Nat) (ends : List Nat) : List (Nat × Nat) → Bool
  | [] => true
  | (first, last) :: rest =>
    let going := last :: ends.filter (decide <| first ≤ ·)
    decide (going.length ≤ bound) && sweep bound going rest

/-- No place lies in more ranges than a sweep has found to go on together. -/
theorem countP_within_le_of_sweep {bound : Nat} {ranges : List (Nat × Nat)} {ends : List Nat}
    (hsorted : ranges.Pairwise fun range later => range.1 ≤ later.1) (hends : ends.length ≤ bound)
    (h : sweep bound ends ranges = true) (place : Nat) :
    ends.countP (decide <| place ≤ ·) + ranges.countP (within place) ≤ bound := by
  induction ranges generalizing ends with
  | nil => exact (List.countP_le_length).trans hends
  | cons range rest ih =>
    obtain ⟨first, last⟩ := range
    obtain ⟨hfirst, hrest⟩ := List.pairwise_cons.mp hsorted
    simp only [sweep, Bool.and_eq_true, decide_eq_true_eq] at h
    obtain ⟨hgoing, hswept⟩ := h
    by_cases hplace : first ≤ place
    · -- what has ended before the range starts has ended before the place, too
      have hkept : (ends.filter (decide <| first ≤ ·)).countP (decide <| place ≤ ·) =
          ends.countP (decide <| place ≤ ·) := by
        rw [List.countP_filter]
        refine List.countP_congr fun last _ => ?_
        simp only [Bool.and_eq_true, decide_eq_true_eq]
        omega
      have hlater := ih hrest hgoing hswept
      rw [List.countP_cons, hkept] at hlater
      simp only [List.countP_cons, within, hplace, decide_true, Bool.true_and] at hlater ⊢
      omega
    · -- neither this range nor a later one has started
      have hnone : ((first, last) :: rest).countP (within place) = 0 := by
        refine List.countP_eq_zero.mpr fun range hmem => ?_
        have hstart : first ≤ range.1 := by
          rcases List.mem_cons.mp hmem with rfl | hmem
          · exact Nat.le_refl first
          · exact hfirst range hmem
        simp only [within, Bool.and_eq_true, decide_eq_true_eq]
        omega
      rw [hnone]
      exact (List.countP_le_length).trans hends

/-- From where to where the code points of the ranges are moved. -/
def foldedRanges : List (Nat × Nat) :=
  foldingRanges.map fun (first, last, _, distance) =>
    ((first + distance).toNat, (last + distance).toNat)

/-- At most three ranges are moved over one another. -/
theorem countP_foldedRanges_le (code : Nat) : foldedRanges.countP (within code) ≤ 3 := by
  have hswept : sweep 3 [] (stableSort (fun range later => decide (range.1 ≤ later.1))
      foldedRanges) = true := by
    decide +kernel
  have htrans (a b c : Nat × Nat) (hab : decide (a.1 ≤ b.1) = true)
      (hbc : decide (b.1 ≤ c.1) = true) : decide (a.1 ≤ c.1) = true :=
    decide_eq_true (Nat.le_trans (of_decide_eq_true hab) (of_decide_eq_true hbc))
  have htotal (a b : Nat × Nat) (h : decide (a.1 ≤ b.1) = false) :
      decide (b.1 ≤ a.1) = true :=
    decide_eq_true (Nat.le_of_not_le (of_decide_eq_false h))
  have hsorted := pairwise_stableSort htrans htotal foldedRanges
  have hcount := countP_within_le_of_sweep (hsorted.imp fun h => by simpa using h)
    (Nat.zero_le 3) hswept code
  rwa [List.countP_nil, Nat.zero_add, (stableSort_perm _ _).countP_eq] at hcount

/-- No range of the table starts at zero. -/
theorem foldingRanges_pos : ∀ range ∈ foldingRanges, 0 < range.1 := by decide +kernel

/-- A character is the same up to case as three others at most. -/
theorem length_unfoldCode_le (folded : Nat) : (unfoldCode folded).length ≤ 4 := by
  rw [unfoldCode, (stableSort_perm _ _).length_eq, List.length_cons]
  refine Nat.succ_le_succ (le_trans ?_ (countP_foldedRanges_le folded))
  rw [List.length_filterMap_eq_countP, foldedRanges, List.countP_map]
  refine List.countP_mono_left fun range hrange hsome => ?_
  obtain ⟨first, last, step, distance⟩ := range
  have hpos : 0 < first := foldingRanges_pos _ hrange
  -- a code point of the range is not zero, so that nothing has been cut off below
  dsimp only at hsome
  split at hsome
  · next hin =>
    simp only [Function.comp, within, Bool.and_eq_true, decide_eq_true_eq]
    omega
  · cases hsome

/-- A character folds like three others at most. -/
theorem length_foldMates_le (c : Char) : (foldMates c).length ≤ 4 := by
  rw [foldMates, List.length_map]
  exact length_unfoldCode_le _

/-! ## Byte sequences -/

variable {chars : List Char} {sequences : List ByteSequence} {sequence : ByteSequence}

/-- Lists that are bounded add up to a bounded list. -/
theorem length_flatMap_le {α β : Type} {f : α → List β} {xs : List α} {bound : Nat}
    (h : ∀ x ∈ xs, (f x).length ≤ bound) : (xs.flatMap f).length ≤ xs.length * bound := by
  rw [List.length_flatMap]
  refine (List.sum_le_card_nsmul _ bound fun n hn => ?_).trans_eq (by simp)
  obtain ⟨x, hx, rfl⟩ := List.mem_map.mp hn
  exact h x hx

/-- One sequence is joined in, as long as the bytes; the one that it takes in is gone. -/
theorem exists_joinSequence (bytes : List Nat) (sequences : List ByteSequence) :
    ∃ joined kept, joinSequence bytes sequences = joined :: kept ∧
      joined.length = bytes.length - 1 + 1 ∧ kept.Sublist sequences := by
  unfold joinSequence
  -- two ranges of bytes may be joined into one, of the same length
  split
  · next next rest =>
    split
    · dsimp only
      split
      · exact ⟨_, rest, rfl, by simp, List.sublist_cons_self next rest⟩
      · exact ⟨_, next :: rest, rfl, by simp, List.Sublist.refl _⟩
    · exact ⟨_, next :: rest, rfl, by simp, List.Sublist.refl _⟩
  · exact ⟨_, [], rfl, by simp, List.Sublist.refl _⟩

/-- A set of characters has no more sequences than characters. -/
theorem length_byteSequences_le (chars : List Char) :
    (byteSequences chars).length ≤ chars.length := by
  induction chars with
  | nil => exact Nat.le_refl 0
  | cons c rest ih =>
    obtain ⟨joined, kept, hjoin, -, hkept⟩ := exists_joinSequence
      ((String.utf8EncodeChar c).map (·.toNat)) (byteSequences rest)
    show (joinSequence _ (byteSequences rest)).length ≤ rest.length + 1
    rw [hjoin, List.length_cons]
    exact Nat.succ_le_succ (hkept.length_le.trans ih)

/-- No sequence is longer than the encoding of one character. -/
theorem length_le_of_mem_byteSequences (h : sequence ∈ byteSequences chars) :
    sequence.length ≤ 4 := by
  induction chars with
  | nil => cases h
  | cons c rest ih =>
    obtain ⟨joined, kept, hjoin, hjoined, hkept⟩ := exists_joinSequence
      ((String.utf8EncodeChar c).map (·.toNat)) (byteSequences rest)
    rw [List.length_map, String.length_utf8EncodeChar] at hjoined
    have hmem : sequence ∈ joined :: kept := hjoin ▸ h
    rcases List.mem_cons.mp hmem with rfl | hold
    · have hsize := c.utf8Size_le_four
      omega
    · exact ih (hkept.subset hold)

/-- The ways in which sequences begin and go on. -/
def properBeginnings (sequences : List ByteSequence) : List ByteSequence :=
  sequences.flatMap fun sequence =>
    (List.range (sequence.length - 1)).map fun n => sequence.take (n + 1)

/-- The empty sequence is not counted among the beginnings; it stands for where all of them start. -/
theorem ne_nil_of_mem_beginnings {beginning : ByteSequence} (h : beginning ∈ beginnings sequences) :
    beginning ≠ [] := by
  obtain ⟨sequence, -, hin⟩ := List.mem_flatMap.mp (List.mem_eraseDups.mp h)
  obtain ⟨n, hn, rfl⟩ := List.mem_map.mp hin
  rw [List.mem_range] at hn
  refine List.ne_nil_of_length_pos ?_
  rw [List.length_take]
  omega

/-- Something follows a beginning only if it is not all of a sequence. -/
theorem mem_properBeginnings {beginning : ByteSequence} (h : beginning ∈ beginnings sequences)
    (hgoes : continuations sequences beginning ≠ []) : beginning ∈ properBeginnings sequences := by
  obtain ⟨continuing, hmem⟩ := List.exists_mem_of_ne_nil _ hgoes
  obtain ⟨longer, hlonger, hcut⟩ := List.mem_filterMap.mp hmem
  split at hcut
  · next hproper =>
    rw [Bool.and_eq_true, decide_eq_true_eq, List.isPrefixOf_iff_prefix] at hproper
    obtain ⟨hstart, hlength⟩ := hproper
    have hpos := List.length_pos_iff.mpr (ne_nil_of_mem_beginnings h)
    refine List.mem_flatMap.mpr ⟨longer, hlonger, List.mem_map.mpr ⟨beginning.length - 1, ?_, ?_⟩⟩
    · rw [List.mem_range]
      omega
    · rw [Nat.sub_add_cancel hpos, List.prefix_iff_eq_take.mp hstart, List.length_take]
      congr 1
      omega
  · cases hcut

/-- There is a state for all sequences, and at most one more for each proper beginning. -/
theorem length_continuationStates_le (sequences : List ByteSequence) :
    (continuationStates sequences).length ≤ 1 + (properBeginnings sequences).length := by
  have hproper : ((beginnings sequences).filter fun beginning =>
      !(continuations sequences beginning).isEmpty).length ≤
        (properBeginnings sequences).length := by
    refine (List.Nodup.subperm ((nodup_eraseDups _).filter _) fun beginning hmem => ?_).length_le
    obtain ⟨hbegins, hgoes⟩ := List.mem_filter.mp hmem
    refine mem_properBeginnings hbegins fun hnil => ?_
    rw [hnil] at hgoes
    cases hgoes
  calc (continuationStates sequences).length
      ≤ ((([] :: beginnings sequences).map (continuations sequences)).filter
          fun state => !state.isEmpty).length := (eraseDups_sublist _).length_le
    _ = (([] :: beginnings sequences).filter fun beginning =>
          !(continuations sequences beginning).isEmpty).length := by
        rw [List.filter_map, List.length_map]
        rfl
    _ ≤ 1 + ((beginnings sequences).filter fun beginning =>
          !(continuations sequences beginning).isEmpty).length := by
        rw [List.filter_cons]
        split <;> simp [Nat.add_comm]
    _ ≤ 1 + (properBeginnings sequences).length := Nat.add_le_add_left hproper 1

/-- A state has at most all sequences to go on with. -/
theorem length_le_of_mem_continuationStates {state : List ByteSequence}
    (h : state ∈ continuationStates sequences) : state.length ≤ sequences.length := by
  obtain ⟨hmem, -⟩ := List.mem_filter.mp (List.mem_eraseDups.mp h)
  obtain ⟨beginning, -, rfl⟩ := List.mem_map.mp hmem
  exact List.length_filterMap_le _ _

/-- Sequences of a width have that many beginnings, and one fewer that go on. -/
theorem length_beginnings_le {width : Nat} (h : ∀ sequence ∈ sequences, sequence.length ≤ width) :
    (beginnings sequences).length ≤ sequences.length * width ∧
      (properBeginnings sequences).length ≤ sequences.length * (width - 1) := by
  constructor
  · refine (eraseDups_sublist _).length_le.trans (length_flatMap_le fun sequence hmem => ?_)
    simpa using h sequence hmem
  · refine length_flatMap_le fun sequence hmem => ?_
    simpa using Nat.sub_le_sub_right (h sequence hmem) 1

end Text

/-! ## Sizes of automata -/

namespace AutomatonSize

open Text

@[simp] theorem forward_add (a b : AutomatonSize) : (a + b).forward = a.forward + b.forward := rfl

@[simp] theorem backward_add (a b : AutomatonSize) : (a + b).backward = a.backward + b.backward :=
  rfl

/-- Neither automaton takes more than a given size. -/
structure AtMost (size : AutomatonSize) (bound : Nat) : Prop where
  forward : size.forward ≤ bound
  backward : size.backward ≤ bound

/-- A bound may be weakened. -/
theorem AtMost.mono {size : AutomatonSize} {bound bound' : Nat} (h : size.AtMost bound)
    (hle : bound ≤ bound') : size.AtMost bound' :=
  ⟨h.forward.trans hle, h.backward.trans hle⟩

theorem atMost_both (size : Nat) : (both size).AtMost size := ⟨Nat.le_refl _, Nat.le_refl _⟩

/-- Every state of the automaton that reads forward has at most one way on for each sequence. -/
theorem foldl_states_le {states : List (List ByteSequence)} {count : Nat}
    (h : ∀ state ∈ states, state.length ≤ count) (start : Nat) :
    states.foldl (fun size continuing =>
        size + state + edge * (continuing.map List.head?).eraseDups.length) start ≤
      start + states.length * (state + edge * count) := by
  induction states generalizing start with
  | nil => exact Nat.le_add_right start _
  | cons first rest ih =>
    obtain ⟨hfirst, hrest⟩ := List.forall_mem_cons.mp h
    have hways : (first.map List.head?).eraseDups.length ≤ count := by
      refine (eraseDups_sublist _).length_le.trans ?_
      rwa [List.length_map]
    have hedges : edge * (first.map List.head?).eraseDups.length ≤ edge * count :=
      Nat.mul_le_mul_left edge hways
    rw [List.foldl_cons, List.length_cons, Nat.succ_mul]
    refine (ih hrest _).trans ?_
    omega

/-- States only add to the size. -/
theorem le_foldl_states (states : List (List ByteSequence)) (start : Nat) :
    start ≤ states.foldl (fun size continuing =>
      size + state + edge * (continuing.map List.head?).eraseDups.length) start := by
  induction states generalizing start with
  | nil => exact Nat.le_refl start
  | cons first rest ih =>
    exact (Nat.le_add_right_of_le (Nat.le_add_right start state)).trans (ih _)

/-- What automata for few short sequences take. -/
theorem ofSequences_le {sequences : List ByteSequence} {count width : Nat}
    (hcount : sequences.length ≤ count) (hwidth : ∀ sequence ∈ sequences, sequence.length ≤ width) :
    (ofSequences sequences).forward ≤
        state + (1 + count * (width - 1)) * (state + edge * count) ∧
      (ofSequences sequences).backward ≤
        2 * state + branch * count + state * (count * width) := by
  obtain ⟨hall, hproper⟩ := length_beginnings_le hwidth
  constructor
  · refine (foldl_states_le (fun state hstate =>
      (length_le_of_mem_continuationStates hstate).trans hcount) state).trans ?_
    refine Nat.add_le_add_left (Nat.mul_le_mul_right _ ?_) state
    exact (length_continuationStates_le sequences).trans (Nat.add_le_add_left
      (hproper.trans (Nat.mul_le_mul_right _ hcount)) 1)
  · exact Nat.add_le_add (Nat.add_le_add_left (Nat.mul_le_mul_left branch hcount) _)
      (Nat.mul_le_mul_left state (hall.trans (Nat.mul_le_mul_right _ hcount)))

/-- A set of up to four characters takes less than a run. -/
theorem atMost_ofChars {chars : List Char} (h : chars.length ≤ 4) : (ofChars chars).AtMost 864 := by
  have hcount : (byteSequences chars).length ≤ 4 := (length_byteSequences_le chars).trans h
  unfold ofChars
  split
  · next c =>
    have hsize := c.utf8Size_le_four
    refine (atMost_both _).mono ?_
    simp only [state]
    omega
  · dsimp only
    split
    · refine (atMost_both _).mono ?_
      simp only [state, edge]
      omega
    · obtain ⟨hforward, hbackward⟩ :=
        ofSequences_le hcount fun sequence hmem => length_le_of_mem_byteSequences hmem
      exact ⟨hforward, hbackward.trans (by decide)⟩

/-- No set of characters takes less than a state. -/
theorem state_le_ofChars (chars : List Char) : state ≤ (ofChars chars).forward := by
  unfold ofChars
  split
  · next c => exact Nat.le_mul_of_pos_right state c.utf8Size_pos
  · dsimp only
    split
    · simp only [both]
      omega
    · exact le_foldl_states _ state

end AutomatonSize

/-! ## Patterns -/

namespace Like

open Text

namespace Item

/-- A run takes most. -/
theorem atMost_size (item : Item) : item.size.AtMost 1004 := by
  cases item with
  | run =>
    rw [size, AutomatonSize.anyChar_eq]
    exact ⟨by decide, by decide⟩
  | any =>
    rw [size, AutomatonSize.anyChar_eq]
    exact ⟨by decide, by decide⟩
  | char p => exact (AutomatonSize.atMost_ofChars (length_foldMates_le p)).mono (by decide)

/-- Every item takes a state at least. -/
theorem state_le_size (item : Item) : AutomatonSize.state ≤ item.size.forward := by
  cases item with
  | run =>
    rw [size, AutomatonSize.anyChar_eq]
    decide
  | any =>
    rw [size, AutomatonSize.anyChar_eq]
    decide
  | char p => exact AutomatonSize.state_le_ofChars _

end Item

variable {pattern pattern' : String}

/-- The sizes of the items add up. -/
theorem Expression.size_eq (expression : Expression) :
    expression.size = ⟨frameSize.forward + (expression.map (·.size.forward)).sum,
      frameSize.backward + (expression.map (·.size.backward)).sum⟩ := by
  have hsum : ∀ (items : List Item) (start : AutomatonSize),
      items.foldl (fun size item => size + item.size) start =
        ⟨start.forward + (items.map (·.size.forward)).sum,
          start.backward + (items.map (·.size.backward)).sum⟩ := by
    intro items
    induction items with
    | nil => exact fun start => rfl
    | cons item rest ih =>
      intro start
      rw [List.foldl_cons, ih]
      simp [Nat.add_assoc]
  exact hsum expression frameSize

/-- What is compared with the limit. -/
theorem isAccepted_iff : isAccepted pattern = true ↔
    frameSize.forward + ((expression pattern).map (·.size.forward)).sum ≤ sizeLimit ∧
      frameSize.backward + ((expression pattern).map (·.size.backward)).sum ≤ sizeLimit := by
  rw [isAccepted, Expression.isSmall, Expression.size_eq, Bool.and_eq_true, decide_eq_true_eq,
    decide_eq_true_eq]

/-- Fewer characters take less, in any order. -/
theorem isAccepted_of_subperm (hless : pattern'.toList.Subperm pattern.toList)
    (h : isAccepted pattern = true) : isAccepted pattern' = true := by
  have hitems (size : Item → Nat) :
      ((expression pattern').map size).sum ≤ ((expression pattern).map size).sum := by
    obtain ⟨chars, hperm, hsublist⟩ := hless
    rw [expression, expression, List.map_map, List.map_map,
      ← (hperm.map (size ∘ Item.ofChar)).sum_eq]
    exact (hsublist.map _).sum_le_sum fun n _ => Nat.zero_le n
  obtain ⟨hforward, hbackward⟩ := isAccepted_iff.mp h
  exact isAccepted_iff.mpr ⟨(Nat.add_le_add_left (hitems (·.size.forward)) _).trans hforward,
    (Nat.add_le_add_left (hitems (·.size.backward)) _).trans hbackward⟩

/-- An expression has an item for each character. -/
theorem length_expression (pattern : String) : (expression pattern).length = pattern.length := by
  rw [expression, List.length_map, String.length_toList]

/-- Every pattern of up to 10443 characters is accepted, whatever they are. -/
theorem isAccepted_of_length_le (h : pattern.length ≤ 10443) : isAccepted pattern = true := by
  have hsum (size : Item → Nat) (hsize : ∀ item, size item ≤ 1004) :
      ((expression pattern).map size).sum ≤ 10443 * 1004 := by
    refine (List.sum_le_card_nsmul _ 1004 fun n hn => ?_).trans ?_
    · obtain ⟨item, -, rfl⟩ := List.mem_map.mp hn
      exact hsize item
    · rw [List.length_map, length_expression, Nat.nsmul_eq_mul]
      exact Nat.mul_le_mul_right 1004 h
  exact isAccepted_iff.mpr
    ⟨(Nat.add_le_add_left (hsum _ fun item => item.atMost_size.forward) _).trans (by decide),
      (Nat.add_le_add_left (hsum _ fun item => item.atMost_size.backward) _).trans (by decide)⟩

/-- No pattern of more than 327674 characters is accepted. -/
theorem length_le_of_isAccepted (h : isAccepted pattern = true) : pattern.length ≤ 327674 := by
  have hsum : pattern.length * 32 ≤ ((expression pattern).map (·.size.forward)).sum := by
    rw [← length_expression, ← List.length_map (f := fun item : Item => item.size.forward)]
    refine List.card_nsmul_le_sum _ 32 fun n hn => ?_
    obtain ⟨item, -, rfl⟩ := List.mem_map.mp hn
    exact item.state_le_size
  have hlimit : 192 + ((expression pattern).map (·.size.forward)).sum ≤ 10485760 :=
    (isAccepted_iff.mp h).1
  omega

/-- Runs alone are accepted up to the number that is safe for all patterns. -/
theorem isAccepted_runs_iff (count : Nat) :
    isAccepted (String.ofList (List.replicate count '%')) = true ↔ count ≤ 10443 := by
  constructor
  · intro h
    have hlimit := (isAccepted_iff.mp h).2
    -- it is the backward automaton of a run that decides
    have hrun : (Item.ofChar '%').size.backward = 1004 := by
      rw [show Item.ofChar '%' = .run from rfl, Item.size, AutomatonSize.anyChar_eq]
      rfl
    rw [expression, String.toList_ofList, List.map_replicate, List.map_replicate,
      List.sum_replicate, hrun, Nat.nsmul_eq_mul] at hlimit
    have hlimit : 128 + count * 1004 ≤ 10485760 := hlimit
    omega
  · intro h
    refine isAccepted_of_length_le ?_
    rwa [← String.length_toList, String.toList_ofList, List.length_replicate]

end Like

end NestedRecord
