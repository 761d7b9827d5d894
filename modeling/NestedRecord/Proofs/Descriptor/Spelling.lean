import Mathlib.Data.List.Chain
import Mathlib.Data.List.Flatten
import Mathlib.Data.List.Forall2
import NestedRecord.Proofs.Descriptor.Nesting

/-!
# How tokens are spelled

A token takes one directive of a tuple, two, or three. Where one token ends the next begins, so the
directives fall into groups, and between two groups a bound or a hook may be put without any other
token changing: neither takes more than its own operand, and nothing takes a word as an operand that
did not begin there before.

* `Token.Spelled` says which directives spell a token. `Token.Parted` is the one thing that tokens
  ask of their neighbours: a handler behind an aggregate is the aggregate's.
* `Token.Reads` puts the two together: directives are read without error exactly if they fall into
  groups in this way, by `Reads.ofDirectives_eq` and `exists_reads`.
* `Token.Inserted` are bounds and hooks as they are written; `Tuple.addAll_insert` says that they do
  not touch the rest of what is read.
* `Token.divided_of_ofDirectives` is the result.
-/

namespace NestedRecord

variable {ν : Type}

namespace Token

/-! ## Groups of directives -/

/-- The directives that spell a token. -/
inductive Spelled : Token ν → List (Directive ν) → Prop
  | literal (value : Json) : Spelled (.literal value) [.literal value]
  | handler (call : Handler) : Spelled (.handler call) [.handler call]
  | nested (inner : ν) : Spelled (.nested inner) [.nested inner]
  | word {text : String} {token : Token ν} (means : Word.classify text = .token token) :
      Spelled token [.word text]
  | operand {text : String} {word : OperandWord} {operand : Directive ν} {token : Token ν}
      (means : (Word.classify text : Word ν) = .operand word)
      (taken : word.take operand = .ok (.inl token)) : Spelled token [.word text, operand]
  | aggregate {text : String} {word : OperandWord} {operand : Directive ν} {op : AggregateOp}
      {path : String} (means : (Word.classify text : Word ν) = .operand word)
      (taken : word.take operand = .ok (.inr (op, path))) :
      Spelled (.aggregate op path none) [.word text, operand]
  | transformed {text : String} {word : OperandWord} {operand : Directive ν} {op : AggregateOp}
      {path : String} (means : (Word.classify text : Word ν) = .operand word)
      (taken : word.take operand = .ok (.inr (op, path))) (call : Handler) :
      Spelled (.aggregate op path (some call)) [.word text, operand, .handler call]

/-- The number of directives that spell a token. -/
def width : Token ν → Nat
  | .bound _ _ | .hook _ _ | .reference _ | .aggregate _ _ none => 2
  | .aggregate _ _ (some _) => 3
  | _ => 1

/-- Whether a handler behind the token would be taken for its transformer. -/
def IsOpen : Token ν → Prop
  | .aggregate _ _ none => True
  | _ => False

def IsHandler : Token ν → Prop
  | .handler _ => True
  | _ => False

/-- Whether a token may stand behind another one. -/
def Parted (token next : Token ν) : Prop := token.IsOpen → ¬ next.IsHandler

/-- A word that stands for itself is a token of its own and asks nothing of its neighbours. -/
theorem width_of_ofText {text : String} {token : Token ν} (h : Word.ofText text = .token token) :
    token.width = 1 ∧ ¬ token.IsOpen ∧ ¬ token.IsHandler := by
  unfold Word.ofText at h
  simp only at h
  repeat' split at h
  all_goals cases h
  all_goals exact ⟨rfl, id, id⟩

/-- A word that takes no operand is neither an aggregate nor a handler. -/
theorem width_of_classify {text : String} {token : Token ν}
    (h : Word.classify text = .token token) :
    token.width = 1 ∧ ¬ token.IsOpen ∧ ¬ token.IsHandler := by
  unfold Word.classify at h
  split at h
  case h_9 =>
    split at h
    · cases h
    · exact width_of_ofText h
  all_goals cases h
  all_goals exact ⟨rfl, id, id⟩

/-- A word and its operand are a bound, a hook or a reference, unless they are an aggregate. -/
theorem width_of_take {word : OperandWord} {operand : Directive ν} {token : Token ν}
    (h : word.take operand = .ok (.inl token)) :
    token.width = 2 ∧ ¬ token.IsOpen ∧ ¬ token.IsHandler := by
  unfold OperandWord.take at h
  repeat' split at h
  all_goals cases h
  all_goals exact ⟨rfl, id, id⟩

theorem Spelled.length_eq {token : Token ν} {group : List (Directive ν)}
    (h : token.Spelled group) : group.length = token.width := by
  cases h with
  | literal | handler | nested | aggregate | transformed => rfl
  | word means => exact (width_of_classify means).1.symm
  | operand means taken => exact (width_of_take taken).1.symm

/-- Directives fall into the groups that spell given tokens in one way only. -/
theorem eq_of_spelled {tokens : List (Token ν)} {groups groups' : List (List (Directive ν))}
    (h : List.Forall₂ Spelled tokens groups) (h' : List.Forall₂ Spelled tokens groups')
    (hflatten : groups'.flatten = groups.flatten) : groups' = groups := by
  have hwidths : ∀ {tokens : List (Token ν)} {groups : List (List (Directive ν))},
      List.Forall₂ Spelled tokens groups → groups.map List.length = tokens.map width := by
    intro tokens groups h
    induction h with
    | nil => rfl
    | cons first _ ih => exact congrArg₂ List.cons first.length_eq ih
  exact List.eq_iff_flatten_eq.mpr ⟨hflatten, (hwidths h').trans (hwidths h).symm⟩

/-! ## Reading group by group -/

/-- A group of directives is read as its token, whatever stands behind it. -/
theorem ofDirectives_append {token : Token ν} {group rest : List (Directive ν)}
    (h : token.Spelled group)
    (hrest : token.IsOpen → ∀ call behind, rest ≠ .handler call :: behind) :
    ofDirectives (group ++ rest) = .ok token :: ofDirectives rest := by
  cases h with
  | literal | handler | nested => rfl
  | word means => simp [ofDirectives, means]
  | operand means taken => simp [ofDirectives, means, taken]
  | transformed means taken call => simp [ofDirectives, means, taken]
  | aggregate means taken =>
    rw [List.cons_append, List.cons_append, List.nil_append, ofDirectives, means]
    simp only [taken]
    split
    · -- the reader would take a handler behind it for the transformer
      exact absurd rfl (hrest trivial _ _)
    · rfl

/-- Only a handler is spelled with a handler in front. -/
theorem Spelled.isHandler_of_front {token : Token ν} {group rest behind : List (Directive ν)}
    {call : Handler} (h : token.Spelled group) (hfront : group ++ rest = .handler call :: behind) :
    token.IsHandler := by
  cases h with
  | handler => trivial
  | _ => cases hfront

/-- A handler is spelled by itself. -/
theorem Spelled.exists_handler {token : Token ν} {group : List (Directive ν)}
    (h : token.Spelled group) (hhandler : token.IsHandler) : ∃ call, group = [.handler call] := by
  cases h with
  | handler call => exact ⟨call, rfl⟩
  | word means => exact absurd hhandler (width_of_classify means).2.2
  | operand means taken => exact absurd hhandler (width_of_take taken).2.2
  | _ => cases hhandler

/-- Tokens read from groups of directives: each group spells its token, and no handler stands behind
an aggregate that has no transformer yet. -/
structure Reads (tokens : List (Token ν)) (groups : List (List (Directive ν))) : Prop where
  spelled : List.Forall₂ Spelled tokens groups
  parted : tokens.IsChain Parted

/-- A token is read in front of others if it leaves them their directives. -/
theorem Reads.cons {token : Token ν} {tokens : List (Token ν)} {group : List (Directive ν)}
    {groups : List (List (Directive ν))} (hfirst : token.Spelled group)
    (hopen : token.IsOpen → ∀ call behind, groups.flatten ≠ .handler call :: behind)
    (hrest : Reads tokens groups) : Reads (token :: tokens) (group :: groups) := by
  refine ⟨.cons hfirst hrest.spelled, List.isChain_cons.mpr ⟨fun next hnext => ?_, hrest.parted⟩⟩
  intro htoken hhandler
  obtain ⟨rest, rfl⟩ := List.head?_eq_some_iff.mp hnext
  cases hrest.spelled with
  | cons hsecond _ =>
    obtain ⟨call, rfl⟩ := hsecond.exists_handler hhandler
    exact hopen htoken call _ rfl

/-- What stands behind an open aggregate is no handler. -/
theorem Reads.not_handler {token : Token ν} {tokens : List (Token ν)}
    {group : List (Directive ν)} {groups : List (List (Directive ν))}
    (h : Reads (token :: tokens) (group :: groups)) (hopen : token.IsOpen) (call : Handler)
    (behind : List (Directive ν)) : groups.flatten ≠ .handler call :: behind := by
  intro hfront
  obtain ⟨hparted, -⟩ := List.isChain_cons.mp h.parted
  obtain ⟨-, hspelled⟩ := List.forall₂_cons.mp h.spelled
  cases hspelled with
  | nil => cases hfront
  | cons hsecond _ => exact hparted _ rfl hopen (hsecond.isHandler_of_front hfront)

/-- Tokens are read from their groups. -/
theorem Reads.ofDirectives_eq {tokens : List (Token ν)} {groups : List (List (Directive ν))}
    (h : Reads tokens groups) : ofDirectives groups.flatten = tokens.map .ok := by
  obtain ⟨hspelled, hparted⟩ := h
  induction hspelled with
  | nil => rfl
  | cons hfirst hrest ih =>
    have hreads : Reads _ _ := ⟨.cons hfirst hrest, hparted⟩
    rw [List.flatten_cons, ofDirectives_append hfirst hreads.not_handler,
      ih (List.isChain_cons.mp hparted).2, List.map_cons]

/-- One more token in front of those that are read from the directives behind it. -/
theorem exists_reads_cons {token : Token ν} {group rest : List (Directive ν)}
    (hspelled : token.Spelled group)
    (hopen : token.IsOpen → ∀ call behind, rest ≠ .handler call :: behind)
    (ih : ∀ {tokens : List (Token ν)}, ofDirectives rest = tokens.map .ok →
      ∃ groups, groups.flatten = rest ∧ Reads tokens groups) {tokens : List (Token ν)}
    (h : .ok token :: ofDirectives rest = tokens.map .ok) :
    ∃ groups, groups.flatten = group ++ rest ∧ Reads tokens groups := by
  obtain ⟨first, others, rfl, hfirst, hothers⟩ := List.map_eq_cons_iff.mp h.symm
  obtain rfl := Except.ok.inj hfirst
  obtain ⟨groups, rfl, hreads⟩ := ih hothers.symm
  exact ⟨group :: groups, rfl, .cons hspelled hopen hreads⟩

/-- A token that is not open can stand in front of anything. -/
theorem exists_reads_of_closed {token : Token ν} {group rest : List (Directive ν)}
    (hspelled : token.Spelled group) (hclosed : ¬ token.IsOpen)
    (ih : ∀ {tokens : List (Token ν)}, ofDirectives rest = tokens.map .ok →
      ∃ groups, groups.flatten = rest ∧ Reads tokens groups) {tokens : List (Token ν)}
    (h : .ok token :: ofDirectives rest = tokens.map .ok) :
    ∃ groups, groups.flatten = group ++ rest ∧ Reads tokens groups :=
  exists_reads_cons hspelled (fun hopen => absurd hopen hclosed) ih h

/-- Directives that are read without error fall into the groups of their tokens. -/
theorem exists_reads {directives : List (Directive ν)} {tokens : List (Token ν)}
    (h : ofDirectives directives = tokens.map .ok) :
    ∃ groups, groups.flatten = directives ∧ Reads tokens groups := by
  fun_induction ofDirectives directives generalizing tokens with
  | case1 =>
    obtain rfl : tokens = [] := List.map_eq_nil_iff.mp h.symm
    exact ⟨[], rfl, .nil, .nil⟩
  | case2 value rest ih => exact exists_reads_of_closed (.literal value) id ih h
  | case3 call rest ih => exact exists_reads_of_closed (.handler call) id ih h
  | case4 inner rest ih => exact exists_reads_of_closed (.nested inner) id ih h
  | case6 text rest token means ih =>
    exact exists_reads_of_closed (.word means) (width_of_classify means).2.1 ih h
  | case9 text word means operand rest token taken ih =>
    exact exists_reads_of_closed (.operand means taken) (width_of_take taken).2.1 ih h
  | case10 text word means operand op path taken call rest ih =>
    exact exists_reads_of_closed (.transformed means taken call) id ih h
  | case11 text word means operand op path taken rest hcall ih =>
    -- the only open token: that no handler follows is what the reader has checked
    exact exists_reads_cons (.aggregate means taken) (fun _ => hcall) ih h
  | case5 | case7 | case8 =>
    -- the reader stops at a broken rule, which is none of the tokens
    obtain ⟨token, others, -, htoken, -⟩ := List.map_eq_cons_iff.mp h.symm
    cases htoken

/-! ## Bounds and hooks -/

end Token

/-- What a directive is behind the word of a hook. -/
def Hook.ofDirective? : Directive ν → Option Hook
  | .handler call => some (.handler call)
  | .literal value => some (.literal value)
  | .word text => some (.literal (.string text))
  | .nested _ => none

namespace Token

/-- A bound or a hook as it is written: its word and its operand. -/
inductive Inserted : Token ν → List (Directive ν) → Prop
  | bound (side : BoundSide) (value : Json) :
      Inserted (.bound side value) [.word side.keyword, .literal value]
  | hook (kind : HookKind) {operand : Directive ν} {hook : Hook}
      (taken : Hook.ofDirective? operand = some hook) :
      Inserted (.hook kind hook) [.word kind.keyword, operand]

namespace Inserted

variable {token : Token ν} {group : List (Directive ν)}

/-- Bounds and hooks are spelled as any token. -/
theorem spelled (h : token.Inserted group) : token.Spelled group := by
  cases h with
  | bound side value => cases side <;> exact .operand rfl rfl
  | @hook kind operand hook taken =>
    cases operand with
    | nested inner => cases taken
    | _ => cases taken; cases kind <;> exact .operand rfl rfl

theorem parted_before (h : token.Inserted group) (next : Token ν) : token.Parted next := by
  cases h <;> exact fun hopen => absurd hopen id

theorem parted_behind (h : token.Inserted group) (before : Token ν) : before.Parted token := by
  cases h <;> exact fun _ => id

end Inserted

/-- A bound or a hook between two groups is read as such, and the other groups as before. -/
theorem Reads.insert {tokens : List (Token ν)} {groups : List (List (Directive ν))}
    (h : Reads tokens groups) {token : Token ν} {group : List (Directive ν)}
    (hinserted : token.Inserted group) (k : Nat) :
    Reads (tokens.take k ++ token :: tokens.drop k) (groups.take k ++ group :: groups.drop k) where
  spelled := List.rel_append (List.forall₂_take k h.spelled)
    (.cons hinserted.spelled (List.forall₂_drop k h.spelled))
  parted := by
    refine List.isChain_append.mpr
      ⟨h.parted.take k, List.isChain_cons.mpr ⟨?_, h.parted.drop k⟩, ?_⟩
    · exact fun next _ => hinserted.parted_before next
    · rintro before - next hnext
      obtain rfl := Option.some.inj hnext
      exact hinserted.parted_behind before

end Token

/-! ## What a tuple says apart from bounds and hooks -/

def Rule.isBound : Rule → Bool
  | .min _ | .max _ => true
  | _ => false

namespace Tuple

/-- A tuple without its bounds and hooks. -/
def core (tuple : Tuple ν) : Tuple ν :=
  { tuple with rules := tuple.rules.filter (!·.isBound), hooks := [] }

/-- Takes in tokens one after the other. -/
def addAll (tuple : Tuple ν) (tokens : List (Token ν)) : Except String (Tuple ν) :=
  tokens.foldlM add tuple

theorem ofDirectives_eq_addAll {directives : List (Directive ν)} {tokens : List (Token ν)}
    (h : Token.ofDirectives directives = tokens.map .ok) :
    ofDirectives directives = addAll {} tokens := by
  rw [ofDirectives, h, List.foldlM_map]
  rfl

/-- What a token adds to a tuple does not depend on the bounds and hooks in it. -/
theorem core_add (tuple : Tuple ν) (token : Token ν) :
    (tuple.add token).map core = (tuple.core.add token).map core := by
  cases token with
  | bound side value =>
    cases side <;> simp [add, core, Except.map, Rule.isBound]
  | column | reference | handler | nested =>
    simp only [add, core]
    split <;> next h => simp [h, Except.map, core]
  | _ => simp [add, core, Except.map, Rule.isBound]

variable {tuple tuple' : Tuple ν} {tokens : List (Token ν)} {token : Token ν}
  {group : List (Directive ν)}

/-- Tokens read after the same, apart from bounds and hooks, come to the same apart from these. -/
theorem addAll_congr (h : tuple.core = tuple'.core) :
    (tuple.addAll tokens).map core = (tuple'.addAll tokens).map core := by
  induction tokens generalizing tuple tuple' with
  | nil => exact congrArg Except.ok h
  | cons token rest ih =>
    have hfirst : (tuple.add token).map core = (tuple'.add token).map core := by
      rw [core_add, h, ← core_add]
    rw [addAll, addAll, List.foldlM_cons, List.foldlM_cons]
    cases hadd : tuple.add token <;> cases hadd' : tuple'.add token <;> rw [hadd, hadd'] at hfirst
    · -- both stop here, with the same rule
      exact congrArg Except.error (Except.error.inj hfirst)
    · cases hfirst
    · cases hfirst
    · exact ih (Except.ok.inj hfirst)

/-- A bound or a hook is always taken in, and changes nothing else. -/
theorem exists_add_of_inserted (h : token.Inserted group) (tuple : Tuple ν) :
    ∃ tuple', tuple.add token = .ok tuple' ∧ tuple'.core = tuple.core := by
  cases h with
  | bound side value =>
    cases side <;> exact ⟨_, rfl, by simp [core, Rule.isBound]⟩
  | hook kind taken => exact ⟨_, rfl, rfl⟩

/-- A bound or a hook between other tokens does not touch what they add. -/
theorem addAll_insert (h : token.Inserted group) (front back : List (Token ν)) :
    (addAll {} (front ++ token :: back)).map core = (addAll {} (front ++ back)).map core := by
  rw [addAll, addAll, List.foldlM_append, List.foldlM_append]
  cases List.foldlM add {} front with
  | error rule => rfl
  | ok tuple =>
    obtain ⟨tuple', hadd, hcore⟩ := exists_add_of_inserted h tuple
    show (List.foldlM add tuple (token :: back)).map core = (tuple.addAll back).map core
    rw [List.foldlM_cons, hadd]
    exact addAll_congr hcore

end Tuple

/-! ## Reading a tuple -/

/-- Directives with bounds and hooks put between their tokens, in front of them or behind them, one
after the other. An aggregate and the handler that it takes are one token, so nothing is put between
them. -/
inductive Interspersed (directives : List (Directive ν)) : List (Directive ν) → Prop
  | refl : Interspersed directives directives
  | insert {tokens : List (Token ν)} {groups : List (List (Directive ν))} {token : Token ν}
      {group : List (Directive ν)} (before : Interspersed directives groups.flatten)
      (tokenizes : Token.ofDirectives groups.flatten = tokens.map .ok)
      (spelled : List.Forall₂ Token.Spelled tokens groups) (inserted : token.Inserted group)
      (k : Nat) : Interspersed directives (groups.take k ++ group :: groups.drop k).flatten

namespace Token

/-- Directives are divided into tokens, between which bounds and hooks may stand anywhere. -/
structure Divided (directives : List (Directive ν)) (tokens : List (Token ν)) : Prop where
  /-- each directive belongs to one token, and the tokens stand in the order of their directives -/
  groups : ∃! groups, groups.flatten = directives ∧ List.Forall₂ Spelled tokens groups
  /-- between any two tokens, in front and at the end, a bound or a hook is one more token -/
  insert : ∀ groups, groups.flatten = directives → List.Forall₂ Spelled tokens groups →
    ∀ k ≤ tokens.length, ∀ token group, Inserted token group →
      ofDirectives (groups.take k ++ group :: groups.drop k).flatten =
        (tokens.take k ++ token :: tokens.drop k).map .ok
  /-- wherever bounds and hooks stand, the rest of the tuple is the same -/
  core : ∀ interspersed, Interspersed directives interspersed →
    (Tuple.ofDirectives interspersed).map Tuple.core =
      (Tuple.ofDirectives directives).map Tuple.core

/-- Groups that spell the tokens which are read are those of the reading. -/
theorem reads_of_spelled {tokens : List (Token ν)} {groups : List (List (Directive ν))}
    (h : ofDirectives groups.flatten = tokens.map .ok)
    (hspelled : List.Forall₂ Spelled tokens groups) : Reads tokens groups := by
  obtain ⟨others, hflatten, hreads⟩ := exists_reads h
  rwa [eq_of_spelled hspelled hreads.spelled hflatten] at hreads

/-- Bounds and hooks do not touch the rest of a tuple. -/
theorem core_of_interspersed {directives interspersed : List (Directive ν)}
    (h : Interspersed directives interspersed) :
    (Tuple.ofDirectives interspersed).map Tuple.core =
      (Tuple.ofDirectives directives).map Tuple.core := by
  induction h with
  | refl => rfl
  | @insert tokens groups token group before tokenizes spelled inserted k ih =>
    have hreads := reads_of_spelled tokenizes spelled
    rw [← ih, Tuple.ofDirectives_eq_addAll (hreads.insert inserted k).ofDirectives_eq,
      Tuple.ofDirectives_eq_addAll tokenizes, Tuple.addAll_insert inserted, List.take_append_drop]

/-- Directives that are read without error are divided into their tokens. -/
theorem divided_of_ofDirectives {directives : List (Directive ν)} {tokens : List (Token ν)}
    (h : ofDirectives directives = tokens.map .ok) : Divided directives tokens where
  groups := by
    obtain ⟨groups, hflatten, hreads⟩ := exists_reads h
    exact ⟨groups, ⟨hflatten, hreads.spelled⟩, fun others hothers =>
      eq_of_spelled hreads.spelled hothers.2 (hothers.1.trans hflatten.symm)⟩
  insert groups hflatten hspelled k _ token group hinserted := by
    subst hflatten
    exact ((reads_of_spelled h hspelled).insert hinserted k).ofDirectives_eq
  core _ := core_of_interspersed

/-- The least of some prices, with a lower bound of its own. -/
def leastPrice : List (Directive Descriptor) :=
  [.word "min", .word "offers.price", .word "number", .handler fun value _ => .ok value,
    .literal (.ofNat 5)]

def leastPriceTokens : List (Token Descriptor) :=
  [.aggregate .min "offers.price" none, .type .number, .handler fun value _ => .ok value,
    .literal (.ofNat 5)]

/-- The directives of each token. -/
def leastPriceGroups : List (List (Directive Descriptor)) :=
  [leastPrice.take 2, [.word "number"], [.handler fun value _ => .ok value], [.literal (.ofNat 5)]]

/-- The handler is not taken for a transformer, since the type stands between. -/
theorem reads_leastPrice : Reads leastPriceTokens leastPriceGroups where
  spelled := by
    have hnumber : (Word.classify "number" : Word Descriptor) = .token (.type .number) := by
      simp [Word.classify, Word.ofText, bracketed?, after?, AggregateOp.ofToken?,
        ScalarType.ofToken?]
    exact .cons (.aggregate rfl rfl) <| .cons (.word hnumber) <| .cons (.handler _) <|
      .cons (.literal _) .nil
  parted := by simp [leastPriceTokens, Parted, IsOpen, IsHandler]

/-- A lower bound behind the aggregate of the same word stays a bound, and the computed handler is
not taken for a transformer. -/
theorem divided_of_ofDirectives_leastPrice :
    ofDirectives leastPrice = leastPriceTokens.map .ok ∧
      ofDirectives (leastPrice.take 2 ++ [.word "min", .literal (.ofNat 1)] ++ leastPrice.drop 2) =
        (leastPriceTokens.take 1 ++ .bound .min (.ofNat 1) :: leastPriceTokens.drop 1).map .ok := by
  have hread : ofDirectives leastPrice = leastPriceTokens.map .ok :=
    reads_leastPrice.ofDirectives_eq
  exact ⟨hread, (divided_of_ofDirectives hread).insert leastPriceGroups rfl
    reads_leastPrice.spelled 1 (by decide) _ _ (.bound .min (.ofNat 1))⟩

end Token

end NestedRecord
