import NestedRecord.Proofs.Procedure.Order

/-!
# Scaffolds that become programs

A scaffold becomes a program unless one list is reached in two ways or without any names. Neither
happens as long as all loops are taken from a supply in which the key of a list says how it is
reached.

* `Loop.Supply` is such a supply.
* `Scaffold.Supplied` says that a scaffold is built from it, and `Supplied.add` that it stays so
  when a fragment is added.
* `Supplied.exists_program` is the result.

Conflicts come up while fragments are added, unreachable lists when the scaffold is finished. The
first kind is avoided because two loops of one key are the same loop, and the second because every
loop has at least one name to its list. Both are kept by every edit, so nothing has to be known
about which fragments there are.
-/

namespace NestedRecord

/-- Loops that fit together in one procedure. -/
structure Loop.Supply (p : Loop → Prop) : Prop where
  eq_of_key : ∀ {a b : Loop}, p a → p b → a.key = b.key → a = b
  access_ne_nil : ∀ {loop : Loop}, p loop → loop.access ≠ []

namespace Pass

variable {F : Type} {p : Loop → Prop} {here : List Loop}

/-- A pass that goes into lists of the supply only. -/
def Draws (p : Loop → Prop) (pass : Pass F) : Prop := ∀ entry ∈ pass.inner, p entry.1

/-- What is changed under a loop of the supply is not in conflict with what is there. -/
theorem editInner_of_supply (hp : Loop.Supply p) {edit : Pass F → Pass F × List String}
    {loop : Loop} (hloop : p loop) {q : Loop → Pass F → Prop} (hempty : q loop .empty)
    (hedit : ∀ pass, q loop pass → (edit pass).2 = [] ∧ q loop (edit pass).1) :
    ∀ inner : List (Loop × Pass F), (∀ entry ∈ inner, p entry.1 ∧ q entry.1 entry.2) →
      (editInner edit loop inner).2 = [] ∧
        ∀ entry ∈ (editInner edit loop inner).1, p entry.1 ∧ q entry.1 entry.2
  | [], _ => by
    obtain ⟨hnone, hpass⟩ := hedit _ hempty
    refine ⟨hnone, fun entry hentry => ?_⟩
    obtain rfl := List.mem_singleton.mp hentry
    exact ⟨hloop, hpass⟩
  | (known, pass) :: rest, hinner => by
    obtain ⟨hknown, hrest⟩ := List.forall_mem_cons.mp hinner
    -- one key is one loop, so the pass is found under the same loop or not at all
    by_cases hkey : known.key = loop.key
    · obtain rfl : known = loop := hp.eq_of_key hknown.1 hloop hkey
      obtain ⟨hnone, hpass⟩ := hedit pass hknown.2
      have hedited : editInner edit known ((known, pass) :: rest) =
          ((known, (edit pass).1) :: rest, (edit pass).2) := by
        simp [editInner]
      rw [hedited]
      exact ⟨hnone, List.forall_mem_cons.mpr ⟨⟨hloop, hpass⟩, hrest⟩⟩
    · rw [editInner_cons_of_ne hkey]
      obtain ⟨hnone, hedited⟩ := editInner_of_supply hp hloop hempty hedit rest hrest
      exact ⟨hnone, List.forall_mem_cons.mpr ⟨hknown, hedited⟩⟩

/-- A change where loops of the supply lead to. -/
theorem edit_of_supply (hp : Loop.Supply p) {f : Pass F → Pass F} (hf : KeepsInner f) :
    ∀ (loops here : List Loop) (pass : Pass F), (∀ loop ∈ loops, p loop) →
      Every (fun _ => Draws p) here pass →
        (edit f loops pass).2 = [] ∧ Every (fun _ => Draws p) here (edit f loops pass).1
  | [], here, pass, _, h => by
    refine ⟨rfl, ?_⟩
    have hinner := hf pass
    show Every _ here (f pass)
    generalize f pass = changed at hinner ⊢
    obtain ⟨pre, body, post, inner⟩ := changed
    obtain rfl : inner = pass.inner := hinner
    exact h.parts
  | loop :: rest, here, .mk pre body post inner, hloops, h => by
    obtain ⟨hdraws, hinner⟩ := h
    obtain ⟨hloop, hrest⟩ := List.forall_mem_cons.mp hloops
    rw [everyInner_iff] at hinner
    obtain ⟨hnone, hedited⟩ := editInner_of_supply hp hloop
      (q := fun loop => Every (fun _ => Draws p) (here ++ [loop]))
      ⟨List.forall_mem_nil _, trivial⟩
      (fun pass => edit_of_supply hp hf rest (here ++ [loop]) pass hrest) inner
      fun entry hentry => ⟨hdraws entry hentry, hinner entry hentry⟩
    refine ⟨hnone, fun entry hentry => (hedited entry hentry).1, ?_⟩
    exact everyInner_iff.mpr fun entry hentry => (hedited entry hentry).2

mutual

/-- All lists of the supply are reached through names. -/
theorem unreachable?_of_supply (hp : Loop.Supply p) :
    ∀ {here : List Loop} {pass : Pass F}, Every (fun _ => Draws p) here pass →
      pass.unreachable? = none
  | _, .mk _ _ _ _, ⟨hdraws, hinner⟩ => unreachableInner?_of_supply hp hdraws hinner

/-- No inner list is unreachable. -/
theorem unreachableInner?_of_supply (hp : Loop.Supply p) :
    ∀ {here : List Loop} {inner : List (Loop × Pass F)}, (∀ entry ∈ inner, p entry.1) →
      EveryInner (fun _ => Draws p) here inner → unreachableInner? inner = none
  | _, [], _, _ => rfl
  | _, (loop, pass) :: rest, hinner, ⟨hpass, hrest⟩ => by
    obtain ⟨hloop, hothers⟩ := List.forall_mem_cons.mp hinner
    have haccess : loop.access.isEmpty = false :=
      List.isEmpty_eq_false_iff.mpr (hp.access_ne_nil hloop)
    rw [unreachableInner?, haccess, unreachable?_of_supply hp hpass]
    exact unreachableInner?_of_supply hp hothers hrest

end

end Pass

namespace Scaffold

variable {F : Type} {p : Loop → Prop} {scaffold : Scaffold F}

/-- All loops of a scaffold are taken from the supply, and nothing is in conflict. -/
structure Supplied (p : Loop → Prop) (scaffold : Scaffold F) : Prop where
  conflicts : scaffold.conflicts = []
  draws : Pass.Every (fun _ => Pass.Draws p) [] scaffold.root

theorem supplied_start (name : String) : Supplied p { name : Scaffold F } :=
  ⟨rfl, List.forall_mem_nil _, trivial⟩

theorem Supplied.add (h : scaffold.Supplied p) (hp : Loop.Supply p) {loops : List Loop}
    (hloops : ∀ loop ∈ loops, p loop) (bucket : Bucket) (label : String) (action : F) :
    (scaffold.add loops bucket label action).Supplied p := by
  obtain ⟨hnone, hdraws⟩ := Pass.edit_of_supply hp (Pass.keepsInner_push bucket ⟨label, action⟩)
    loops [] scaffold.root hloops h.draws
  exact ⟨List.append_eq_nil_iff.mpr ⟨h.conflicts, hnone⟩, hdraws⟩

/-- A scaffold that is built from a supply becomes a program. -/
theorem Supplied.exists_program (h : scaffold.Supplied p) (hp : Loop.Supply p) :
    ∃ program, scaffold.synthesize = .ok program := by
  unfold synthesize
  rw [h.conflicts, Pass.unreachable?_of_supply hp h.draws]
  exact ⟨_, rfl⟩

end Scaffold

end NestedRecord
