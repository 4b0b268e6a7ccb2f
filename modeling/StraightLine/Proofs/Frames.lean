import Mathlib.Data.List.Basic
import StraightLine.Proofs.ScopeTree

/-!
# The stack of a chain

What a program sees from a scope is a stack of binding maps: those along the chain of parents,
innermost first.  This module says how the stacks of a tree change while a program runs in one of
its scopes.

## Main definitions

* `ScopeTree.frames` — the binding maps along a chain.
* `ScopeTree.Spares` — a change of a tree that only concerns one scope and what is new.

## Main statements

* `ScopeTree.lookup_eq_findSome?` — a look-up along the chain is a look-up in the stack.
* `ScopeTree.Spares.of_create` — what happens in a fresh scope changes no older stack.

## Design notes

* **The arena is only compared where a chain can still see it.**  A finished block stays in the
  arena, but behind all older scopes, and a chain only leads to older scopes.  So `Spares` says of
  every older scope that its chain is unchanged, and its stack as well unless the changed scope is
  on the chain.
-/

namespace StraightLine

namespace ScopeTree

variable {α : Type}

/-- The bindings made directly in a scope. -/
def bindings? (tree : ScopeTree α) (id : ScopeId) : Option (Dictionary String α) :=
  (tree.get? id).map Scope.bindings

/-- The binding maps along the chain of parents of a scope, innermost first.
Two scopes with the same stack see the same values, wherever in an arena they
stand; so this is what a run in a tree is compared by with a run over a stack. -/
def frames (tree : ScopeTree α) (id : ScopeId) : List (Dictionary String α) :=
  (tree.ancestors id).filterMap tree.bindings?

/-- A look-up along the chain is a look-up in its stack.  It needs no assumption
on the tree, because both sides follow the same list of scopes. -/
theorem lookup_eq_findSome? (tree : ScopeTree α) (id : ScopeId) (name : String) :
    tree.lookup id name = (tree.frames id).findSome? (·.get? name) := by
  rw [lookup, frames, ← List.head?_filterMap, ← List.head?_filterMap, List.filterMap_filterMap]
  refine congrArg List.head? (List.filterMap_congr fun a _ => ?_)
  rw [local?, bindings?]
  cases tree.get? a <;> rfl

/-- Scopes with the same stack see the same names. -/
theorem contains_eq_of_frames_eq {tree tree' : ScopeTree α} {id id' : ScopeId}
    (h : tree.frames id = tree'.frames id') (name : String) :
    tree.contains id name = tree'.contains id' name := by
  rw [contains, contains, lookup_eq_findSome?, lookup_eq_findSome?, h]

/-- A creation leaves the bindings of the older scopes alone. -/
theorem bindings?_create (tree : ScopeTree α) (parent : Option ScopeId) {id : Nat}
    (h : id < tree.size) : (tree.create parent).bindings? id = tree.bindings? id := by
  rw [bindings?, get?_create, if_neg (Nat.ne_of_lt h)]
  split
  · rw [Option.map_map]
    rfl
  · rfl

theorem bindings?_declare_of_ne (tree : ScopeTree α) {id j : Nat} (h : j ≠ id) (name : String)
    (value : α) : (tree.declare id name value).bindings? j = tree.bindings? j := by
  rw [bindings?, get?_declare, if_neg h]
  rfl

/-- Chains lead to older scopes. -/
theorem Ranked.le_of_mem_ancestors {tree : ScopeTree α} (ranked : tree.Ranked) {a id : Nat}
    (h : a ∈ tree.ancestors id) : a ≤ id := by
  induction id using Nat.strongRecOn with
  | ind id ih =>
      obtain ⟨scope, hget⟩ : ∃ scope, tree.get? id = some scope := by
        cases hget : tree.get? id with
        | none =>
            rw [ancestors_of_none hget] at h
            cases h
        | some scope => exact ⟨scope, rfl⟩
      cases hparent : scope.parent with
      | none =>
          rw [ancestors_of_root hget hparent, List.mem_singleton] at h
          exact Nat.le_of_eq h
      | some parent =>
          have hlt := ranked id scope parent hget hparent
          rw [ranked.ancestors_of_parent hget hparent] at h
          rcases List.mem_cons.mp h with heq | h
          · exact Nat.le_of_eq heq
          · exact Nat.le_trans (ih parent hlt h) (Nat.le_of_lt hlt)

/-- The chain of an existing scope is the scope itself and older ones.  So a
change in a scope changes the head of its own stack and nothing behind it. -/
theorem Ranked.exists_ancestors_eq {tree : ScopeTree α} (ranked : tree.Ranked) {id : Nat}
    (h : id < tree.size) : ∃ above, tree.ancestors id = id :: above ∧ ∀ a ∈ above, a < id := by
  obtain ⟨scope, hget⟩ := exists_get? h
  cases hparent : scope.parent with
  | none => exact ⟨[], ancestors_of_root hget hparent, by simp⟩
  | some parent =>
      refine ⟨_, ranked.ancestors_of_parent hget hparent, fun a ha => ?_⟩
      exact Nat.lt_of_le_of_lt (ranked.le_of_mem_ancestors ha) (ranked id scope parent hget hparent)

/-- A fresh scope has an empty map on top of the stack of its parent: entering a
block is a push. -/
theorem Ranked.frames_create_self {tree : ScopeTree α} (ranked : tree.Ranked) {parent : Nat}
    (hparent : parent < tree.size) :
    (tree.create (some parent)).frames tree.size = .empty :: tree.frames parent := by
  have hold : ∀ a ∈ tree.ancestors parent,
      (tree.create (some parent)).bindings? a = tree.bindings? a :=
    fun a ha => bindings?_create tree _ (lt_size_of_mem_ancestors ha)
  have hnew : (tree.create (some parent)).bindings? tree.size = some .empty := by
    rw [bindings?, get?_create, if_pos rfl]
    rfl
  rw [frames, ranked.ancestors_create_self hparent, List.filterMap_cons_some hnew,
    List.filterMap_congr hold, frames]

/-- A declaration in a scope binds a name in the top map of its stack, and the
maps below it stay, since an assignment never reaches an outer block. -/
theorem Ranked.frames_declare_self {tree : ScopeTree α} (ranked : tree.Ranked) {id : Nat}
    (h : id < tree.size) (name : String) (value : α) :
    (tree.declare id name value).frames id =
      (tree.frames id).modifyHead (·.insert name value) := by
  obtain ⟨above, habove, hlt⟩ := ranked.exists_ancestors_eq h
  obtain ⟨scope, hget⟩ := exists_get? h
  have hsame : ∀ a ∈ above, (tree.declare id name value).bindings? a = tree.bindings? a :=
    fun a ha => bindings?_declare_of_ne tree (Nat.ne_of_lt (hlt a ha)) name value
  have htop : tree.bindings? id = some scope.bindings := by
    rw [bindings?, hget]
    rfl
  have htop' : (tree.declare id name value).bindings? id =
      some (scope.bindings.insert name value) := by
    rw [bindings?, get?_declare, if_pos rfl, hget]
    rfl
  rw [frames, frames, ancestors_declare, habove, List.filterMap_cons_some htop',
    List.filterMap_cons_some htop, List.filterMap_congr hsame]
  rfl

/-! ## Changes that concern one scope -/

/-- A change of a tree that only concerns one scope and the scopes that are new:
the older scopes keep their chains, and those that do not have the scope on
their chain keep their stacks.

A run of a statement in a scope is such a change, and so is a run of statements,
because the relation is transitive.  It says nothing of the scopes that are new,
which is what lets a block be closed without describing what is left of it in
the arena. -/
structure Spares (scope : ScopeId) (before after : ScopeTree α) : Prop where
  ranked : after.Ranked
  size_le : before.size ≤ after.size
  ancestors : ∀ id : Nat, id < before.size → after.ancestors id = before.ancestors id
  frames : ∀ id : Nat, id < before.size → scope ∉ before.ancestors id →
    after.frames id = before.frames id

namespace Spares

variable {scope : ScopeId} {before middle after : ScopeTree α}

theorem refl (ranked : before.Ranked) : Spares scope before before where
  ranked := ranked
  size_le := Nat.le_refl _
  ancestors := fun _ _ => rfl
  frames := fun _ _ _ => rfl

theorem trans (h : Spares scope before middle) (h' : Spares scope middle after) :
    Spares scope before after where
  ranked := h'.ranked
  size_le := Nat.le_trans h.size_le h'.size_le
  ancestors := by
    intro id hid
    rw [h'.ancestors id (Nat.lt_of_lt_of_le hid h.size_le), h.ancestors id hid]
  frames := by
    intro id hid hscope
    have hscope' : scope ∉ middle.ancestors id := by rwa [h.ancestors id hid]
    rw [h'.frames id (Nat.lt_of_lt_of_le hid h.size_le) hscope', h.frames id hid hscope]

/-- A declaration spares all but the scope it is made in. -/
theorem declare (ranked : before.Ranked) (name : String) (value : α) :
    Spares scope before (before.declare scope name value) where
  ranked := ranked.declare scope name value
  size_le := Nat.le_of_eq (size_declare ..).symm
  ancestors := fun id _ => ancestors_declare ..
  frames := by
    intro id _ hscope
    rw [ScopeTree.frames, ScopeTree.frames, ancestors_declare]
    exact List.filterMap_congr fun a ha =>
      bindings?_declare_of_ne before (fun heq => hscope (by rwa [← heq])) name value

/-- What happens in a fresh scope changes no older stack at all.  The fresh
scope is on no older chain, so the exception that `Spares` makes for its scope
does not apply; this is the step from the body of a block to the block. -/
theorem of_create {parent : Nat} (ranked : before.Ranked) (hparent : parent < before.size)
    (h : Spares before.size (before.create (some parent)) after) :
    Spares scope before after ∧ ∀ id : Nat, id < before.size →
      after.frames id = before.frames id := by
  have hall : ∀ p ∈ some parent, p < before.size := by simpa using hparent
  have hancestors : ∀ id : Nat, id < before.size →
      (before.create (some parent)).ancestors id = before.ancestors id :=
    fun id hid => ranked.ancestors_create_of_ne hall (Nat.ne_of_lt hid)
  have hlt : ∀ id : Nat, id < before.size → id < (before.create (some parent)).size := by
    intro id hid
    rw [size_create]
    exact Nat.lt_succ_of_lt hid
  have hframes : ∀ id : Nat, id < before.size → after.frames id = before.frames id := by
    intro id hid
    have hfresh : before.size ∉ before.ancestors id :=
      fun hmem => absurd (lt_size_of_mem_ancestors hmem) (Nat.lt_irrefl _)
    rw [h.frames id (hlt id hid) (by rwa [hancestors id hid]), ScopeTree.frames, ScopeTree.frames,
      hancestors id hid]
    exact List.filterMap_congr fun a ha => bindings?_create before _ (lt_size_of_mem_ancestors ha)
  refine ⟨⟨h.ranked, ?_, fun id hid => ?_, fun id hid _ => hframes id hid⟩, hframes⟩
  · have hsize := h.size_le
    rw [size_create] at hsize
    exact Nat.le_of_succ_le hsize
  · rw [h.ancestors id (hlt id hid), hancestors id hid]

end Spares

end ScopeTree

end StraightLine
