import Mathlib.Data.List.Pairwise
import Mathlib.Logic.Relation
import Mathlib.Order.Defs.Unbundled
import StraightLine.Proofs.Frames

/-!
# The shape of a scope tree

A scope stores its identity, its parent and its children, and the tree stores its root.  All of this
follows from the parents and the order of creation, and in a tree that was grown it agrees:
identities are positions, the lists of children are the parents read backwards, and the chain of
parents that starts at a scope ends at a scope without parent.

## Main definitions

* `ScopeTree.Below` — the parent relation.
* `ScopeTree.Ascends` — a list that leads from a scope to one without parent.
* `ScopeTree.WellFormed` — the stored links agree with each other.

## Main statements

* `ScopeTree.Ranked.ascends` — the ancestors of a scope lead to one without parent.
* `ScopeTree.Ranked.mem_ancestors_iff` — they are what the parent relation reaches.
* `ScopeTree.Grown.wellFormed` — every grown tree is well formed.

## Design notes

* **Age is the measure.**  A parent is older than its child, so a chain of parents strictly
  descends: it ends, it repeats nothing, and two scopes cannot be above each other.  There may be
  any number of scopes without parent.
-/

namespace StraightLine

namespace ScopeTree

variable {α : Type} {tree : ScopeTree α}

/-- The parent of the first scope is the second.  Ancestors are compared with
the reflexive and transitive closure of this relation, which is stated without
chains and without fuel. -/
def Below (tree : ScopeTree α) (child parent : ScopeId) : Prop := tree.parent? child = some parent

instance (tree : ScopeTree α) (child parent : ScopeId) : Decidable (tree.Below child parent) :=
  inferInstanceAs (Decidable (tree.parent? child = some parent))

/-- A list leads from a scope to its parent, and so on to a scope without
parent.  Unlike membership in `ancestors`, this says that no step of the list is
left out and that it does not stop too early. -/
inductive Ascends (tree : ScopeTree α) : ScopeId → List ScopeId → Prop where
  | last {id : ScopeId} : id < tree.size → tree.parent? id = none → Ascends tree id [id]
  | step {id parent : ScopeId} {above : List ScopeId} :
      tree.Below id parent → Ascends tree parent above → Ascends tree id (id :: above)

/-! ## Parents -/

theorem Below.exists_get? {id parent : ScopeId} (h : tree.Below id parent) :
    ∃ scope, tree.get? id = some scope ∧ scope.parent = some parent :=
  Option.bind_eq_some_iff.mp h

/-- A parent is older than its child.  This is `Ranked` read on the relation,
and the measure of every induction along parents in this module. -/
theorem Ranked.lt_of_below (ranked : tree.Ranked) {id parent : ScopeId}
    (h : tree.Below id parent) : parent < id := by
  obtain ⟨scope, hget, hparent⟩ := h.exists_get?
  exact ranked id scope parent hget hparent

theorem Ranked.ancestors_of_below (ranked : tree.Ranked) {id parent : ScopeId}
    (h : tree.Below id parent) : tree.ancestors id = id :: tree.ancestors parent := by
  obtain ⟨scope, hget, hparent⟩ := h.exists_get?
  exact ranked.ancestors_of_parent hget hparent

theorem ancestors_of_parent?_eq_none {id : ScopeId} (h : id < tree.size)
    (hparent : tree.parent? id = none) : tree.ancestors id = [id] := by
  obtain ⟨scope, hget⟩ := exists_get? h
  rw [parent?, hget] at hparent
  exact ancestors_of_root hget hparent

/-! ## Ancestors -/

/-- The chain of parents of a scope ends at a scope without parent.  The
induction is on the age of the scope, not on the fuel of the chain: its parent
is older, and its chain is the scope followed by that of the parent. -/
theorem Ranked.ascends (ranked : tree.Ranked) {id : ScopeId} (h : id < tree.size) :
    tree.Ascends id (tree.ancestors id) := by
  induction id using Nat.strongRecOn with
  | ind id ih =>
      cases hparent : tree.parent? id with
      | none =>
          rw [ancestors_of_parent?_eq_none h hparent]
          exact .last h hparent
      | some parent =>
          have hlt := ranked.lt_of_below hparent
          rw [ranked.ancestors_of_below hparent]
          exact .step hparent (ih parent hlt (Nat.lt_trans hlt h))

/-- Along a chain of parents the scopes get older.  So nothing is met twice, and
two different scopes are never above each other. -/
theorem Ranked.pairwise_ancestors (ranked : tree.Ranked) (id : ScopeId) :
    (tree.ancestors id).Pairwise (· > ·) := by
  induction id using Nat.strongRecOn with
  | ind id ih =>
      rcases Nat.lt_or_ge id tree.size with h | h
      · cases hparent : tree.parent? id with
        | none =>
            rw [ancestors_of_parent?_eq_none h hparent]
            exact List.pairwise_singleton _ _
        | some parent =>
            have hlt := ranked.lt_of_below hparent
            rw [ranked.ancestors_of_below hparent]
            refine List.pairwise_cons.mpr ⟨fun a ha => ?_, ih parent hlt⟩
            exact Nat.lt_of_le_of_lt (ranked.le_of_mem_ancestors ha) hlt
      · rw [ancestors_of_none (get?_eq_none_iff.mpr h)]
        exact List.Pairwise.nil

theorem Ranked.nodup_ancestors (ranked : tree.Ranked) (id : ScopeId) :
    (tree.ancestors id).Nodup :=
  (ranked.pairwise_ancestors id).imp fun h => (Nat.ne_of_lt h).symm

/-- The ancestors of a scope are what the parent relation reaches from it: the
computed list, cut off by its fuel, loses nothing and adds nothing. -/
theorem Ranked.mem_ancestors_iff (ranked : tree.Ranked) {id : ScopeId} (h : id < tree.size)
    (a : ScopeId) : a ∈ tree.ancestors id ↔ Relation.ReflTransGen tree.Below id a := by
  constructor
  · intro ha
    have hascends := ranked.ascends h
    generalize tree.ancestors id = chain at ha hascends
    induction hascends with
    | last _ _ =>
        rw [List.mem_singleton.mp ha]
    | step hbelow _ ih =>
        rcases List.mem_cons.mp ha with rfl | ha
        · exact .refl
        · exact .head hbelow (ih (Nat.lt_trans (ranked.lt_of_below hbelow) h) ha)
  · intro hreach
    induction hreach using Relation.ReflTransGen.head_induction_on with
    | refl => exact self_mem_ancestors h
    | head hbelow _ ih =>
        rw [ranked.ancestors_of_below hbelow]
        exact List.mem_cons_of_mem _ (ih (Nat.lt_trans (ranked.lt_of_below hbelow) h))

/-- An ancestor of an ancestor is an ancestor. -/
theorem Ranked.mem_ancestors_trans (ranked : tree.Ranked) {id a b : ScopeId}
    (ha : a ∈ tree.ancestors id) (hb : b ∈ tree.ancestors a) : b ∈ tree.ancestors id := by
  have hid : id < tree.size := by
    by_contra hle
    rw [ancestors_of_none (get?_eq_none_iff.mpr (Nat.le_of_not_lt hle))] at ha
    cases ha
  rw [ranked.mem_ancestors_iff (lt_size_of_mem_ancestors ha)] at hb
  rw [ranked.mem_ancestors_iff hid] at ha ⊢
  exact ha.trans hb

/-! ## Stored links -/

/-- Identity, children and root of the scopes agree with their parents and the
order of creation.

A scope stores more than its position in the arena and its parent, and every
stored link could in principle contradict the others.  The fields say of each
link how it is determined by the parents and the order, so that a tree is fixed
by these two and its bindings. -/
structure WellFormed (tree : ScopeTree α) : Prop where
  /-- The identity of a scope is its position. -/
  id_eq : ∀ id scope, tree.get? id = some scope → scope.id = id
  /-- The root is the scope created first. -/
  root?_eq : tree.root? = (List.range tree.size).head?
  /-- A parent is older than its child. -/
  parent_lt : ∀ id parent, tree.parent? id = some parent → parent < id
  /-- The children of a scope are the scopes of which it is the parent, each once and in the order
  of creation. -/
  children_eq : ∀ id, tree.children id =
    (List.range tree.size).filter fun child => tree.parent? child = some id
  /-- The ancestors of a scope lead from it to a scope without parent. -/
  ascends : ∀ id < tree.size, tree.Ascends id (tree.ancestors id)
  /-- No ancestor is met twice. -/
  nodup_ancestors : ∀ id, (tree.ancestors id).Nodup
  /-- A scope descends from those that the parent relation reaches. -/
  isDescendantOf_iff : ∀ id < tree.size, ∀ ancestor,
    tree.isDescendantOf id ancestor = true ↔ Relation.ReflTransGen tree.Below id ancestor
  /-- Descent orders the scopes. -/
  partialOrder : IsPartialOrder {id // id < tree.size} fun a b => tree.isDescendantOf a b = true

/-- What the empty tree has and every creation and declaration keeps is true of
every grown tree.  The two constructors of `Grown` that create a scope are one
case here, with a parent that exists if there is one; the invariants below treat
them alike. -/
@[elab_as_elim]
theorem Grown.induction {motive : ScopeTree α → Prop} (empty : motive .empty)
    (create : ∀ tree parent, tree.Grown → (∀ p ∈ parent, p < tree.size) → motive tree →
      motive (tree.create parent))
    (declare : ∀ tree id name value, tree.Grown → id < tree.size → motive tree →
      motive (tree.declare id name value)) {tree : ScopeTree α} (grown : tree.Grown) :
    motive tree := by
  induction grown with
  | empty => exact empty
  | root grown ih => exact create _ none grown (by simp) ih
  | child grown hparent ih => exact create _ (some _) grown (by simpa using hparent) ih
  | declare name value grown hid ih => exact declare _ _ name value grown hid ih

/-- A scope is stored at the position that it has as its identity.
`isDescendantOf` compares stored identities, and through this lemma it compares
positions. -/
theorem Grown.id_eq (grown : tree.Grown) :
    ∀ (id : ScopeId) (scope : Scope α), tree.get? id = some scope → scope.id = id := by
  refine Grown.induction ?empty ?create ?declare grown
  case empty =>
    intro id scope hget
    simp [get?, ScopeTree.empty] at hget
  case create =>
    intro tree parent _ _ ih id scope hget
    rw [get?_create] at hget
    split at hget
    · cases hget
      exact Eq.symm ‹_›
    · split at hget
      · obtain ⟨old, hold, rfl⟩ := Option.map_eq_some_iff.mp hget
        exact ih id old hold
      · exact ih id scope hget
  case declare =>
    intro tree id name value _ _ ih j scope hget
    rw [get?_declare] at hget
    split at hget
    · obtain ⟨old, hold, rfl⟩ := Option.map_eq_some_iff.mp hget
      exact ih j old hold
    · exact ih j scope hget

/-- The root is set by the first creation, and not again, also where a later
scope has no parent either. -/
theorem Grown.root?_eq (grown : tree.Grown) : tree.root? = (List.range tree.size).head? := by
  refine Grown.induction ?empty ?create ?declare grown
  case empty => rfl
  case create =>
    intro tree parent _ _ ih
    rw [root?_create, ih, size_create, List.range_succ, List.head?_append, List.head?_singleton]
  case declare =>
    intro tree id name value _ _ ih
    rw [root?_declare, ih, size_declare]

/-- The lists of children are the parents read backwards: every scope stands in
exactly one list, the one of its parent, and the lists are in the order of
creation. -/
theorem Grown.children_eq (grown : tree.Grown) :
    ∀ id : ScopeId, tree.children id =
      (List.range tree.size).filter fun child => tree.parent? child = some id := by
  refine Grown.induction ?empty ?create ?declare grown
  case empty =>
    intro id
    exact children_eq_nil (Nat.zero_le id)
  case create =>
    intro tree parent _ hparent ih id
    have hold : (List.range tree.size).filter (fun child => (tree.create parent).parent? child =
        some id) = (List.range tree.size).filter fun child => tree.parent? child = some id := by
      refine List.filter_congr fun child hchild => ?_
      rw [parent?_create, if_neg (Nat.ne_of_lt (List.mem_range.mp hchild))]
    have hnew : [tree.size].filter (fun child => (tree.create parent).parent? child = some id) =
        if parent = some id then [tree.size] else [] := by
      simp only [List.filter_cons, List.filter_nil, parent?_create, if_true, decide_eq_true_eq]
    rw [children_create hparent, ih, size_create, List.range_succ, List.filter_append, hold, hnew]
  case declare =>
    intro tree id name value _ _ ih j
    rw [children_declare, ih, size_declare]
    simp only [parent?_declare]

/-- A scope descends from its ancestors, itself included.  Identities are
positions, so the test along the chain is membership in it. -/
theorem Grown.isDescendantOf_iff (grown : tree.Grown) (id ancestor : ScopeId) :
    tree.isDescendantOf id ancestor = true ↔ ancestor ∈ tree.ancestors id := by
  rw [isDescendantOf, List.any_eq_true]
  constructor
  · rintro ⟨a, ha, hsame⟩
    obtain ⟨scope, hget⟩ := exists_get? (lt_size_of_mem_ancestors ha)
    rw [hget, Option.any_some, beq_iff_eq, grown.id_eq a scope hget] at hsame
    exact hsame ▸ ha
  · intro ha
    obtain ⟨scope, hget⟩ := exists_get? (lt_size_of_mem_ancestors ha)
    refine ⟨ancestor, ha, ?_⟩
    rw [hget, Option.any_some, beq_iff_eq]
    exact grown.id_eq ancestor scope hget

/-- Descent is a partial order: ancestors of ancestors are ancestors, and they are older. -/
theorem Grown.partialOrder (grown : tree.Grown) :
    IsPartialOrder {id // id < tree.size} fun a b => tree.isDescendantOf a b = true where
  refl a := (grown.isDescendantOf_iff _ _).mpr (self_mem_ancestors a.2)
  trans a b c hab hbc := by
    rw [grown.isDescendantOf_iff] at hab hbc ⊢
    exact grown.ranked.mem_ancestors_trans hab hbc
  antisymm a b hab hba := by
    rw [grown.isDescendantOf_iff] at hab hba
    exact Subtype.ext (Nat.le_antisymm (grown.ranked.le_of_mem_ancestors hba)
      (grown.ranked.le_of_mem_ancestors hab))

/-- **Every grown tree is well formed.** -/
theorem Grown.wellFormed (grown : tree.Grown) : tree.WellFormed where
  id_eq := grown.id_eq
  root?_eq := grown.root?_eq
  parent_lt _ _ h := grown.ranked.lt_of_below h
  children_eq := grown.children_eq
  ascends _ h := grown.ranked.ascends h
  nodup_ancestors := grown.ranked.nodup_ancestors
  isDescendantOf_iff id h ancestor := by
    rw [grown.isDescendantOf_iff, grown.ranked.mem_ancestors_iff h]
  partialOrder := grown.partialOrder

end ScopeTree

end StraightLine
