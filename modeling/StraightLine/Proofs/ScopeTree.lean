import StraightLine.ScopeTree

/-!
# Growing scope trees

What the two operations on a scope tree do to the chains of parents and to what is visible from a
scope.

## Main definitions

* `ScopeTree.Grown` — the trees that creation and declaration can produce.
* `ScopeTree.Ranked` — every parent was created before its children.
* `ScopeTree.parent?` — the parent of a scope.

## Main statements

* `ScopeTree.Grown.ranked` — a grown tree is ranked, so chains of parents end.
* `ScopeTree.Ranked.contains_create` — a fresh scope sees what its parent sees, and nothing else
  changes.
* `ScopeTree.contains_declare` — a declaration is seen exactly from the scopes below it.
* `ScopeTree.declare_create`, `ScopeTree.declare_declare` — declarations in an older scope can be
  made before a creation, and in different scopes in any order.

## Design notes

* **Chains are reasoned about without their fuel.**  In a ranked tree `ancestors` satisfies the
  equation of the recursion along parents (`ancestors_of_parent`), and nothing after that lemma
  mentions the number of steps.
* Visibility is stated on `contains`, which is all that two trees with different slot types can have
  in common.
-/

namespace StraightLine

namespace ScopeTree

variable {α : Type}

/-- The trees that come from the empty one by creating scopes, each without
parent or below an existing scope, and by declaring names in existing scopes.

Both passes only ever create and declare, so an invariant of the trees they work
on is an induction over this predicate; nothing about the passes themselves
enters into it. -/
inductive Grown : ScopeTree α → Prop where
  | empty : Grown .empty
  | root {tree : ScopeTree α} : Grown tree → Grown (tree.create none)
  | child {tree : ScopeTree α} {parent : Nat} :
      Grown tree → parent < tree.size → Grown (tree.create (some parent))
  | declare {tree : ScopeTree α} {id : Nat} (name : String) (value : α) :
      Grown tree → id < tree.size → Grown (tree.declare id name value)

/-- Every parent is older than its child.

This is all that reasoning about chains needs: along a chain positions fall, so
the chain ends, the number of steps given to `chain` is never used up, and a
scope that was created later is never met.  It is weaker than `Grown` and kept
by every change of the tree, which makes it the fact that inductions over a run
carry. -/
def Ranked (tree : ScopeTree α) : Prop :=
  ∀ (id : Nat) (scope : Scope α) (parent : Nat),
    tree.get? id = some scope → scope.parent = some parent → parent < id

/-! ## The arena -/

theorem get?_eq_none_iff {tree : ScopeTree α} {id : Nat} :
    tree.get? id = none ↔ tree.size ≤ id := by
  simp [get?, size]

theorem lt_size_of_get? {tree : ScopeTree α} {id : Nat} {scope : Scope α}
    (h : tree.get? id = some scope) : id < tree.size :=
  (Array.getElem?_eq_some_iff.mp h).1

theorem exists_get? {tree : ScopeTree α} {id : Nat} (h : id < tree.size) :
    ∃ scope, tree.get? id = some scope := by
  cases hget : tree.get? id with
  | none => exact absurd h (Nat.not_lt.mpr (get?_eq_none_iff.mp hget))
  | some scope => exact ⟨scope, rfl⟩

@[simp] theorem size_update (tree : ScopeTree α) (id : Nat) (change : Scope α → Scope α) :
    (tree.update id change).size = tree.size := by
  unfold update
  split <;> simp [size]

theorem get?_update (tree : ScopeTree α) (id j : Nat) (change : Scope α → Scope α) :
    (tree.update id change).get? j =
      if j = id then (tree.get? j).map change else tree.get? j := by
  unfold update
  cases hid : tree.scopes[id]? with
  | none =>
      by_cases hj : j = id
      · subst hj
        simp [get?, hid]
      · simp [hj]
  | some scope =>
      by_cases hj : j = id
      · subst hj
        obtain ⟨hlt, rfl⟩ := Array.getElem?_eq_some_iff.mp hid
        simp [get?, hlt]
      · simp [get?, hj, Ne.symm hj]

@[simp] theorem size_create (tree : ScopeTree α) (parent : Option ScopeId) :
    (tree.create parent).size = tree.size + 1 := by
  cases parent with
  | none => simp [create, size]
  | some p =>
      have hsize := size_update tree p (·.addChild tree.size)
      simp only [size] at hsize
      simp [create, size, hsize]

@[simp] theorem size_declare (tree : ScopeTree α) (id : Nat) (name : String) (value : α) :
    (tree.declare id name value).size = tree.size :=
  size_update ..

/-- After a creation the newest scope is fresh, and an older one is what it was
up to its list of children.  Everything else that is said about a creation
(bindings, parents, chains, children) is read off this equation and
`get?_declare`. -/
theorem get?_create (tree : ScopeTree α) (parent : Option ScopeId) (j : Nat) :
    (tree.create parent).get? j =
      if j = tree.size then some (.fresh tree.size parent)
      else if parent = some j then (tree.get? j).map (·.addChild tree.size)
      else tree.get? j := by
  have hpush : ∀ (linked : ScopeTree α) (root : Option ScopeId), linked.size = tree.size →
      (⟨linked.scopes.push (.fresh tree.size parent), root⟩ : ScopeTree α).get? j =
        if j = tree.size then some (.fresh tree.size parent) else linked.get? j := by
    intro linked root hsize
    simp only [size] at hsize
    by_cases hj : j = tree.scopes.size
    · simp [get?, size, hj, ← hsize]
    · simp [get?, size, Array.getElem?_push, hsize, hj]
  cases parent with
  | none => simpa [create] using hpush tree _ rfl
  | some p =>
      have h := hpush _ (tree.root?.or (some tree.size)) (size_update tree p (·.addChild tree.size))
      rw [get?_update] at h
      simpa [create, eq_comm] using h

theorem get?_declare (tree : ScopeTree α) (id j : Nat) (name : String) (value : α) :
    (tree.declare id name value).get? j =
      if j = id then (tree.get? j).map (·.bind name value) else tree.get? j :=
  get?_update ..

/-! ## Ranked trees -/

theorem ranked_empty : (empty : ScopeTree α).Ranked := by
  intro id scope parent h
  simp [get?, empty] at h

theorem Ranked.create {tree : ScopeTree α} (ranked : tree.Ranked) {parent : Option ScopeId}
    (hparent : ∀ p ∈ parent, p < tree.size) : (tree.create parent).Ranked := by
  intro id scope p hget hp
  rw [get?_create] at hget
  split at hget
  · subst id
    cases hget
    exact hparent p hp
  · split at hget
    · obtain ⟨old, hold, rfl⟩ := Option.map_eq_some_iff.mp hget
      exact ranked id old p hold hp
    · exact ranked id scope p hget hp

theorem Ranked.declare {tree : ScopeTree α} (ranked : tree.Ranked) (id : Nat) (name : String)
    (value : α) : (tree.declare id name value).Ranked := by
  intro j scope p hget hp
  rw [get?_declare] at hget
  split at hget
  · obtain ⟨old, hold, rfl⟩ := Option.map_eq_some_iff.mp hget
    exact ranked j old p hold hp
  · exact ranked j scope p hget hp

/-- A grown tree is ranked: `create` can only name a scope that exists already,
and the new scope stands behind all of these. -/
theorem Grown.ranked {tree : ScopeTree α} (grown : tree.Grown) : tree.Ranked := by
  induction grown with
  | empty => exact ranked_empty
  | root _ ih => exact ih.create (by simp)
  | child _ hparent ih => exact ih.create (by simpa using hparent)
  | declare name value _ _ ih => exact ih.declare _ name value

/-! ## Chains of parents -/

theorem chain_succ (tree : ScopeTree α) (fuel : Nat) (id : Nat) :
    tree.chain (fuel + 1) id =
      match tree.get? id with
      | none => []
      | some scope =>
        match scope.parent with
        | none => [id]
        | some parent => id :: tree.chain fuel parent := rfl

/-- Fuel beyond the position of a scope changes nothing.  With this the number
of steps is gone: `ancestors` satisfies the equation of a recursion along
parents, and no later statement counts. -/
theorem Ranked.chain_eq {tree : ScopeTree α} (ranked : tree.Ranked) (id : Nat) :
    ∀ fuel, id < fuel → tree.chain fuel id = tree.ancestors id := by
  induction id using Nat.strongRecOn with
  | ind id ih =>
      intro fuel hfuel
      obtain ⟨m, rfl⟩ : ∃ m, fuel = m + 1 := ⟨fuel - 1, by omega⟩
      rw [ancestors, chain_succ, chain_succ]
      cases hget : tree.get? id with
      | none => rfl
      | some scope =>
          cases hparent : scope.parent with
          | none => simp only [hparent]
          | some parent =>
              have hlt := ranked id scope parent hget hparent
              simp only [hparent]
              rw [ih parent hlt m (by omega), ih parent hlt id hlt]

theorem ancestors_of_none {tree : ScopeTree α} {id : Nat} (h : tree.get? id = none) :
    tree.ancestors id = [] := by
  rw [ancestors, chain_succ, h]

theorem ancestors_of_root {tree : ScopeTree α} {id : Nat} {scope : Scope α}
    (h : tree.get? id = some scope) (hparent : scope.parent = none) :
    tree.ancestors id = [id] := by
  rw [ancestors, chain_succ, h]
  simp only [hparent]

theorem Ranked.ancestors_of_parent {tree : ScopeTree α} (ranked : tree.Ranked) {id : Nat}
    {scope : Scope α} {parent : Nat} (h : tree.get? id = some scope)
    (hparent : scope.parent = some parent) :
    tree.ancestors id = id :: tree.ancestors parent := by
  rw [ancestors, chain_succ, h]
  simp only [hparent]
  rw [ranked.chain_eq parent id (ranked id scope parent h hparent)]

/-- Only existing scopes are on a chain, whatever the fuel and whether or not
the tree is ranked. -/
theorem lt_size_of_mem_chain {tree : ScopeTree α} {a : Nat} :
    ∀ {fuel id}, a ∈ tree.chain fuel id → a < tree.size := by
  intro fuel
  induction fuel with
  | zero => intro id h; simp [chain] at h
  | succ fuel ih =>
      intro id h
      rw [chain_succ] at h
      cases hget : tree.get? id with
      | none => simp [hget] at h
      | some scope =>
          have hid := lt_size_of_get? hget
          cases hparent : scope.parent with
          | none =>
              simp only [hget, hparent, List.mem_singleton] at h
              omega
          | some parent =>
              simp only [hget, hparent, List.mem_cons] at h
              rcases h with rfl | h
              · exact hid
              · exact ih h

theorem lt_size_of_mem_ancestors {tree : ScopeTree α} {a id : Nat}
    (h : a ∈ tree.ancestors id) : a < tree.size :=
  lt_size_of_mem_chain h

theorem self_mem_ancestors {tree : ScopeTree α} {id : Nat} (h : id < tree.size) :
    id ∈ tree.ancestors id := by
  obtain ⟨scope, hget⟩ := exists_get? h
  rw [ancestors, chain_succ, hget]
  cases hparent : scope.parent <;> simp [hparent]

/-- A declaration leaves every chain alone, since it does not touch a parent.
This is why a declaration never moves a scope in or out of sight. -/
@[simp] theorem ancestors_declare (tree : ScopeTree α) (id : Nat) (name : String) (value : α)
    (j : Nat) : (tree.declare id name value).ancestors j = tree.ancestors j := by
  have hchain : ∀ fuel j, (tree.declare id name value).chain fuel j = tree.chain fuel j := by
    intro fuel
    induction fuel with
    | zero => intro j; rfl
    | succ fuel ih =>
        intro j
        rw [chain_succ, chain_succ, get?_declare]
        cases hget : tree.get? j with
        | none => simp
        | some scope =>
            by_cases hj : j = id
            · simp [hj, Scope.bind, ih]
            · simp [hj, ih]
  exact hchain (j + 1) j

/-- A creation leaves the chains of the older scopes alone: the only scope it
changes besides the new one is the parent, and that one gains a child, which no
chain reads. -/
theorem Ranked.ancestors_create_of_ne {tree : ScopeTree α} (ranked : tree.Ranked)
    {parent : Option ScopeId} (hparent : ∀ p ∈ parent, p < tree.size) {id : Nat}
    (hne : id ≠ tree.size) : (tree.create parent).ancestors id = tree.ancestors id := by
  have ranked' := ranked.create hparent
  induction id using Nat.strongRecOn with
  | ind id ih =>
      cases hget : tree.get? id with
      | none =>
          have hget' : (tree.create parent).get? id = none := by
            rw [get?_create, if_neg hne, hget]
            simp
          rw [ancestors_of_none hget, ancestors_of_none hget']
      | some scope =>
          obtain ⟨scope', hget', hsame⟩ :
              ∃ scope', (tree.create parent).get? id = some scope' ∧
                scope'.parent = scope.parent := by
            rw [get?_create, if_neg hne, hget]
            split
            · exact ⟨_, rfl, rfl⟩
            · exact ⟨_, rfl, rfl⟩
          cases hp : scope.parent with
          | none =>
              rw [ancestors_of_root hget hp, ancestors_of_root hget' (hsame.trans hp)]
          | some p =>
              have hlt := ranked id scope p hget hp
              have hid := lt_size_of_get? hget
              rw [ranked.ancestors_of_parent hget hp,
                ranked'.ancestors_of_parent hget' (hsame.trans hp), ih p hlt (by omega)]

/-- The chain of a fresh scope is the scope itself and the chain of its parent.
With `ancestors_create_of_ne` this describes all chains after a creation. -/
theorem Ranked.ancestors_create_self {tree : ScopeTree α} (ranked : tree.Ranked)
    {parent : Nat} (hparent : parent < tree.size) :
    (tree.create (some parent)).ancestors tree.size = tree.size :: tree.ancestors parent := by
  have hall : ∀ p ∈ some parent, p < tree.size := by simpa using hparent
  have hget : (tree.create (some parent)).get? tree.size =
      some (.fresh tree.size (some parent)) := by
    rw [get?_create, if_pos rfl]
  rw [(ranked.create hall).ancestors_of_parent hget rfl,
    ranked.ancestors_create_of_ne hall (by omega)]

/-! ## Visibility -/

/-- A scope that does not exist binds nothing. -/
theorem local?_eq_none {tree : ScopeTree α} {id : Nat} (h : tree.size ≤ id) (name : String) :
    tree.local? id name = none := by
  rw [local?, get?_eq_none_iff.mpr h]
  rfl

/-- A creation binds nothing. -/
@[simp] theorem local?_create (tree : ScopeTree α) (parent : Option ScopeId) (id : Nat)
    (name : String) : (tree.create parent).local? id name = tree.local? id name := by
  unfold local?
  rw [get?_create]
  by_cases hid : id = tree.size
  · have hnone : tree.get? id = none := get?_eq_none_iff.mpr (by omega)
    rw [if_pos hid, hnone]
    rfl
  · rw [if_neg hid]
    split
    · cases tree.get? id <;> rfl
    · rfl

theorem local?_declare {tree : ScopeTree α} {id : Nat} (h : id < tree.size) (name : String)
    (value : α) (j : Nat) (m : String) :
    (tree.declare id name value).local? j m =
      if j = id ∧ m = name then some value else tree.local? j m := by
  unfold local?
  rw [get?_declare]
  by_cases hj : j = id
  · subst hj
    obtain ⟨scope, hget⟩ := exists_get? h
    simp [hget, Scope.bind, Dictionary.get?_insert, eq_comm]
  · simp [hj]

theorem contains_iff {tree : ScopeTree α} {id : Nat} {name : String} :
    tree.contains id name = true ↔
      ∃ a ∈ tree.ancestors id, (tree.local? a name).isSome = true := by
  simp [contains, lookup, List.findSome?_isSome_iff]

/-- A fresh scope sees what its parent sees, and what other scopes see does not
change: entering a block changes nothing about names. -/
theorem Ranked.contains_create {tree : ScopeTree α} (ranked : tree.Ranked) {parent : Nat}
    (hparent : parent < tree.size) (id : Nat) (name : String) :
    (tree.create (some parent)).contains id name =
      if id = tree.size then tree.contains parent name else tree.contains id name := by
  rw [Bool.eq_iff_iff, contains_iff]
  by_cases hid : id = tree.size
  · subst hid
    have hfresh : tree.local? tree.size name = none := local?_eq_none (Nat.le_refl _) name
    rw [if_pos rfl, contains_iff, ranked.ancestors_create_self hparent]
    simp [hfresh]
  · rw [if_neg hid, contains_iff,
      ranked.ancestors_create_of_ne (by simpa using hparent) hid]
    simp

/-- A declaration is seen exactly from the scopes that have its scope on their
chain.  Whether a name is hidden by a nearer binding plays no part: for being
visible at all any binding on the chain will do, and that is what makes the
statement an equivalence without side condition. -/
theorem contains_declare {tree : ScopeTree α} {id : Nat} (h : id < tree.size) (name : String)
    (value : α) (j : Nat) (m : String) :
    (tree.declare id name value).contains j m = true ↔
      tree.contains j m = true ∨ (m = name ∧ id ∈ tree.ancestors j) := by
  rw [contains_iff, contains_iff, ancestors_declare]
  simp only [local?_declare h]
  constructor
  · rintro ⟨a, ha, hsome⟩
    split at hsome
    · rename_i hhere
      exact Or.inr ⟨hhere.2, hhere.1 ▸ ha⟩
    · exact Or.inl ⟨a, ha, hsome⟩
  · rintro (⟨a, ha, hsome⟩ | ⟨rfl, ha⟩)
    · refine ⟨a, ha, ?_⟩
      split
      · rfl
      · exact hsome
    · exact ⟨id, ha, by simp⟩

/-! ## Parents, children and names of single scopes -/

/-- The parent of a scope, if there is such a scope and it has one. -/
def parent? (tree : ScopeTree α) (id : ScopeId) : Option ScopeId := (tree.get? id).bind (·.parent)

theorem children_eq_nil {tree : ScopeTree α} {id : ScopeId} (h : tree.size ≤ id) :
    tree.children id = [] := by
  rw [children, get?_eq_none_iff.mpr h]

theorem parent?_create (tree : ScopeTree α) (parent : Option ScopeId) (id : ScopeId) :
    (tree.create parent).parent? id = if id = tree.size then parent else tree.parent? id := by
  rw [parent?, get?_create]
  split
  · rfl
  · split
    · rw [parent?]
      cases tree.get? id <;> rfl
    · rfl

@[simp] theorem parent?_declare (tree : ScopeTree α) (id : ScopeId) (name : String) (value : α)
    (j : ScopeId) : (tree.declare id name value).parent? j = tree.parent? j := by
  rw [parent?, get?_declare, parent?]
  split
  · cases tree.get? j <;> rfl
  · rfl

@[simp] theorem declaresAt_create (tree : ScopeTree α) (parent : Option ScopeId) (id : ScopeId)
    (name : String) : (tree.create parent).declaresAt id name = tree.declaresAt id name := by
  rw [declaresAt, local?_create, declaresAt]

theorem declaresAt_declare {tree : ScopeTree α} {id : ScopeId} (h : id < tree.size) (name : String)
    (value : α) (j : ScopeId) (m : String) :
    (tree.declare id name value).declaresAt j m = true ↔
      tree.declaresAt j m = true ∨ (j = id ∧ name = m) := by
  rw [declaresAt, local?_declare h, declaresAt]
  split
  · rename_i hhere
    simp [hhere.1, hhere.2]
  · rename_i hother
    exact (or_iff_left fun h' => hother ⟨h'.1, h'.2.symm⟩).symm

theorem declaresAt_eq_false {tree : ScopeTree α} {id : ScopeId} (h : tree.size ≤ id)
    (name : String) : tree.declaresAt id name = false := by
  rw [declaresAt, local?_eq_none h]
  rfl

/-- A new scope becomes the last child of its parent, and of no other scope.
The list of children is therefore in the order of creation. -/
theorem children_create {tree : ScopeTree α} {parent : Option ScopeId}
    (h : ∀ p ∈ parent, p < tree.size) (id : ScopeId) :
    (tree.create parent).children id =
      tree.children id ++ if parent = some id then [tree.size] else [] := by
  rw [children, get?_create]
  by_cases hfresh : id = tree.size
  · have hother : parent ≠ some id := fun hparent => Nat.ne_of_lt (h id hparent) hfresh
    rw [if_pos hfresh, if_neg hother, children_eq_nil (Nat.le_of_eq hfresh.symm)]
    rfl
  · rw [if_neg hfresh, children]
    by_cases hparent : parent = some id
    · obtain ⟨scope, hget⟩ := exists_get? (h id hparent)
      rw [if_pos hparent, if_pos hparent, hget]
      rfl
    · rw [if_neg hparent, if_neg hparent, List.append_nil]

@[simp] theorem children_declare (tree : ScopeTree α) (id : ScopeId) (name : String) (value : α)
    (j : ScopeId) : (tree.declare id name value).children j = tree.children j := by
  rw [children, get?_declare, children]
  by_cases hid : j = id
  · rw [if_pos hid]
    cases tree.get? j <;> rfl
  · rw [if_neg hid]

/-! ## Order of operations -/

@[simp] theorem root?_update (tree : ScopeTree α) (id : ScopeId) (change : Scope α → Scope α) :
    (tree.update id change).root? = tree.root? := by
  unfold update
  split <;> rfl

@[simp] theorem root?_create (tree : ScopeTree α) (parent : Option ScopeId) :
    (tree.create parent).root? = tree.root?.or (some tree.size) := rfl

@[simp] theorem root?_declare (tree : ScopeTree α) (id : ScopeId) (name : String) (value : α) :
    (tree.declare id name value).root? = tree.root? :=
  root?_update ..

/-- Two trees are equal if they have the same root and the same scopes.  The
laws of order below are proved position by position through this. -/
theorem ext_get? {tree tree' : ScopeTree α} (hroot : tree.root? = tree'.root?)
    (h : ∀ id, tree.get? id = tree'.get? id) : tree = tree' := by
  obtain ⟨scopes, root⟩ := tree
  obtain ⟨scopes', root'⟩ := tree'
  rw [show scopes = scopes' from Array.ext_getElem? h, show root = root' from hroot]

/-- A declaration in an older scope can be made before a creation.  Together
with `declare_declare` it allows all names of a block to be brought forward to
the moment at which its scope is made. -/
theorem declare_create {tree : ScopeTree α} {id : ScopeId} (h : id < tree.size)
    (parent : Option ScopeId) (name : String) (value : α) :
    (tree.create parent).declare id name value = (tree.declare id name value).create parent := by
  refine ext_get? (by simp) fun j => ?_
  simp only [get?_declare, get?_create, size_declare]
  by_cases hid : j = id
  · -- The scope may be the parent of the new one, and then it keeps both changes.
    subst hid
    rw [if_pos rfl, if_pos rfl, if_neg (Nat.ne_of_lt h), if_neg (Nat.ne_of_lt h)]
    split
    · rw [Option.map_map, Option.map_map]
      rfl
    · rfl
  · rw [if_neg hid, if_neg hid]

/-- Declarations in different scopes can be made in any order. -/
theorem declare_declare {id id' : ScopeId} (h : id ≠ id') (tree : ScopeTree α) (name name' : String)
    (value value' : α) :
    (tree.declare id name value).declare id' name' value' =
      (tree.declare id' name' value').declare id name value := by
  refine ext_get? (by simp) fun j => ?_
  simp only [get?_declare]
  by_cases hid : j = id
  · subst hid
    rw [if_pos rfl, if_pos rfl, if_neg h, if_neg h]
  · rw [if_neg hid, if_neg hid]

end ScopeTree

end StraightLine
