import StraightLine.Proofs.Ancestry

/-!
# Looking names up in a growing tree

A declaration writes one binding of one scope, and is seen from every scope below it that does not
meet the name earlier on its way up.  Which scopes these are is told by the scope that a look-up
ends at, so look-ups are followed through the two operations together with that scope.

## Main definitions

* `ScopeTree.Nearest` — a scope is the first one on a chain of parents that declares a name.
* `ScopeTree.Unshadowed` — no scope before it on the chain declares the name.
* `ScopeTree.LookupLaws` — what look-ups find, and what the two operations do to them.

## Main statements

* `ScopeTree.nearest_iff` — the nearest scope is the one that a search along the chain stops at.
* `ScopeTree.lookup_declare` — a look-up after a declaration.
* `ScopeTree.Ranked.nearest_declare_iff` — from where a declaration is seen.
* `ScopeTree.Grown.lookupLaws` — the laws hold in every grown tree.

## Design notes

* **One equation covers overwriting, shadowing and unrelated chains.**  After the declaration the
  search either stops at the scope declared in, and then finds the new value, or it stops where it
  did before.  That a chain does not lead through the scope, or meets the name earlier, are two
  reasons for the second case and not cases of their own.
* **Where it stops is told by the tree before.**  The equation speaks of the tree that the
  declaration makes, and would hold of one that binds nothing.  So the laws also say that the scope
  declared in has the name afterwards, and which chains lead to it past no other scope that has it.
-/

namespace StraightLine

namespace ScopeTree

variable {α : Type} {tree : ScopeTree α}

/-- The first scope on the chain of parents of `id` that declares `name` is `a`.
The chain is split at `a`, so that what lies before it can be spoken of: none of
those scopes declares the name. -/
def Nearest (tree : ScopeTree α) (id : ScopeId) (name : String) (a : ScopeId) : Prop :=
  ∃ nearer above, tree.ancestors id = nearer ++ a :: above ∧
    (∀ b ∈ nearer, tree.declaresAt b name = false) ∧ tree.declaresAt a name = true

/-- The chain of parents of `id` leads to `a`, and past no scope that declares
`name`.  The scope `a` need not declare it: this is what a declaration in `a`
needs to be seen from `id`, said before it is made. -/
def Unshadowed (tree : ScopeTree α) (id : ScopeId) (name : String) (a : ScopeId) : Prop :=
  ∃ nearer above, tree.ancestors id = nearer ++ a :: above ∧
    ∀ b ∈ nearer, tree.declaresAt b name = false

/-! ## The scope that a look-up ends at -/

/-- The nearest scope is the one that a search along the chain stops at.  Stated
with the search, it is determined by the tree; stated with the split chain, it
can be shown and used. -/
theorem nearest_iff {id : ScopeId} {name : String} {a : ScopeId} :
    tree.Nearest id name a ↔ (tree.ancestors id).find? (tree.declaresAt · name) = some a := by
  rw [List.find?_eq_some_iff_append]
  constructor
  · rintro ⟨nearer, above, hchain, hnearer, ha⟩
    exact ⟨ha, nearer, above, hchain, fun b hb => by rw [hnearer b hb, Bool.not_false]⟩
  · rintro ⟨ha, nearer, above, hchain, hnearer⟩
    refine ⟨nearer, above, hchain, fun b hb => ?_, ha⟩
    rw [← Bool.not_eq_true']
    exact hnearer b hb

instance (tree : ScopeTree α) (id : ScopeId) (name : String) (a : ScopeId) :
    Decidable (tree.Nearest id name a) :=
  decidable_of_iff _ nearest_iff.symm

theorem Nearest.mem_ancestors {id : ScopeId} {name : String} {a : ScopeId}
    (h : tree.Nearest id name a) : a ∈ tree.ancestors id := by
  obtain ⟨nearer, above, hchain, _, _⟩ := h
  rw [hchain]
  exact List.mem_append_right _ List.mem_cons_self

/-- A look-up finds the binding of the scope that the search along the chain
stops at.  So a look-up is known when two things are known, where the search
stops and what is bound there, and a declaration changes them separately. -/
theorem lookup_eq_bind_find? (tree : ScopeTree α) (id : ScopeId) (name : String) :
    tree.lookup id name =
      ((tree.ancestors id).find? (tree.declaresAt · name)).bind (tree.local? · name) := by
  rw [lookup]
  induction tree.ancestors id with
  | nil => rfl
  | cons a above ih =>
      rw [List.findSome?_cons, List.find?_cons, declaresAt]
      cases hlocal : tree.local? a name with
      | none => exact ih
      | some value => exact hlocal.symm

/-- The declaring scope is the one that the search along the chain stops at. -/
theorem Grown.declaringScope?_eq (grown : tree.Grown) (id : ScopeId) (name : String) :
    tree.declaringScope? id name = (tree.ancestors id).find? (tree.declaresAt · name) := by
  rw [declaringScope?]
  cases hfind : (tree.ancestors id).find? (tree.declaresAt · name) with
  | none => rfl
  | some a =>
      have hlt : a < tree.size := lt_size_of_mem_ancestors (List.mem_of_find?_eq_some hfind)
      obtain ⟨scope, hget⟩ := exists_get? hlt
      rw [Option.bind_some, hget, Option.map_some, grown.id_eq a scope hget]

theorem Grown.declaringScope?_eq_some_iff (grown : tree.Grown) {id : ScopeId} {name : String}
    {a : ScopeId} : tree.declaringScope? id name = some a ↔ tree.Nearest id name a := by
  rw [grown.declaringScope?_eq, nearest_iff]

theorem Grown.lookup_eq_bind (grown : tree.Grown) (id : ScopeId) (name : String) :
    tree.lookup id name = (tree.declaringScope? id name).bind (tree.local? · name) := by
  rw [grown.declaringScope?_eq, lookup_eq_bind_find?]

theorem Grown.isSome_declaringScope? (grown : tree.Grown) (id : ScopeId) (name : String) :
    (tree.declaringScope? id name).isSome = (tree.lookup id name).isSome := by
  rw [grown.lookup_eq_bind]
  cases hscope : tree.declaringScope? id name with
  | none => rfl
  | some a =>
      obtain ⟨_, _, _, _, ha⟩ := grown.declaringScope?_eq_some_iff.mp hscope
      exact ha.symm

/-! ## After a declaration -/

/-- A search through a list on which a function was overwritten at one place.
The condition is on the new function: if the search with it stops at that place
it finds the new value, and otherwise it never got there or met the place after
another hit. -/
theorem findSome?_overwritten {β γ : Type} [DecidableEq β] {f f' : β → Option γ} {s : β} {v : γ}
    (hf : ∀ x, f' x = if x = s then some v else f x) (xs : List β) :
    xs.findSome? f' =
      if xs.find? (fun x => (f' x).isSome) = some s then some v else xs.findSome? f := by
  induction xs with
  | nil => rfl
  | cons x xs ih =>
      by_cases hx : x = s
      · have hnew : f' x = some v := by rw [hf, if_pos hx]
        have hstop : (x :: xs).find? (fun x => (f' x).isSome) = some s := by
          rw [List.find?_cons, hnew, hx]
          rfl
        rw [if_pos hstop, List.findSome?_cons, hnew]
      · have hold : f' x = f x := by rw [hf, if_neg hx]
        rw [List.findSome?_cons, List.find?_cons, List.findSome?_cons, hold]
        cases f x with
        | none => exact ih
        | some w =>
            rw [if_neg]
            exact fun heq => hx (Option.some_inj.mp heq)

/-- **A look-up after a declaration** finds the new value if the search for the name now stops at
the scope declared in, and what it found before otherwise. -/
theorem lookup_declare {s : ScopeId} (hs : s < tree.size) (t : ScopeId) (n m : String) (v : α) :
    (tree.declare s n v).lookup t m =
      if m = n ∧ (tree.declare s n v).Nearest t n s then some v else tree.lookup t m := by
  by_cases hname : m = n
  · subst hname
    have hlocal : ∀ a, (tree.declare s m v).local? a m =
        if a = s then some v else tree.local? a m := by
      intro a
      rw [local?_declare hs]
      simp only [and_true]
    have hsearch := findSome?_overwritten hlocal (tree.ancestors t)
    rw [lookup, lookup, ancestors_declare, hsearch]
    simp only [nearest_iff, ancestors_declare, declaresAt, true_and]
  · have hlocal : ∀ a, (tree.declare s n v).local? a m = tree.local? a m := by
      intro a
      rw [local?_declare hs, if_neg fun h => hname h.2]
    rw [if_neg fun h => hname h.1, lookup, ancestors_declare, lookup]
    simp only [hlocal]

/-- A scope is at the beginning of its own chain, so nothing is before it. -/
theorem Ranked.unshadowed_self (ranked : tree.Ranked) {s : ScopeId} (hs : s < tree.size)
    (n : String) : tree.Unshadowed s n s := by
  obtain ⟨above, hchain, -⟩ := ranked.exists_ancestors_eq hs
  exact ⟨[], above, hchain, fun b hb => absurd hb List.not_mem_nil⟩

/-- The scope declared in is the nearest one for the scopes whose chains lead to it unshadowed.  A
chain meets every scope once, so the declaration puts nothing in front of the scope itself. -/
theorem Ranked.nearest_declare_iff (ranked : tree.Ranked) {s : ScopeId} (hs : s < tree.size)
    (t : ScopeId) (n : String) (v : α) :
    (tree.declare s n v).Nearest t n s ↔ tree.Unshadowed t n s := by
  constructor
  · rintro ⟨nearer, above, hchain, hnearer, -⟩
    rw [ancestors_declare] at hchain
    refine ⟨nearer, above, hchain, fun b hb => Bool.eq_false_iff.mpr fun hold => ?_⟩
    exact Bool.eq_false_iff.mp (hnearer b hb) ((declaresAt_declare hs n v b n).mpr (.inl hold))
  · rintro ⟨nearer, above, hchain, hnearer⟩
    -- Only `s` can have gained the name, and it does not come before itself on the chain.
    have hnodup := ranked.nodup_ancestors t
    rw [hchain, List.nodup_append] at hnodup
    refine ⟨nearer, above, by rw [ancestors_declare, hchain], fun b hb => ?_, ?_⟩
    · have hne : b ≠ s := hnodup.2.2 b hb s List.mem_cons_self
      rw [Bool.eq_false_iff]
      intro hnew
      obtain hold | ⟨heq, -⟩ := (declaresAt_declare hs n v b n).mp hnew
      · exact Bool.eq_false_iff.mp (hnearer b hb) hold
      · exact hne heq
    · exact (declaresAt_declare hs n v s n).mpr (.inr ⟨rfl, rfl⟩)

/-- A declaration is seen from its own scope. -/
theorem Ranked.lookup_declare_self (ranked : tree.Ranked) {s : ScopeId} (hs : s < tree.size)
    (n m : String) (v : α) :
    (tree.declare s n v).lookup s m = if m = n then some v else tree.lookup s m := by
  have hnearest := (ranked.nearest_declare_iff hs s n v).mpr (ranked.unshadowed_self hs n)
  simp only [lookup_declare hs, hnearest, and_true]

/-- A declaration off the chain of a scope is not seen from it. -/
theorem lookup_declare_of_notMem {s t : ScopeId} (hs : s < tree.size)
    (hst : s ∉ tree.ancestors t) (n m : String) (v : α) :
    (tree.declare s n v).lookup t m = tree.lookup t m := by
  rw [lookup_declare hs, if_neg]
  rintro ⟨_, hnearest⟩
  exact hst (by simpa only [ancestors_declare] using hnearest.mem_ancestors)

/-- A declaration is not seen through a scope below it that declares the name itself. -/
theorem Ranked.lookup_declare_of_shadowed (ranked : tree.Ranked) {s t a : ScopeId}
    (hs : s < tree.size) {n : String} (hnearest : tree.Nearest t n a) (hne : a ≠ s)
    (hsa : s ∈ tree.ancestors a) (m : String) (v : α) :
    (tree.declare s n v).lookup t m = tree.lookup t m := by
  rw [lookup_declare hs, if_neg]
  rintro ⟨_, hstop⟩
  obtain ⟨nearer, above, hchain, hnearer, ha⟩ := hnearest
  -- The scope declared in is older than `a`, and so comes after it on the chain.
  have hlt : s < a := Nat.lt_of_le_of_ne (ranked.le_of_mem_ancestors hsa) hne.symm
  have horder := ranked.pairwise_ancestors t
  rw [hchain, List.pairwise_append] at horder
  have hold : ∀ b ∈ nearer, (tree.declare s n v).declaresAt b n = false := by
    intro b hb
    have hab : b > a := horder.2.2 b hb a List.mem_cons_self
    have hbs : b ≠ s := Nat.ne_of_gt (Nat.lt_trans hlt hab)
    rw [declaresAt, local?_declare hs, if_neg fun h => hbs h.1]
    exact hnearer b hb
  have hkept : (tree.declare s n v).Nearest t n a := by
    refine ⟨nearer, above, by rw [ancestors_declare, hchain], hold, ?_⟩
    exact (declaresAt_declare hs n v a n).mpr (Or.inl ha)
  have hsame := (nearest_iff.mp hkept).symm.trans (nearest_iff.mp hstop)
  exact hne (Option.some_inj.mp hsame)

/-- A scope is not above the scopes above it. -/
theorem Ranked.notMem_ancestors_of_mem (ranked : tree.Ranked) {s t : ScopeId}
    (ht : t ∈ tree.ancestors s) (hne : t ≠ s) : s ∉ tree.ancestors t :=
  fun hs => hne (Nat.le_antisymm (ranked.le_of_mem_ancestors ht) (ranked.le_of_mem_ancestors hs))

/-- Of two scopes with the same parent, or without, none is above the other. -/
theorem Ranked.notMem_ancestors_of_sibling (ranked : tree.Ranked) {s t : ScopeId}
    (ht : t < tree.size) (hparent : tree.parent? t = tree.parent? s) (hne : t ≠ s) :
    s ∉ tree.ancestors t := by
  intro hs
  cases hp : tree.parent? t with
  | none =>
      rw [ancestors_of_parent?_eq_none ht hp, List.mem_singleton] at hs
      exact hne hs.symm
  | some parent =>
      rw [ranked.ancestors_of_below hp] at hs
      rcases List.mem_cons.mp hs with heq | hs
      · exact hne heq.symm
      · have hle := ranked.le_of_mem_ancestors hs
        have hlt := ranked.lt_of_below (hparent.symm.trans hp)
        exact absurd hlt (Nat.not_lt.mpr hle)

/-! ## After a creation -/

/-- A creation changes no look-up from an older scope. -/
theorem Ranked.lookup_create_of_lt (ranked : tree.Ranked) {parent : Option ScopeId}
    (hparent : ∀ p ∈ parent, p < tree.size) {t : ScopeId} (ht : t < tree.size) (m : String) :
    (tree.create parent).lookup t m = tree.lookup t m := by
  rw [lookup, ranked.ancestors_create_of_ne hparent (Nat.ne_of_lt ht), lookup]
  simp only [local?_create]

/-- A new scope sees what its parent sees, and nothing if it has none. -/
theorem Ranked.lookup_create_self (ranked : tree.Ranked) {parent : Option ScopeId}
    (hparent : ∀ p ∈ parent, p < tree.size) (m : String) :
    (tree.create parent).lookup tree.size m = parent.bind (tree.lookup · m) := by
  have hfresh : tree.local? tree.size m = none := local?_eq_none (Nat.le_refl _) m
  cases parent with
  | none =>
      have hroot : (tree.create none).parent? tree.size = none := by
        rw [parent?_create, if_pos rfl]
      have hlt : tree.size < (tree.create none).size := by
        rw [size_create]
        exact Nat.lt_succ_self _
      rw [lookup, ancestors_of_parent?_eq_none hlt hroot, List.findSome?_cons, local?_create,
        hfresh]
      rfl
  | some p =>
      rw [lookup, ranked.ancestors_create_self (hparent p rfl), List.findSome?_cons, local?_create,
        hfresh]
      simp only [local?_create]
      rfl

/-! ## The laws -/

/-- What look-ups find in a tree, and what a declaration or a creation does to
them.  The first three laws settle every look-up after a declaration by the tree
before it; the next four are the cases in which it changes nothing. -/
structure LookupLaws (tree : ScopeTree α) : Prop where
  /-- After a declaration a look-up finds the new value if the scope declared in is now the first
  one on the chain to declare the name, and what it found before otherwise. -/
  declare : ∀ s < tree.size, ∀ t < tree.size, ∀ (n m : String) (v : α),
    (tree.declare s n v).lookup t m =
      if m = n ∧ (tree.declare s n v).Nearest t n s then some v else tree.lookup t m
  /-- The scope declared in has the name now, and sees the new value. -/
  declare_self : ∀ s < tree.size, ∀ (n : String) (v : α),
    (tree.declare s n v).declaresAt s n = true ∧ (tree.declare s n v).lookup s n = some v
  /-- It is now the first one for exactly the scopes whose chains led to it unshadowed. -/
  nearest_declare : ∀ s < tree.size, ∀ t < tree.size, ∀ (n : String) (v : α),
    (tree.declare s n v).Nearest t n s ↔ tree.Unshadowed t n s
  /-- It is not seen from the scopes above. -/
  declare_above : ∀ s < tree.size, ∀ t ∈ tree.ancestors s, t ≠ s → ∀ (n m : String) (v : α),
    (tree.declare s n v).lookup t m = tree.lookup t m
  /-- It is not seen from the siblings. -/
  declare_sibling : ∀ s < tree.size, ∀ t < tree.size, tree.parent? t = tree.parent? s → t ≠ s →
    ∀ (n m : String) (v : α), (tree.declare s n v).lookup t m = tree.lookup t m
  /-- It is not seen from any scope that does not lie below. -/
  declare_unrelated : ∀ s < tree.size, ∀ t < tree.size, s ∉ tree.ancestors t →
    ∀ (n m : String) (v : α), (tree.declare s n v).lookup t m = tree.lookup t m
  /-- It is not seen where a nearer scope declares the name. -/
  declare_shadowed : ∀ s < tree.size, ∀ t < tree.size, ∀ (n : String) (a : ScopeId),
    tree.Nearest t n a → a ≠ s → s ∈ tree.ancestors a → ∀ (m : String) (v : α),
      (tree.declare s n v).lookup t m = tree.lookup t m
  /-- The declaring scope is the first one on the chain that declares the name. -/
  declaringScope?_iff : ∀ t < tree.size, ∀ (m : String) (a : ScopeId),
    tree.declaringScope? t m = some a ↔ tree.Nearest t m a
  /-- A look-up finds the binding of the declaring scope. -/
  lookup_eq : ∀ t < tree.size, ∀ m : String,
    tree.lookup t m = (tree.declaringScope? t m).bind (tree.local? · m)
  /-- A name is contained, and has a declaring scope, exactly if a look-up finds it. -/
  found : ∀ t < tree.size, ∀ m : String,
    (tree.contains t m = true ↔ (tree.lookup t m).isSome = true) ∧
      ((tree.declaringScope? t m).isSome = true ↔ (tree.lookup t m).isSome = true)
  /-- A creation changes no look-up from an older scope. -/
  create_old : ∀ parent : Option ScopeId, (∀ p ∈ parent, p < tree.size) → ∀ t < tree.size,
    ∀ m : String, (tree.create parent).lookup t m = tree.lookup t m
  /-- The new scope sees what its parent sees, and nothing if it has none. -/
  create_new : ∀ parent : Option ScopeId, (∀ p ∈ parent, p < tree.size) → ∀ m : String,
    (tree.create parent).lookup tree.size m = parent.bind (tree.lookup · m)

/-- **The laws of declaration and look-up hold in every grown tree.** -/
theorem Grown.lookupLaws (grown : tree.Grown) : tree.LookupLaws where
  declare s hs t _ n m v := lookup_declare hs t n m v
  declare_self s hs n v := by
    refine ⟨(declaresAt_declare hs n v s n).mpr (.inr ⟨rfl, rfl⟩), ?_⟩
    rw [grown.ranked.lookup_declare_self hs, if_pos rfl]
  nearest_declare s hs t _ n v := grown.ranked.nearest_declare_iff hs t n v
  declare_above s hs t ht hne n m v :=
    lookup_declare_of_notMem hs (grown.ranked.notMem_ancestors_of_mem ht hne) n m v
  declare_sibling s hs t ht hparent hne n m v :=
    lookup_declare_of_notMem hs (grown.ranked.notMem_ancestors_of_sibling ht hparent hne) n m v
  declare_unrelated s hs t _ hst n m v := lookup_declare_of_notMem hs hst n m v
  declare_shadowed s hs t _ n a hnearest hne hsa m v :=
    grown.ranked.lookup_declare_of_shadowed hs hnearest hne hsa m v
  declaringScope?_iff _ _ _ _ := grown.declaringScope?_eq_some_iff
  lookup_eq t _ m := grown.lookup_eq_bind t m
  found t _ m := ⟨Iff.rfl, by rw [grown.isSome_declaringScope?]⟩
  create_old _ hparent _ ht m := grown.ranked.lookup_create_of_lt hparent ht m
  create_new _ hparent m := grown.ranked.lookup_create_self hparent m

/-- Two scopes without parent; below the first one two siblings, and below the older of these one
more scope.  The first root and its older child bind the same name, the younger child another. -/
def twoRoots : ScopeTree Nat :=
  (((((withRoot.create (some 0)).create (some 0)).create (some 1)).create none
    |>.declare 0 "x" 1).declare 1 "x" 2).declare 2 "y" 3

theorem twoRoots_grown : twoRoots.Grown := by
  apply Grown.declare
  · apply Grown.declare
    · apply Grown.declare
      · apply Grown.root
        apply Grown.child
        · apply Grown.child
          · apply Grown.child
            · exact .root .empty
            · decide
          · decide
        · decide
      · decide
    · decide
  · decide

/-- Overwriting the binding of the first root is seen from its younger child, is hidden from the
other one and from what is below it, and is not seen from the second root.  Another name that its
older child declares is seen there and below, next to what was seen before, and not from the younger
child, which keeps its own. -/
theorem twoRoots_lookupLaws :
    twoRoots.LookupLaws ∧ (twoRoots.declare 0 "x" 9).lookup 2 "x" = some 9 ∧
      (twoRoots.declare 0 "x" 9).lookup 3 "x" = some 2 ∧
      (twoRoots.declare 0 "x" 9).lookup 4 "x" = none ∧
      twoRoots.declaringScope? 3 "x" = some 1 ∧
      (twoRoots.declare 1 "y" 7).lookup 1 "y" = some 7 ∧
      (twoRoots.declare 1 "y" 7).lookup 3 "y" = some 7 ∧
      (twoRoots.declare 1 "y" 7).lookup 3 "x" = some 2 ∧
      (twoRoots.declare 1 "y" 7).lookup 2 "y" = some 3 := by
  have laws : twoRoots.LookupLaws := Grown.lookupLaws twoRoots_grown
  refine ⟨laws, ?_, ?_, ?_, ?_, (laws.declare_self 1 (by decide) "y" 7).2, ?_, ?_, ?_⟩
  · rw [laws.declare 0 (by decide) 2 (by decide), if_pos (by decide)]
  · rw [laws.declare_shadowed 0 (by decide) 3 (by decide) "x" 1 (by decide) (by decide) (by decide)]
    decide
  · rw [laws.declare_unrelated 0 (by decide) 4 (by decide) (by decide)]
    decide
  · exact (laws.declaringScope?_iff 3 (by decide) "x" 1).mpr (by decide)
  · have hbelow : twoRoots.Unshadowed 3 "y" 1 := ⟨[3], [0], rfl, by decide⟩
    have hnearest := (laws.nearest_declare 1 (by decide) 3 (by decide) "y" 7).mpr hbelow
    rw [laws.declare 1 (by decide) 3 (by decide), if_pos ⟨rfl, hnearest⟩]
  · rw [laws.declare 1 (by decide) 3 (by decide), if_neg (by decide)]
    decide
  · rw [laws.declare_sibling 1 (by decide) 2 (by decide) rfl (by decide)]
    decide

end ScopeTree

end StraightLine
