import StraightLine.Proofs.Resolution

/-!
# The scopes that resolution makes

Resolution adds to a tree one scope for every block of a program.  Which scopes these are, where
they hang and what they declare can be read off the program: they come in preorder, so the blocks
can also be planted one after the other, each with all its names at once.

## Main definitions

* `Plot`, `ScopeTree.plant` — a scope to be added, and its addition.
* `Stmt.plots` — the scopes of the blocks of a program.
* `Planted` — how a tree with planted scopes differs from the one before.

## Main statements

* `ScopeTree.declare_plantAll` — names of an older scope can be declared before scopes are planted.
* `Stmt.scopes_resolveAt` — resolution is planting the blocks of a program.
* `Stmt.planted_resolveAt` — what stands in the tree afterwards.

## Design notes

* **Resolution interleaves, planting does not.**  A block goes on declaring names after the blocks
  inside it were made; because declarations commute with whatever happens to younger scopes, all
  names of a block can be declared as soon as its scope is there.  The tree is then a fold over a
  list of blocks, and what stands in it is read off by induction on that list.
-/

namespace StraightLine

/-! ## Plots -/

/-- The scope of a block: the scope around it, and the names that are assigned
directly in it.  That is all that resolution leaves of a block in the tree. -/
structure Plot where
  parent : ScopeId
  names : List String
  deriving DecidableEq

namespace Stmt

/-- The name that a statement assigns, if it is an assignment. -/
def target? : Stmt → Option String
  | .action (.assign target _) => some target
  | _ => none

/-- The names that are assigned directly in a block, in order and with repeats. -/
def targets (body : List Stmt) : List String := body.filterMap target?

mutual

/-- The scopes of the blocks of a statement in preorder: it stands in scope
`scope`, and the first new scope gets the identity `next`.  Identities are
counted, not looked up, so the list can be computed from the program alone;
`length_plots` says how far the count has moved when the statement is left. -/
def plots (scope next : ScopeId) : Stmt → List Plot
  | .action _ => []
  | .block body => ⟨scope, targets body⟩ :: plotsOf next (next + 1) body

/-- The scopes of the blocks in a list of statements. -/
def plotsOf (scope next : ScopeId) : List Stmt → List Plot
  | [] => []
  | s :: rest => s.plots scope next ++ plotsOf scope (next + s.blockCount) rest

end

/-- There is one scope for every block.  A list of statements uses this for the
identity at which the plots of its rest begin. -/
theorem length_plots :
    (∀ (s : Stmt) (scope next : ScopeId), (s.plots scope next).length = s.blockCount) ∧
      ∀ (body : List Stmt) (scope next : ScopeId),
        (plotsOf scope next body).length = blockCountOf body := by
  refine Stmt.induction ?action ?block ?nil ?cons
  case action =>
    intro a scope next
    rw [plots, blockCount_action]
    rfl
  case block =>
    intro body ih scope next
    rw [plots, List.length_cons, ih, blockCount_block, Nat.add_comm]
  case nil =>
    intro scope next
    rw [plotsOf, blockCountOf_nil]
    rfl
  case cons =>
    intro s rest ihs ihrest scope next
    rw [plotsOf, List.length_append, ihs, ihrest, blockCountOf_cons]

end Stmt

/-! ## Planting -/

namespace ScopeTree

/-- The tree with some names declared in one scope. -/
def declareAll (tree : Declarations) (id : ScopeId) (names : List String) : Declarations :=
  names.foldl (fun tree name => tree.declare id name ()) tree

/-- The tree with one more scope and all its names.  Resolution never does this
in one go, since the names come one by one and with inner blocks in between. -/
def plant (tree : Declarations) (plot : Plot) : Declarations :=
  (tree.create (some plot.parent)).declareAll tree.size plot.names

variable {tree : Declarations} {id : ScopeId}

theorem declareAll_cons (name : String) (names : List String) :
    tree.declareAll id (name :: names) = (tree.declare id name ()).declareAll id names := rfl

theorem declareAll_append (names names' : List String) :
    tree.declareAll id (names ++ names') = (tree.declareAll id names).declareAll id names' :=
  List.foldl_append

@[simp] theorem size_declareAll (names : List String) :
    (tree.declareAll id names).size = tree.size := by
  induction names generalizing tree with
  | nil => rfl
  | cons name names ih => rw [declareAll_cons, ih, size_declare]

@[simp] theorem size_plant (plot : Plot) : (tree.plant plot).size = tree.size + 1 := by
  rw [plant, size_declareAll, size_create]

theorem size_plantAll (plots : List Plot) :
    (plots.foldl plant tree).size = tree.size + plots.length := by
  induction plots generalizing tree with
  | nil => rfl
  | cons plot plots ih =>
      rw [List.foldl_cons, ih, size_plant, List.length_cons]
      omega

theorem declare_declareAll {id' : ScopeId} (h : id' ≠ id) (name : String) (names : List String) :
    (tree.declareAll id' names).declare id name () =
      (tree.declare id name ()).declareAll id' names := by
  induction names generalizing tree with
  | nil => rfl
  | cons n names ih => rw [declareAll_cons, declareAll_cons, ih, declare_declare h]

/-- Names of an older scope can be declared before a scope is planted.  The
older scope differs from the planted one, so its declaration commutes with each
of the names, and with the creation in front of them. -/
theorem declare_plant (h : id < tree.size) (name : String) (plot : Plot) :
    (tree.plant plot).declare id name () = (tree.declare id name ()).plant plot := by
  rw [plant, plant, declare_declareAll (Nat.ne_of_gt h), declare_create h, size_declare]

theorem declare_plantAll (h : id < tree.size) (name : String) (plots : List Plot) :
    (plots.foldl plant tree).declare id name () = plots.foldl plant (tree.declare id name ()) := by
  induction plots generalizing tree with
  | nil => rfl
  | cons plot plots ih =>
      have hplant : id < (tree.plant plot).size := by
        rw [size_plant]
        exact Nat.lt_succ_of_lt h
      rw [List.foldl_cons, List.foldl_cons, ih hplant, declare_plant h]

theorem declareAll_plantAll (h : id < tree.size) (names : List String) (plots : List Plot) :
    (plots.foldl plant tree).declareAll id names =
      plots.foldl plant (tree.declareAll id names) := by
  induction names generalizing tree with
  | nil => rfl
  | cons name names ih =>
      rw [declareAll_cons, declareAll_cons, declare_plantAll h, ih (by rwa [size_declare])]

end ScopeTree

namespace Stmt

open ScopeTree

/-- **Resolution plants the blocks of a program.** The names of the statement
itself are declared before.

The induction follows the recursion of resolution.  At each statement the
declarations of the scope around it are moved in front of what the statement has
planted; that this is allowed needs the scope to be older than everything
planted, which is the only hypothesis carried along. -/
theorem scopes_resolveAt :
    (∀ (s : Stmt) (scope : ScopeId) (position : Nat) (r : Resolver), scope < r.scopes.size →
        (s.resolveAt scope position r).2.scopes =
          (s.plots scope r.scopes.size).foldl plant
            (r.scopes.declareAll scope s.target?.toList)) ∧
      ∀ (body : List Stmt) (scope : ScopeId) (position : Nat) (valid : Bool) (r : Resolver),
        scope < r.scopes.size →
        (resolveAll scope position valid body r).2.scopes =
          (plotsOf scope r.scopes.size body).foldl plant
            (r.scopes.declareAll scope (targets body)) := by
  refine Stmt.induction ?action ?block ?nil ?cons
  case action =>
    intro a scope position r _
    rw [resolveAt, (a.resolve_spec scope position r).1, plots]
    cases a <;> rfl
  case block =>
    intro body ih scope position r _
    have hbody := ih r.scopes.size position true (r.enter scope) (r.lt_size_enter scope)
    rw [Resolver.size_enter] at hbody
    -- Entering the block and declaring its names first is planting it.
    rw [resolveAt, plots]
    exact hbody
  case nil =>
    intro scope position valid r _
    rw [resolveAll, plotsOf]
    rfl
  case cons =>
    intro s rest ihs ihrest scope position valid r hscope
    have hs := ihs scope position r hscope
    have hsize : (s.resolveAt scope position r).2.scopes.size = r.scopes.size + s.blockCount := by
      rw [hs, size_plantAll, size_declareAll, length_plots.1]
    have hscope' : scope < (s.resolveAt scope position r).2.scopes.size := by
      rw [hsize]
      exact Nat.lt_add_right _ hscope
    have htargets : s.target?.toList ++ targets rest = targets (s :: rest) := by
      rw [targets, targets, List.filterMap_cons]
      cases s.target? <;> rfl
    -- The names that the rest assigns directly go before the blocks of the first statement.
    rw [resolveAll, ihrest scope _ _ _ hscope', hsize, hs,
      declareAll_plantAll (by rwa [size_declareAll]), ← declareAll_append, htargets, plotsOf,
      List.foldl_append]

end Stmt

/-! ## What stands in the tree -/

/-- How a tree differs from the one before: some names are declared in one of
its scopes, and there is one new scope for every plot, with the names of the
plot.  Nothing else has changed, except that the new scopes have become children
of their parents.

The fields say "exactly" throughout, for old scopes and for new ones.  A version
that only bounded the names from below would compose as well, but resolution
could then declare a name anywhere else. -/
structure Planted (before after : Declarations) (scope : ScopeId) (names : List String)
    (plots : List Plot) : Prop where
  /-- There is one new scope for every plot. -/
  size_eq : after.size = before.size + plots.length
  /-- An older scope has the parent that it had. -/
  parent_old : ∀ id < before.size, after.parent? id = before.parent? id
  /-- An older scope declares what it declared, and the one scope some more names. -/
  declares_old : ∀ id < before.size, ∀ name, after.declaresAt id name = true ↔
    before.declaresAt id name = true ∨ (id = scope ∧ name ∈ names)
  /-- A new scope hangs where its plot says. -/
  parent_new : ∀ plot id, (plot, id) ∈ plots.zipIdx before.size →
    after.parent? id = some plot.parent
  /-- A new scope declares exactly the names of its plot. -/
  declares_new : ∀ plot id, (plot, id) ∈ plots.zipIdx before.size →
    ∀ name, after.declaresAt id name = true ↔ name ∈ plot.names
  /-- The new scopes below a scope come behind the children that it had, in order. -/
  children_eq : ∀ id, after.children id =
    before.children id ++ ((plots.zipIdx before.size).filter (·.1.parent == id)).map (·.2)

namespace ScopeTree

variable {tree : Declarations} {id : ScopeId}

theorem parent?_declareAll (names : List String) (j : ScopeId) :
    (tree.declareAll id names).parent? j = tree.parent? j := by
  induction names generalizing tree with
  | nil => rfl
  | cons name names ih => rw [declareAll_cons, ih, parent?_declare]

theorem children_declareAll (names : List String) (j : ScopeId) :
    (tree.declareAll id names).children j = tree.children j := by
  induction names generalizing tree with
  | nil => rfl
  | cons name names ih => rw [declareAll_cons, ih, children_declare]

theorem declaresAt_declareAll (h : id < tree.size) (names : List String) (j : ScopeId)
    (m : String) :
    (tree.declareAll id names).declaresAt j m = true ↔
      tree.declaresAt j m = true ∨ (j = id ∧ m ∈ names) := by
  induction names generalizing tree with
  | nil => simp [declareAll]
  | cons name names ih =>
      rw [declareAll_cons, ih (by rwa [size_declare]), declaresAt_declare h, or_assoc,
        ← and_or_left, List.mem_cons, eq_comm (a := m)]

/-- Declaring names in an existing scope. -/
theorem planted_declareAll (h : id < tree.size) (names : List String) :
    Planted tree (tree.declareAll id names) id names [] where
  size_eq := size_declareAll names
  parent_old j _ := parent?_declareAll names j
  declares_old j _ name := declaresAt_declareAll h names j name
  parent_new _ _ hmem := nomatch hmem
  declares_new _ _ hmem := nomatch hmem
  children_eq j := by rw [children_declareAll]; exact (List.append_nil _).symm

/-- Planting one scope. -/
theorem planted_plant {plot : Plot} (h : plot.parent < tree.size) (scope : ScopeId) :
    Planted tree (tree.plant plot) scope [] [plot] where
  size_eq := size_plant plot
  parent_old j hj := by
    rw [plant, parent?_declareAll, parent?_create, if_neg (Nat.ne_of_lt hj)]
  declares_old j hj name := by
    rw [plant, declaresAt_declareAll (by simp), declaresAt_create]
    simp [Nat.ne_of_lt hj]
  parent_new plot' j hmem := by
    obtain ⟨rfl, rfl⟩ : plot' = plot ∧ j = tree.size := by simpa using hmem
    rw [plant, parent?_declareAll, parent?_create, if_pos rfl]
  declares_new plot' j hmem name := by
    obtain ⟨rfl, rfl⟩ : plot' = plot ∧ j = tree.size := by simpa using hmem
    rw [plant, declaresAt_declareAll (by simp), declaresAt_create,
      declaresAt_eq_false (Nat.le_refl _)]
    simp
  children_eq j := by
    rw [plant, children_declareAll, children_create (by simpa using h)]
    by_cases hparent : plot.parent = j <;> simp [hparent]

end ScopeTree

theorem Planted.refl (tree : Declarations) (scope : ScopeId) : Planted tree tree scope [] [] where
  size_eq := rfl
  parent_old _ _ := rfl
  declares_old _ _ _ := by simp
  parent_new _ _ hmem := nomatch hmem
  declares_new _ _ hmem := nomatch hmem
  children_eq _ := (List.append_nil _).symm

/-- Scopes planted one lot after the other.  The second lot declares no names in
older scopes, since these have all been brought forward; the plots then simply
follow each other. -/
theorem Planted.trans {before mid after : Declarations} {scope scope' : ScopeId}
    {names : List String} {plots plots' : List Plot} (h : Planted before mid scope names plots)
    (h' : Planted mid after scope' [] plots') :
    Planted before after scope names (plots ++ plots') := by
  have hmid : ∀ {id}, id < before.size → id < mid.size := by
    intro id hid
    rw [h.size_eq]
    exact Nat.lt_add_right _ hid
  have hfirst : ∀ {plot : Plot} {id}, (plot, id) ∈ plots.zipIdx before.size → id < mid.size := by
    intro plot id hmem
    rw [h.size_eq]
    exact List.snd_lt_add_of_mem_zipIdx hmem
  have hsplit : (plots ++ plots').zipIdx before.size =
      plots.zipIdx before.size ++ plots'.zipIdx mid.size := by
    rw [List.zipIdx_append, h.size_eq]
  -- What exists before the second lot is an old scope for it, and keeps its names.
  have hkept : ∀ {id}, id < mid.size → ∀ name,
      after.declaresAt id name = true ↔ mid.declaresAt id name = true := by
    intro id hid name
    simpa using h'.declares_old id hid name
  constructor
  case size_eq => rw [h'.size_eq, h.size_eq, List.length_append, Nat.add_assoc]
  case parent_old =>
    intro id hid
    rw [h'.parent_old id (hmid hid), h.parent_old id hid]
  case declares_old =>
    intro id hid name
    rw [hkept (hmid hid), h.declares_old id hid]
  case parent_new =>
    intro plot id hmem
    rw [hsplit, List.mem_append] at hmem
    rcases hmem with hmem | hmem
    · rw [h'.parent_old id (hfirst hmem), h.parent_new plot id hmem]
    · exact h'.parent_new plot id hmem
  case declares_new =>
    intro plot id hmem name
    rw [hsplit, List.mem_append] at hmem
    rcases hmem with hmem | hmem
    · rw [hkept (hfirst hmem), h.declares_new plot id hmem]
    · exact h'.declares_new plot id hmem name
  case children_eq =>
    intro id
    rw [h'.children_eq, h.children_eq, hsplit, List.filter_append, List.map_append,
      List.append_assoc]

/-- Planting scopes whose parents are older than they.  The condition is on
positions, where a plot is counted from the size of the tree, so that a plot may
hang below one of the same list. -/
theorem planted_plantAll {tree : Declarations} {plots : List Plot}
    (h : ∀ plot ∈ plots.zipIdx tree.size, plot.1.parent < plot.2) (scope : ScopeId) :
    Planted tree (plots.foldl ScopeTree.plant tree) scope [] plots := by
  induction plots generalizing tree with
  | nil => exact .refl tree scope
  | cons plot plots ih =>
      rw [List.zipIdx_cons, List.forall_mem_cons] at h
      rw [← ScopeTree.size_plant plot] at h
      exact (ScopeTree.planted_plant h.1 scope).trans (ih h.2)

/-- Declaring names in an existing scope and then planting scopes. -/
theorem planted_foldl {tree : Declarations} {scope : ScopeId} (hscope : scope < tree.size)
    (names : List String) {plots : List Plot}
    (h : ∀ plot ∈ plots.zipIdx tree.size, plot.1.parent < plot.2) :
    Planted tree (plots.foldl ScopeTree.plant (tree.declareAll scope names)) scope names plots := by
  have hsize : (tree.declareAll scope names).size = tree.size := ScopeTree.size_declareAll names
  rw [← hsize] at h
  exact (ScopeTree.planted_declareAll hscope names).trans (planted_plantAll h scope)

namespace Stmt

/-- The scope around a block is older than the one of the block.  This is the
condition of `planted_plantAll`, and it holds because the plots come in
preorder. -/
theorem parent_lt_of_mem_plots :
    (∀ (s : Stmt) (scope next : ScopeId), scope < next →
        ∀ plot ∈ (s.plots scope next).zipIdx next, plot.1.parent < plot.2) ∧
      ∀ (body : List Stmt) (scope next : ScopeId), scope < next →
        ∀ plot ∈ (plotsOf scope next body).zipIdx next, plot.1.parent < plot.2 := by
  refine Stmt.induction ?action ?block ?nil ?cons
  case action =>
    intro a scope next _ plot hmem
    rw [plots] at hmem
    cases hmem
  case block =>
    intro body ih scope next hscope
    rw [plots, List.zipIdx_cons, List.forall_mem_cons]
    exact ⟨hscope, ih next (next + 1) (Nat.lt_succ_self next)⟩
  case nil =>
    intro scope next _ plot hmem
    rw [plotsOf] at hmem
    cases hmem
  case cons =>
    intro s rest ihs ihrest scope next hscope plot hmem
    rw [plotsOf, List.zipIdx_append, List.mem_append, length_plots.1] at hmem
    rcases hmem with hmem | hmem
    · exact ihs scope next hscope plot hmem
    · exact ihrest scope _ (Nat.lt_add_right _ hscope) plot hmem

/-- **What resolution makes of a tree:** the names that are assigned in the scope it is started in
are declared there, and every block has got a scope. -/
theorem planted_resolveAt (scope : ScopeId) (position : Nat) (r : Resolver)
    (hscope : scope < r.scopes.size) :
    (∀ s : Stmt, Planted r.scopes (s.resolveAt scope position r).2.scopes scope s.target?.toList
        (s.plots scope r.scopes.size)) ∧
      ∀ (body : List Stmt) (valid : Bool),
        Planted r.scopes (resolveAll scope position valid body r).2.scopes scope (targets body)
          (plotsOf scope r.scopes.size body) := by
  refine ⟨fun s => ?_, fun body valid => ?_⟩
  · rw [scopes_resolveAt.1 s scope position r hscope]
    exact planted_foldl hscope _ (parent_lt_of_mem_plots.1 s scope _ hscope)
  · rw [scopes_resolveAt.2 body scope position valid r hscope]
    exact planted_foldl hscope _ (parent_lt_of_mem_plots.2 body scope _ hscope)

end Stmt

end StraightLine
