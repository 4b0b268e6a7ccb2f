import StraightLine.Dictionary

/-!
# Scope trees

All scopes of a run in one arena: a scope is named by its position, knows its parent and its
children, and holds the bindings made directly in it.  A name is looked up along the chain of
parents; a declaration only ever touches the scope it is made in.

## Main definitions

* `Scope`, `ScopeTree`, `ScopeId`.
* `ScopeTree.create`, `ScopeTree.declare` — the two ways in which a tree grows.
* `ScopeTree.ancestors`, `ScopeTree.lookup`, `ScopeTree.declaringScope?`.

## Design notes

* **The slot type is a parameter.**  Name resolution records only that a name exists, evaluation
  stores its value; both run over the same trees.
* **Scopes are never removed.**  A finished block stays in the arena, so identities are stable and
  the state after a run shows everything that was created.
* **The chain of parents ends by itself:** `create` can only name an earlier scope as parent, so a
  chain from `s` has at most `s + 1` members, and that many are followed.
-/

namespace StraightLine

/-- A scope is named by its position in the arena. -/
abbrev ScopeId := Nat

/-- One scope: its identity, its place in the tree and the bindings made in it.
The identity repeats the position in the arena; that the two agree, and that
parents and children name each other, is no part of the type and is an invariant
of trees that were grown. -/
structure Scope (α : Type) where
  id : ScopeId
  parent : Option ScopeId
  children : List ScopeId
  bindings : Dictionary String α
  deriving Inhabited

/-- An arena of scopes.  Positions are handed out in order of creation and never
again. -/
structure ScopeTree (α : Type) where
  scopes : Array (Scope α)
  /-- The first scope created. -/
  root? : Option ScopeId
  deriving Inhabited

namespace Scope

variable {α : Type}

/-- A scope without children and bindings. -/
def fresh (id : ScopeId) (parent : Option ScopeId) : Scope α := ⟨id, parent, [], .empty⟩

/-- The scope with one more child. -/
def addChild (scope : Scope α) (child : ScopeId) : Scope α :=
  { scope with children := scope.children ++ [child] }

/-- The scope with a binding made or overwritten. -/
def bind (scope : Scope α) (name : String) (value : α) : Scope α :=
  { scope with bindings := scope.bindings.insert name value }

end Scope

namespace ScopeTree

variable {α : Type}

/-- The tree without scopes. -/
def empty : ScopeTree α := ⟨#[], none⟩

/-- The number of scopes. -/
def size (tree : ScopeTree α) : Nat := tree.scopes.size

/-- The scope with a given name. -/
def get? (tree : ScopeTree α) (id : ScopeId) : Option (Scope α) := tree.scopes[id]?

/-- The tree with one scope changed; a scope that does not exist is left alone.
All changes to scopes that are there already come through here, which is what
makes a frame lemma for each of them a case of one for `update`. -/
def update (tree : ScopeTree α) (id : ScopeId) (change : Scope α → Scope α) : ScopeTree α :=
  match tree.scopes[id]? with
  | some scope => { tree with scopes := tree.scopes.setIfInBounds id (change scope) }
  | none => tree

/-- The tree with one more scope, which becomes the last child of its parent,
and the root if it is the first one.  The parent is not checked: a parent that
does not exist is recorded all the same and gets no child. -/
def create (tree : ScopeTree α) (parent : Option ScopeId) : ScopeTree α :=
  let linked :=
    match parent with
    | some p => tree.update p (·.addChild tree.size)
    | none => tree
  { scopes := linked.scopes.push (.fresh tree.size parent)
    root? := tree.root?.or (some tree.size) }

/-- A tree with a single scope. -/
def withRoot : ScopeTree α := empty.create none

/-- The tree with a name bound in one scope.  A name that the scope binds
already gets the new value and keeps its place among the bindings; scopes
further out are never touched, so an outer binding is shadowed and not changed. -/
def declare (tree : ScopeTree α) (id : ScopeId) (name : String) (value : α) : ScopeTree α :=
  tree.update id (·.bind name value)

/-- At most `fuel` scopes of the chain of parents that starts at a scope.  The
chain ends at a scope without parent and also where it leads out of the arena,
so it is defined for every tree, grown or not. -/
def chain (tree : ScopeTree α) : Nat → ScopeId → List ScopeId
  | 0, _ => []
  | fuel + 1, id =>
    match tree.get? id with
    | none => []
    | some scope =>
      match scope.parent with
      | none => [id]
      | some parent => id :: tree.chain fuel parent

/-- A scope, its parent, and so on to a scope without parent.  In a grown tree
parents have smaller numbers, so `id + 1` scopes are enough for the whole chain. -/
def ancestors (tree : ScopeTree α) (id : ScopeId) : List ScopeId := tree.chain (id + 1) id

/-- Whether one scope lies in the subtree of another; every scope lies in its own. -/
def isDescendantOf (tree : ScopeTree α) (id ancestor : ScopeId) : Bool :=
  (tree.ancestors id).any fun a => (tree.get? a).any (·.id == ancestor)

/-- The children of a scope in order of creation. -/
def children (tree : ScopeTree α) (id : ScopeId) : List ScopeId :=
  match tree.get? id with
  | some scope => scope.children
  | none => []

/-- The binding of a name in one scope, its ancestors left aside.  A scope that
does not exist binds nothing. -/
def local? (tree : ScopeTree α) (id : ScopeId) (name : String) : Option α :=
  (tree.get? id).bind (·.bindings.get? name)

/-- Whether a scope itself binds a name. -/
def declaresAt (tree : ScopeTree α) (id : ScopeId) (name : String) : Bool :=
  (tree.local? id name).isSome

/-- The binding of a name in the nearest scope of the chain that has one.  This
is the whole of lexical scoping at the level of trees: what the passes add is
which scope they ask in. -/
def lookup (tree : ScopeTree α) (id : ScopeId) (name : String) : Option α :=
  (tree.ancestors id).findSome? (tree.local? · name)

/-- Whether a name is bound in some scope of the chain. -/
def contains (tree : ScopeTree α) (id : ScopeId) (name : String) : Bool :=
  (tree.lookup id name).isSome

/-- The scope whose binding a look-up finds.  It is told by its recorded
identity and not by its position, which comes to the same in a grown tree. -/
def declaringScope? (tree : ScopeTree α) (id : ScopeId) (name : String) : Option ScopeId :=
  ((tree.ancestors id).find? (tree.declaresAt · name)).bind fun a => (tree.get? a).map (·.id)

end ScopeTree

end StraightLine
