/-
The nodes of a tree as objects. Two nodes may say the same and still be
two: what tells them apart is their identity. Operations that go over a
flat list of the nodes keep what they make of a node by its identity,
until the node above takes it.

A tree owns its nodes: each has one place in it. Objects that were put
together by hand may lack that, when one object stands in two places. What
was made of it is then taken at the first of them, and can be missing at
the other.
-/
import RecipeChart.Fault
import RecipeChart.StepTree

namespace RecipeChart

-- ============================================================== objects

/-- A node that has an identity, and with it all that is below. -/
inductive TreeObject (α : Type) where
  | node (id : Nat) (actions : List (Action α)) (ingredients : List (Ingredient α))
      (size maxDepth : Int) (paths : List (TreeObject α))

namespace TreeObject

variable {α β : Type}

/-- What tells the object from any other. -/
def id : TreeObject α → Nat
  | .node id _ _ _ _ _ => id

def paths : TreeObject α → List (TreeObject α)
  | .node _ _ _ _ _ paths => paths

mutual

/-- What the object says, all below it included. -/
def tree : TreeObject α → StepTree α
  | .node _ actions ingredients size maxDepth paths =>
    .node actions ingredients size maxDepth (trees paths)

def trees : List (TreeObject α) → List (StepTree α)
  | [] => []
  | t :: ts => tree t :: trees ts

end

theorem trees_eq (ts : List (TreeObject α)) : trees ts = ts.map tree := by
  induction ts with
  | nil => rfl
  | cons t ts ih => rw [trees, List.map_cons, ih]

mutual

/-- Every object, one before what is below it, its paths in order. An
object that stands in two places comes up twice. -/
def walk : TreeObject α → List (TreeObject α)
  | .node id actions ingredients size maxDepth paths =>
    .node id actions ingredients size maxDepth paths :: walkAll paths

def walkAll : List (TreeObject α) → List (TreeObject α)
  | [] => []
  | t :: ts => walk t ++ walkAll ts

end

/-- The objects below several are those below the first, then those below
the next. -/
theorem walkAll_eq (ts : List (TreeObject α)) : walkAll ts = ts.flatMap walk := by
  induction ts with
  | nil => rfl
  | cons t ts ih => rw [walkAll, List.flatMap_cons, ih]

theorem walk_eq_cons (t : TreeObject α) : t.walk = t :: t.paths.flatMap walk := by
  cases t with
  | node id actions ingredients size maxDepth paths => rw [walk, walkAll_eq, TreeObject.paths]

/-- The identities of all places, in the order of the walk. -/
def ids (t : TreeObject α) : List Nat := t.walk.map id

theorem ids_eq_cons (t : TreeObject α) : t.ids = t.id :: t.paths.flatMap ids := by
  rw [ids, walk_eq_cons, List.map_cons, List.map_flatMap]
  rfl

-- ============================================================ ownership

/-- Has every object one place only? -/
def Owned (t : TreeObject α) : Prop := t.ids.Nodup

/-- No path of a node stands anywhere in a path before it. -/
def Orderly (t : TreeObject α) : Prop :=
  ∀ n ∈ t.walk, n.paths.Pairwise fun p q => q.id ∉ p.ids

instance (t : TreeObject α) : Decidable t.Owned := inferInstanceAs (Decidable t.ids.Nodup)

instance (t : TreeObject α) : Decidable t.Orderly :=
  inferInstanceAs (Decidable (∀ n ∈ t.walk, n.paths.Pairwise fun p q => q.id ∉ p.ids))

end TreeObject

namespace StepTree

variable {α : Type}

mutual

/-- Objects for all nodes of a tree, numbered in the order of the walk. -/
def objectsFrom (first : Nat) : StepTree α → TreeObject α
  | .node actions ingredients size maxDepth paths =>
    .node first actions ingredients size maxDepth (objectsAllFrom (first + 1) paths)

def objectsAllFrom (first : Nat) : List (StepTree α) → List (TreeObject α)
  | [] => []
  | t :: ts => objectsFrom first t :: objectsAllFrom (first + t.walk.length) ts

end

/-- The tree as it is built: an object of its own for every node. -/
def objects (t : StepTree α) : TreeObject α := t.objectsFrom 0

end StepTree

-- ============================================================ what is kept

/-- What is kept of objects, by their identity. -/
abbrev Held (β : Type) := List (Nat × β)

namespace Held

variable {α β : Type}

/-- What is kept of the object. -/
def find (k : Held β) (id : Nat) : Except Fault β :=
  match k.lookup id with
  | some b => .ok b
  | none => .error (.missingNode id)

/-- What is kept, without the objects. -/
def without (k : Held β) (ids : List Nat) : Held β := k.filter (·.1 ∉ ids)

/-- What is kept, with this kept of the object. -/
def put (k : Held β) (id : Nat) (b : β) : Held β := (id, b) :: k.without [id]

/-- What is kept of the objects, taken one after another, and what is kept
after that. -/
def collect : Held β → List (TreeObject α) → Except Fault (List β × Held β)
  | k, [] => .ok ([], k)
  | k, t :: ts => do
    let b ← k.find t.id
    let (bs, k) ← collect (k.without [t.id]) ts
    return (b :: bs, k)

end Held

-- ============================================================= building

namespace TreeObject

variable {α β : Type} (make : TreeObject α → List β → Except Fault β)

/-- One object comes up: it is made of what is kept of its paths. -/
def visit (k : Held β) (t : TreeObject α) : Except Fault (Held β) := do
  let (below, k) ← k.collect t.paths
  let b ← make t below
  return k.put t.id b

/-- What is made of an object, the objects taken one after another and
each after all below it. -/
def build (t : TreeObject α) : Except Fault β := do
  let kept ← t.walk.reverse.foldlM (visit make) []
  kept.find t.id

end TreeObject

end RecipeChart
