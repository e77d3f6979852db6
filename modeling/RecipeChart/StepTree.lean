/-
The tree of steps of a recipe, from the finished dish back to the
ingredients. A node holds the actions of a straight run, the earliest
first. A leaf has ingredients, an inner node has the paths that merge
into it. Joins are gone: a run that passes through several joins is one
node.

Every node records its size, the number of ingredients below it, and its
depth, the longest run of actions down to a leaf. They are recorded and
not computed, so a tree put together by hand may record anything.
-/
import RecipeChart.Recipe.Rename

namespace RecipeChart

/-- A node of the tree, with everything below it. -/
inductive StepTree (α : Type) where
  | node (actions : List (Action α)) (ingredients : List (Ingredient α))
      (size maxDepth : Int) (paths : List (StepTree α))
  deriving Repr

namespace StepTree

variable {α β : Type}

instance : Inhabited (StepTree α) := ⟨.node [] [] 0 0 []⟩

-- ============================================================== fields

/-- The actions of the run, the earliest first. -/
def actions : StepTree α → List (Action α)
  | .node actions _ _ _ _ => actions

/-- The ingredients of a leaf. -/
def ingredients : StepTree α → List (Ingredient α)
  | .node _ ingredients _ _ _ => ingredients

/-- The recorded number of ingredients below. -/
def size : StepTree α → Int
  | .node _ _ size _ _ => size

/-- The recorded length of the longest run of actions down to a leaf. -/
def maxDepth : StepTree α → Int
  | .node _ _ _ maxDepth _ => maxDepth

def paths : StepTree α → List (StepTree α)
  | .node _ _ _ _ paths => paths

/-- Does nothing merge here? -/
def isLeaf (t : StepTree α) : Bool := t.paths.isEmpty

-- ================================================================ walk

mutual

/-- Every node, a node before what is below it, its paths in order. -/
def walk : StepTree α → List (StepTree α)
  | .node actions ingredients size maxDepth paths =>
    .node actions ingredients size maxDepth paths :: walkAll paths

/-- Every node of several trees, one tree after another. -/
def walkAll : List (StepTree α) → List (StepTree α)
  | [] => []
  | t :: ts => walk t ++ walkAll ts

end

/-- The nodes of several trees are those of the first, then those of the
next. -/
theorem walkAll_eq (ts : List (StepTree α)) : walkAll ts = ts.flatMap walk := by
  induction ts with
  | nil => rfl
  | cons t ts ih => rw [walkAll, List.flatMap_cons, ih]

theorem walk_node (actions : List (Action α)) (ingredients : List (Ingredient α))
    (size maxDepth : Int) (paths : List (StepTree α)) :
    walk (.node actions ingredients size maxDepth paths)
      = .node actions ingredients size maxDepth paths :: paths.flatMap walk := by
  rw [walk, walkAll_eq]

-- ============================================================== nesting

mutual

/-- How many nodes lie inside one another, the node itself included. -/
def nesting : StepTree α → Nat
  | .node _ _ _ _ paths => nestingAll paths + 1

/-- How many nodes lie inside one another in the deepest of the trees. -/
def nestingAll : List (StepTree α) → Nat
  | [] => 0
  | t :: ts => max (nesting t) (nestingAll ts)

end

-- ============================================================= renaming

variable {m : Type → Type} [Monad m] (f : α → m β)

mutual

/-- The tree, its texts renamed. -/
def traverse : StepTree α → m (StepTree β)
  | .node actions ingredients size maxDepth paths => do
    let actions ← actions.mapM (Action.traverse f)
    let ingredients ← ingredients.mapM (Ingredient.traverse f)
    let paths ← traverseAll paths
    return .node actions ingredients size maxDepth paths

def traverseAll : List (StepTree α) → m (List (StepTree β))
  | [] => return []
  | t :: ts => do
    let t ← traverse t
    let ts ← traverseAll ts
    return t :: ts

end

-- ============================================================= equality

variable [DecidableEq α]

mutual

/-- Are the trees the same? -/
def same : StepTree α → StepTree α → Bool
  | .node a i s d ps, .node a' i' s' d' ps' =>
    a = a' && i = i' && s = s' && d = d' && sameAll ps ps'

def sameAll : List (StepTree α) → List (StepTree α) → Bool
  | [], [] => true
  | t :: ts, t' :: ts' => same t t' && sameAll ts ts'
  | _, _ => false

end

mutual

/-- Trees are the same only if they are equal. -/
theorem eq_of_same : ∀ {t u : StepTree α}, same t u = true → t = u
  | .node a i s d ps, .node a' i' s' d' ps' => by
    intro h
    simp only [same, Bool.and_eq_true, decide_eq_true_eq] at h
    obtain ⟨⟨⟨⟨rfl, rfl⟩, rfl⟩, rfl⟩, h⟩ := h
    rw [eq_of_sameAll h]

theorem eq_of_sameAll : ∀ {ts us : List (StepTree α)}, sameAll ts us = true → ts = us
  | [], [] => fun _ => rfl
  | t :: ts, u :: us => by
    intro h
    simp only [sameAll, Bool.and_eq_true] at h
    rw [eq_of_same h.1, eq_of_sameAll h.2]
  | [], _ :: _ => fun h => nomatch h
  | _ :: _, [] => fun h => nomatch h

end

mutual

theorem same_self : ∀ t : StepTree α, same t t = true
  | .node a i s d ps => by simp [same, sameAll_self ps]

theorem sameAll_self : ∀ ts : List (StepTree α), sameAll ts ts = true
  | [] => rfl
  | t :: ts => by simp [sameAll, same_self t, sameAll_self ts]

end

/-- To be the same is to be equal. -/
theorem same_iff {t u : StepTree α} : same t u = true ↔ t = u :=
  ⟨eq_of_same, fun h => h ▸ same_self t⟩

instance : DecidableEq (StepTree α) := fun _ _ => decidable_of_iff _ same_iff

end StepTree

end RecipeChart
