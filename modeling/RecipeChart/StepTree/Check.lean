/-
Checking the numbers of a tree. Every node is compared with what its
children record, a node before what is below it; the first node that
does not fit is the fault. The root is bare and has one path, and any
other node has either ingredients or paths.
-/
import RecipeChart.Fault
import RecipeChart.StepTree

namespace RecipeChart.StepTree

variable {α : Type}

/-- The greatest of the numbers, zero if there are none. -/
def greatest : List Int → Int
  | [] => 0
  | n :: ns => ns.foldl max n

/-- The sum of the numbers. -/
def total : List Int → Int
  | [] => 0
  | n :: ns => n + total ns

/-- The size that a node should record. -/
def dueSize (t : StepTree α) : Int :=
  if t.isLeaf then t.ingredients.length else total (t.paths.map size)

/-- The depth that a node should record. -/
def dueDepth (t : StepTree α) : Int :=
  t.actions.length + greatest (t.paths.map maxDepth)

/-- Is the node bare, with one path? -/
def isRootShaped (t : StepTree α) : Bool :=
  t.actions.isEmpty && t.ingredients.isEmpty && t.paths.length = 1

/-- Has the node ingredients or paths, and not both? -/
def isNodeShaped (t : StepTree α) : Bool := t.ingredients.isEmpty != t.paths.isEmpty

/-- Does the node record what is due? -/
def checkNumbers (t : StepTree α) : Except Fault Unit :=
  if t.size ≠ t.dueSize then .error (.wrongSize t.size t.dueSize)
  else if t.maxDepth ≠ t.dueDepth then .error (.wrongDepth t.maxDepth t.dueDepth)
  else .ok ()

/-- Does a node other than the root fit? -/
def checkNode (t : StepTree α) : Except Fault Unit :=
  if t.isNodeShaped then t.checkNumbers else .error .nodeShape

/-- Does the whole tree fit? -/
def check (root : StepTree α) : Except Fault Unit := do
  if root.isRootShaped then
    root.checkNumbers
    (walkAll root.paths).forM checkNode
  else throw .rootShape

end RecipeChart.StepTree
