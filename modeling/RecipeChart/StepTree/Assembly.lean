/-
Assembling the tree of steps from a flow graph, one vertex after another
in a given order. What flows out of a vertex waits until the vertex that
it enters comes up: then the actions of the edge are added to its run. A
single flow goes on as it is; several flows, or none, become the branches
of a new one. The flow of the terminal is the dish.

With a build order every flow is there when it is wanted and is wanted
once. With any other order the assembly may miss one, and fails.
-/
import RecipeChart.FlowGraph
import RecipeChart.StepTree.Check

namespace RecipeChart

variable {α : Type}

-- =============================================================== flows

/-- What a run of actions is done to. -/
inductive Below (α : Type) where
  | group (ingredients : List (Ingredient α))
  | branches (trees : List (StepTree α))

/-- The actions since the last merging, and what lies below them. -/
structure Flow (α : Type) where
  actions : List (Action α)
  below : Below α

namespace StepTree

/-- A leaf, with the numbers it is due. -/
def leaf (actions : List (Action α)) (ingredients : List (Ingredient α)) : StepTree α :=
  .node actions ingredients ingredients.length actions.length []

def branch (actions : List (Action α)) (paths : List (StepTree α)) : StepTree α :=
  .node actions [] (total (paths.map size)) (actions.length + greatest (paths.map maxDepth)) paths

/-- The root over a tree. -/
def root (top : StepTree α) : StepTree α := .node [] [] top.size top.maxDepth [top]

end StepTree

namespace Flow

/-- The flow with more actions done to it. -/
def prolong (f : Flow α) (actions : List (Action α)) : Flow α :=
  { f with actions := f.actions ++ actions }

/-- The node that the flow ends in. -/
def finish (f : Flow α) : StepTree α :=
  match f.below with
  | .group ingredients => .leaf f.actions ingredients
  | .branches trees => .branch f.actions trees

/-- The flow that several flows merge into. -/
def merge : List (Flow α) → Flow α
  | [f] => f
  | fs => ⟨[], .branches (fs.map finish)⟩

end Flow

-- ============================================================== waiting

/-- The flows that wait, by the vertex that they flow out of. -/
abbrev Waiting (α : Type) := List (Int × Flow α)

/-- The waiting flows, the one out of the vertex replaced. -/
def Waiting.put (w : Waiting α) (v : Int) (f : Flow α) : Waiting α :=
  (v, f) :: w.filter (·.1 ≠ v)

/-- The flow out of the vertex, and the flows that go on waiting. -/
def Waiting.take (w : Waiting α) (v : Int) : Except Fault (Flow α × Waiting α) :=
  match w.lookup v with
  | some f => .ok (f, w.filter (·.1 ≠ v))
  | none => .error (.missingFlow v)

/-- The flows along the edges, each prolonged by the actions of its
edge, and the flows that go on waiting. -/
def Waiting.collect : Waiting α → List (Edge α) → Except Fault (List (Flow α) × Waiting α)
  | w, [] => .ok ([], w)
  | w, e :: edges => do
    let (f, w) ← w.take e.source
    let (fs, w) ← w.collect edges
    return (f.prolong e.actions :: fs, w)

-- ============================================================= assembly

namespace FlowGraph

/-- One vertex comes up. -/
def visit (g : FlowGraph α) (w : Waiting α) (v : Int) : Except Fault (Waiting α) := do
  let vertex ← g.vertex v
  match vertex.kind with
  | .root group => return w.put v ⟨[], .group group.ingredients⟩
  | _ =>
    let edges ← g.incomingEdges v
    let (flows, w) ← w.collect edges
    return w.put v (.merge flows)

/-- The tree of the graph, its vertices taken in the given order. -/
def assemble (g : FlowGraph α) (order : List Int) : Except Fault (StepTree α) := do
  let w ← order.foldlM g.visit []
  let (top, _) ← w.take terminalId
  let tree := StepTree.root top.finish
  tree.check
  return tree

end FlowGraph

end RecipeChart
