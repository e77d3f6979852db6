/-
Promises that were broken. Rules that were read and stitched break none
of them; a graph or a tree put together by hand may. A fault ends the
operation that met it.
-/
namespace RecipeChart

/-- A broken promise of a graph, an order or a tree. -/
inductive Fault where
  /-- A vertex or edge was addressed that its table does not hold. -/
  | outOfTable
  /-- An edge leaves the terminal. -/
  | terminalOutgoing
  /-- More than one edge leaves the vertex. -/
  | severalOutgoing (vertex : Int) (count : Nat)
  /-- An ingredient root has an edge coming in, or not one going out. -/
  | rootNotSource (vertex : Int)
  /-- The edge that a vertex records as its outgoing one is not its own. -/
  | outgoingMismatch (vertex : Int)
  /-- The edges are no tree, or they are one that runs elsewhere than into
  the terminal. -/
  | notInTree {elsewhere : Bool}
  /-- What flows out of the vertex was wanted and is not there. -/
  | missingFlow (vertex : Int)
  /-- The root of a tree is not bare with one path. -/
  | rootShape
  /-- A node has both ingredients and paths, or neither. -/
  | nodeShape
  /-- A node records another size than its parts have. -/
  | wrongSize (recorded due : Int)
  /-- A node records another depth than its parts have. -/
  | wrongDepth (recorded due : Int)
  /-- What was made of a node was wanted and is not there. -/
  | missingNode (id : Nat)
  /-- A leaf without ingredients has no row to stand in. -/
  | rowlessLeaf
  deriving Repr, DecidableEq

/-- The fault in words. -/
def Fault.message : Fault → String
  | .outOfTable | .rowlessLeaf => "list index out of range"
  | .terminalOutgoing => "terminal vertex has an outgoing edge"
  | .severalOutgoing v n => s!"vertex {v} has {n} outgoing edges"
  | .rootNotSource v => s!"ingredient root {v} is not a single-edge source"
  | .outgoingMismatch v => s!"vertex {v} has a mismatched outgoing edge"
  | @notInTree false => "validated structure is not an in-tree rooted at the terminal"
  | @notInTree true => "terminal vertex is not the last vertex of the build order"
  | .missingFlow v => toString v
  | .missingNode id => toString id
  | .rootShape => "root must have no actions, no ingredients and exactly one path"
  | .nodeShape => "a node must have either ingredients or paths"
  | .wrongSize recorded due => s!"node size {recorded} should be {due}"
  | .wrongDepth recorded due => s!"node max_depth {recorded} should be {due}"

end RecipeChart
