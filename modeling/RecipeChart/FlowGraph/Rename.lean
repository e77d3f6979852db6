/-
Changing how a flow graph names its texts. The shape, the numbers and the
spans stay.
-/
import RecipeChart.FlowGraph

namespace RecipeChart

variable {m : Type → Type} [Monad m] {α β : Type} (f : α → m β)

/-- The kind of a vertex, its texts renamed. -/
def VertexKind.traverse : VertexKind α → m (VertexKind β)
  | .terminal => return .terminal
  | .join name => return .join (← f name)
  | .root group => return .root (← group.traverse f)

def Vertex.traverse (v : Vertex α) : m (Vertex β) := do
  let kind ← v.kind.traverse f
  return ⟨v.id, kind, v.incoming, v.outgoing, v.span⟩

def Edge.traverse (e : Edge α) : m (Edge β) := do
  let actions ← e.actions.mapM (Action.traverse f)
  return ⟨e.id, e.source, e.target, actions, e.span⟩

def FlowGraph.traverse (g : FlowGraph α) : m (FlowGraph β) := do
  let vertices ← g.vertices.mapM (Vertex.traverse f)
  let edges ← g.edges.mapM (Edge.traverse f)
  let joins ← g.joins.mapM fun j => do
    let name ← f j.1
    return (name, j.2)
  return ⟨vertices, edges, joins⟩

end RecipeChart
