/-
The listing of a flow graph: for the terminal, if anything enters it, and
for every join the edges that enter it, each read backwards from where it
arrives to where it comes from.
-/
import RecipeChart.FlowGraph
import RecipeChart.Registry
import RecipeChart.Recipe.Listing

namespace RecipeChart

-- ============================================================== errors

/-- Why a graph has no listing: its tables do not fit together, or an
edge comes from a vertex without a name. -/
inductive ListingError where
  | fault (fault : Fault)
  | nameless (error : ProvenanceError)
  deriving Repr, DecidableEq

namespace FlowGraph

-- ============================================================== listing

/-- The result of a look-up, for the listing. -/
def looked {β : Type} : Except Fault β → Except ListingError β
  | .ok b => .ok b
  | .error e => .error (.fault e)

/-- Where an edge comes from, in words. -/
def sourceText (kind : VertexKind String) : Except ListingError String :=
  match kind with
  | .root group => .ok group.text
  | .join name => .ok (joinText name)
  | .terminal => .error (.nameless (.notHandle .null))

/-- The line of an edge: its actions, the last one first, and its
source. -/
def edgeLine (g : FlowGraph String) (e : Edge String) : Except ListingError String := do
  let back := String.join (e.actions.reverse.map fun a => " <- " ++ a.text)
  let source ← looked (g.vertex e.source)
  return "    " ++ back ++ " <- " ++ (← sourceText source.kind)

/-- The lines of a vertex under its heading. -/
def vertexLines (g : FlowGraph String) (heading : String) (v : Vertex String) :
    Except ListingError (List String) := do
  let edges ← looked (v.incoming.mapM g.edge)
  return heading :: (← edges.mapM g.edgeLine)

def joinLines (g : FlowGraph String) (v : Vertex String) : Except ListingError (List String) :=
  match v.kind with
  | .join name => g.vertexLines ("  " ++ joinText name) v
  | _ => .ok []

/-- The listing of the graph. -/
def listing (g : FlowGraph String) : Except ListingError String := do
  let terminal ← looked (g.vertex terminalId)
  let top ← if terminal.incoming.isEmpty then pure [] else g.vertexLines "  DONE" terminal
  let joins ← g.vertices.mapM g.joinLines
  return "\n".intercalate (["analysis \x7b"] ++ top ++ joins.flatten ++ ["\x7d"])

end FlowGraph

end RecipeChart
