/-
Analysis of a flow graph. A good graph is one tree: one way on from every
vertex, no loop, and every way ends at the terminal. The analysis looks
for loops, then makes sure that the tables agree on who has which way on,
then for ingredients that never arrive, then for an empty recipe. The
tables of a stitched graph always agree; disagreement is a fault and no
finding.

Without findings there is a build order: every vertex comes after what
flows into it, the terminal comes last, and where the graph leaves the
choice the smaller number comes first. A graph put together by hand may
have no findings and be no tree, or be one that runs elsewhere than into
the terminal; that is a fault again.
-/
import RecipeChart.Diagnostic
import RecipeChart.FlowGraph

namespace RecipeChart

variable {α : Type}

-- ============================================================= results

/-- The findings of an analysis, and the build order if there are none
and were none before. -/
structure Analysis (α : Type) where
  diagnostics : List (Diagnostic α) := []
  order : Option (List Int) := none
  deriving Repr, DecidableEq

namespace FlowGraph

-- =============================================================== loops

/-- The finding on a loop that is first met at the given vertex. -/
def cycleAt (g : FlowGraph α) (first : Int) (around : List Int) :
    Except Fault (Diagnostic α) := do
  let vertex ← g.vertex first
  let names ← around.mapM fun v => return (← g.vertex v).kind.name?
  return .cycle vertex.kind.name? (names ++ [vertex.kind.name?]) vertex.span

/-- The findings on loops. The search sets out from every root and then
from every join, in the order of their making. -/
def cycles (g : FlowGraph α) : Except Fault (List (Diagnostic α)) :=
  let starts := (g.roots ++ g.joinVertices).map (·.id)
  (g.digraph.loops starts []).filterMapM fun
    | [] => return none
    | v :: around => some <$> g.cycleAt v (v :: around)

-- ============================================================ agreement

/-- Do the tables agree on the way on from the vertex? The terminal has
none, a root has one and nothing comes in, and every vertex records the
one edge that leaves it. -/
def checkVertex (g : FlowGraph α) (v : Vertex α) : Except Fault Unit := do
  let count := (g.edges.filter (·.source = v.id)).length
  if v.kind.isTerminal ∧ count ≠ 0 then throw .terminalOutgoing
  if count > 1 then throw (.severalOutgoing v.id count)
  if v.kind.group?.isSome ∧ (count ≠ 1 ∨ v.incoming ≠ []) then throw (.rootNotSource v.id)
  let recorded ← match v.outgoing with
    | some e => do pure (← g.edge e).source
    | none => pure v.id
  if recorded ≠ v.id ∨ ¬ (v.outgoing.isNone ↔ count = 0) then throw (.outgoingMismatch v.id)

/-- Do the tables agree on every vertex? -/
def checkOutgoing (g : FlowGraph α) : Except Fault Unit := g.vertices.forM g.checkVertex

-- ============================================================= arriving

/-- The findings on ingredients that never arrive at the terminal. -/
def disconnected (g : FlowGraph α) : List (Diagnostic α) :=
  let arriving := g.digraph.reachBack terminalId
  g.vertices.filterMap fun v =>
    match v.kind with
    | .root group => if v.id ∈ arriving then none else some (.disconnected group v.span)
    | _ => none

/-- The finding on a recipe in which nothing arrives. -/
def emptiness (g : FlowGraph α) : Except Fault (List (Diagnostic α)) := do
  return if (← g.indegree terminalId) = 0 then [.emptyRecipe none] else []

-- ============================================================= analysis

/-- The analysis of the graph. No order is given when problems were known
before. -/
def analyze (g : FlowGraph α) (earlier : List (Diagnostic α)) : Except Fault (Analysis α) := do
  let cycles ← g.cycles
  g.checkOutgoing
  let diagnostics := cycles ++ g.disconnected ++ (← g.emptiness)
  if diagnostics.isEmpty && earlier.isEmpty then
    let order := g.digraph.order
    if ¬ g.digraph.isInTree then throw (@Fault.notInTree false)
    else if order.getLast? ≠ some terminalId then throw (@Fault.notInTree true)
    else return { order := some order }
  else return { diagnostics }

end FlowGraph

end RecipeChart
