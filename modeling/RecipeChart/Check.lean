/-
Checking a recipe: its fragments are stitched together, the graph is
analysed, and if there is a build order the tree is assembled in it. There
is one exactly when neither the stitching nor the analysis found a
problem. The problems of stitching come before those of the analysis.
-/
import RecipeChart.FlowGraph.Analysis
import RecipeChart.FlowGraph.Stitch
import RecipeChart.StepTree.Assembly
import RecipeChart.Recipe.Reader

namespace RecipeChart

-- ============================================================== verdict

/-- What a check found: the graph, the problems of stitching, the
analysis, and the tree if there are no problems. -/
structure Verdict (α : Type) where
  graph : FlowGraph α
  stitching : List (Diagnostic α)
  analysis : Analysis α
  tree : Option (StepTree α)

variable {α : Type}

/-- All problems, those of stitching first. -/
def Verdict.diagnostics (v : Verdict α) : List (Diagnostic α) :=
  v.stitching ++ v.analysis.diagnostics

def Verdict.isOk (v : Verdict α) : Bool := v.diagnostics.isEmpty

/-- The tree, or the problems that stand in its way. -/
def Verdict.intoTree (v : Verdict α) : Except (List (Diagnostic α)) (StepTree α) :=
  match v.tree with
  | some tree => .ok tree
  | none => .error v.diagnostics

/-- The words in which a tree is refused. -/
def refusalText (problems : List (Diagnostic α)) : String :=
  s!"recipe has {problems.length} problem(s)"

-- ================================================================ check

/-- The verdict on a graph that was stitched with these problems. -/
def checkStitched (stitched : FlowGraph α × List (Diagnostic α)) : Except Fault (Verdict α) := do
  let (graph, stitching) := stitched
  let analysis ← graph.analyze stitching
  let tree ← analysis.order.mapM graph.assemble
  return ⟨graph, stitching, analysis, tree⟩

/-- The verdict on the fragments of a recipe. -/
def checkFragments [DecidableEq α] (fragments : List (Fragment α)) : Except Fault (Verdict α) :=
  checkStitched (FlowGraph.stitch fragments)

def Recipe.check [DecidableEq α] (recipe : Recipe α) : Except Fault (Verdict α) :=
  checkFragments recipe.fragments

end RecipeChart
