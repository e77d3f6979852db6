/-
Stitching the fragments of a recipe together at their joins. A fragment
is cut at its joins into runs of steps. A run has an owner, the group or
the join that it sets out from, and it becomes an edge from its owner to
what it arrives at.

A join is fed by what arrives at it and claimed by what sets out from it.
Only the first claim of a join may draw an edge from it; the runs of a
later claim are read and lead nowhere, but what they arrive at is fed all
the same. Claims and feeds are noted in the order of the source, and what
is wrong with them is found when all fragments are in.
-/
import RecipeChart.Diagnostic
import RecipeChart.FlowGraph

namespace RecipeChart

variable {α : Type} [DecidableEq α]

-- ============================================================== drafts

/-- A graph in the making, the problems met so far, and every claim and
feed of a join vertex with the span of its mention. -/
structure Draft (α : Type) where
  graph : FlowGraph α := .empty
  problems : List (Diagnostic α) := []
  claims : List (Int × Option Span) := []
  feeds : List (Int × Option Span) := []
  deriving Repr, DecidableEq

/-- A run that is being read: the vertex to draw its edge from, if it may
draw one, the owner, and the actions so far. -/
structure Run (α : Type) where
  source : Option Int
  owner : Start α
  actions : List (Action α) := []
  deriving Repr, DecidableEq

/-- The spans noted for the vertex. -/
def spansOf (v : Int) (noted : List (Int × Option Span)) : List (Option Span) :=
  (noted.filter (·.1 = v)).map (·.2)

namespace Draft

/-- The draft with one more problem. -/
def note (d : Draft α) (problem : Diagnostic α) : Draft α :=
  { d with problems := d.problems ++ [problem] }

/-- Sets out from the mentioned join. The run may draw its edge if this
is the first claim of the join. -/
def claim (d : Draft α) (ref : JoinRef α) : Run α × Draft α :=
  let (v, graph) := d.graph.joinVertex ref
  let source := if spansOf v d.claims = [] then some v else none
  (⟨source, .join ref, []⟩, { d with graph, claims := d.claims ++ [(v, ref.span)] })

/-- Draws the edge of the run to the vertex, if the run may draw it. -/
def draw (d : Draft α) (run : Run α) (target : Int) : Draft α :=
  match run.source with
  | none => d
  | some source =>
    { d with graph := d.graph.addEdge source target run.actions run.owner.span }

/-- Arrives at the mentioned join. -/
def feed (d : Draft α) (run : Run α) (ref : JoinRef α) : Draft α :=
  let (v, graph) := d.graph.joinVertex ref
  { d with graph, feeds := d.feeds ++ [(v, ref.span)] }.draw run v

-- =========================================================== fragments

/-- One element of a body: a step joins the run, a join ends it and owns
the next. -/
def pass : Run α × Draft α → Element α → Run α × Draft α
  | (run, d), .step s => ({ run with actions := run.actions ++ [s.action] }, d)
  | (run, d), .join ref => (d.feed run ref).claim ref

/-- The end of a fragment. A run that arrives nowhere dangles. -/
def arrive (run : Run α) (d : Draft α) : Option (Finish α) → Draft α
  | some (.done span) => { d with graph := d.graph.meetTerminal span }.draw run terminalId
  | some (.join ref) => d.feed run ref
  | none => d.note (.dangling run.owner run.actions run.owner.span)

/-- The body and the end of a fragment that has set out. -/
def follow (f : Fragment α) (setOut : Run α × Draft α) : Draft α :=
  let (run, d) := f.body.foldl pass setOut
  arrive run d f.finish

/-- Does the fragment neither reach a join nor finish? -/
def isOpen (f : Fragment α) : Bool := f.finish.isNone && f.body.all (!·.isJoin)

/-- Is the fragment nothing but its start? -/
def isBare (f : Fragment α) : Bool := f.finish.isNone && f.body.isEmpty

/-- Sets out from a start: from a new root, or from a join by claiming
it. -/
def setOut (d : Draft α) : Start α → Run α × Draft α
  | .group g =>
    let (v, graph) := d.graph.addRoot g
    (⟨some v, .group g, []⟩, { d with graph })
  | .join ref => d.claim ref

/-- One fragment. Ingredients that reach nothing are an orphan and draw
nothing; a bare join names the join without claiming it. -/
def add (d : Draft α) (f : Fragment α) : Draft α :=
  match f.start with
  | .group g => if isOpen f then d.note (.orphan g g.span) else follow f (d.setOut f.start)
  | .join _ => if isBare f then d else follow f (d.setOut f.start)

-- =============================================================== joins

/-- What is wrong with the claims and feeds of a join. -/
def joinProblems (name : α) (claims feeds : List (Option Span)) : List (Diagnostic α) :=
  (match claims, feeds with
    | [], span :: _ => [.missingContinuation name span]
    | span :: _, [] => [.unknownJoin name span]
    | _, _ => [])
  ++ (match claims with
    | _ :: span :: _ => [.duplicateContinuation name span]
    | _ => [])

/-- The problems of all joins, in the order of their making. -/
def checkJoins (d : Draft α) : List (Diagnostic α) :=
  d.graph.vertices.flatMap fun v =>
    match v.kind with
    | .join name => joinProblems name (spansOf v.id d.claims) (spansOf v.id d.feeds)
    | _ => []

end Draft

/-- The graph that was drawn, and what was wrong, the joins last. -/
def Draft.stitched (d : Draft α) : FlowGraph α × List (Diagnostic α) :=
  (d.graph, d.problems ++ d.checkJoins)

/-- The graph of the fragments, and what was wrong with them. -/
def FlowGraph.stitch (fragments : List (Fragment α)) : FlowGraph α × List (Diagnostic α) :=
  (fragments.foldl Draft.add {}).stitched

end RecipeChart
