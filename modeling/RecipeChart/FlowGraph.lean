/-
The flow graph of a recipe: who flows into whom. Its vertices are the
ingredient roots, the join points and one terminal, which stands for
`<>`; an edge is a run of steps from one vertex to the next. Vertices and
edges stand in tables and are addressed by number; vertex 0 is the
terminal. A join point has one vertex however often it is named.

A vertex is known by its place in the table, counted from zero. A look-up
also takes a number that counts back from the end; as the end of an arrow,
though, such a number is a node of its own.

The operations here put a graph together by hand and promise nothing
about its shape.
-/
import RecipeChart.Fault
import RecipeChart.Digraph
import RecipeChart.Recipe.Rename
import RecipeChart.Rows

namespace RecipeChart

-- ============================================================== tables

/-- What a vertex stands for. -/
inductive VertexKind (α : Type) where
  | terminal
  | join (name : α)
  | root (group : Group α)
  deriving Repr, DecidableEq

/-- A vertex, with the edges that enter it in the order in which they
were drawn and the edge that leaves it. -/
structure Vertex (α : Type) where
  id : Int
  kind : VertexKind α
  incoming : List Int := []
  outgoing : Option Int := none
  span : Option Span := none
  deriving Repr, DecidableEq

/-- A run of actions from one vertex to another. -/
structure Edge (α : Type) where
  id : Int
  source : Int
  target : Int
  actions : List (Action α) := []
  span : Option Span := none
  deriving Repr, DecidableEq

/-- The tables of vertices and edges, and the vertices of the joins in
the order of their making. -/
structure FlowGraph (α : Type) where
  vertices : List (Vertex α)
  edges : List (Edge α) := []
  joins : List (α × Int) := []
  deriving Repr, DecidableEq

variable {α : Type}

def VertexKind.word : VertexKind α → String
  | .terminal => "terminal"
  | .join _ => "join"
  | .root _ => "ingredient-root"

def VertexKind.isTerminal : VertexKind α → Bool
  | .terminal => true
  | _ => false

def VertexKind.name? : VertexKind α → Option α
  | .join name => some name
  | _ => none

def VertexKind.group? : VertexKind α → Option (Group α)
  | .root group => some group
  | _ => none

def terminalId : Int := 0

namespace FlowGraph

/-- The graph that has only the terminal. -/
def empty : FlowGraph α := { vertices := [{ id := terminalId, kind := .terminal }] }

-- ============================================================= look-up

/-- The vertex of this number. -/
def vertex (g : FlowGraph α) (v : Int) : Except Fault (Vertex α) :=
  match Rows.row? g.vertices v with
  | some vertex => .ok vertex
  | none => .error .outOfTable

def edge (g : FlowGraph α) (e : Int) : Except Fault (Edge α) :=
  match Rows.row? g.edges e with
  | some edge => .ok edge
  | none => .error .outOfTable

/-- Does the table hold a vertex of this number? -/
def holds (g : FlowGraph α) (v : Int) : Bool := (Rows.place? g.vertices.length v).isSome

/-- The edges that the vertex records as entering it. -/
def incomingEdges (g : FlowGraph α) (v : Int) : Except Fault (List (Edge α)) := do
  (← g.vertex v).incoming.mapM g.edge

/-- The edge that the vertex records as leaving it. -/
def outgoingEdge (g : FlowGraph α) (v : Int) : Except Fault (Option (Edge α)) := do
  (← g.vertex v).outgoing.mapM g.edge

/-- Where the edge that leaves the vertex leads. -/
def successor (g : FlowGraph α) (v : Int) : Except Fault (Option Int) := do
  return (← g.outgoingEdge v).map (·.target)

/-- How many edges the vertex records as entering it. -/
def indegree (g : FlowGraph α) (v : Int) : Except Fault Nat := do
  return (← g.vertex v).incoming.length

/-- The vertex of the join of this name. -/
def join? [DecidableEq α] (g : FlowGraph α) (name : α) : Option Int := g.joins.lookup name

/-- The ingredient roots, in the order of their making. -/
def roots (g : FlowGraph α) : List (Vertex α) :=
  g.vertices.filter fun v => v.kind.group?.isSome

def joinVertices (g : FlowGraph α) : List (Vertex α) :=
  g.vertices.filter fun v => v.kind.name?.isSome

-- ============================================================= drawing

/-- A new vertex at the end of the table. -/
def addVertex (g : FlowGraph α) (kind : VertexKind α) (span : Option Span) : FlowGraph α :=
  { g with vertices := g.vertices ++ [{ id := g.vertices.length, kind, span }] }

/-- A new root and its number. -/
def addRoot (g : FlowGraph α) (group : Group α) : Int × FlowGraph α :=
  (g.vertices.length, g.addVertex (.root group) group.span)

/-- The vertex of the join that is mentioned, which is made at its first
mention. -/
def joinVertex [DecidableEq α] (g : FlowGraph α) (ref : JoinRef α) : Int × FlowGraph α :=
  match g.join? ref.name with
  | some v => (v, g)
  | none =>
    let v : Int := g.vertices.length
    (v, { g.addVertex (.join ref.name) ref.span with joins := g.joins ++ [(ref.name, v)] })

/-- The graph with the vertex changed, if the table holds it. -/
def modify (g : FlowGraph α) (v : Int) (f : Vertex α → Vertex α) : FlowGraph α :=
  { g with vertices := Rows.modify g.vertices v f }

/-- A new edge in the table alone; no vertex learns of it. -/
def addBareEdge (g : FlowGraph α) (source target : Int) (actions : List (Action α))
    (span : Option Span) : FlowGraph α :=
  { g with edges := g.edges ++ [{ id := g.edges.length, source, target, actions, span }] }

/-- A new edge. Its source learns of it first, and its target only if
there is a source. -/
def addEdge (g : FlowGraph α) (source target : Int) (actions : List (Action α))
    (span : Option Span) : FlowGraph α :=
  let e : Int := g.edges.length
  let g := g.addBareEdge source target actions span
  if g.holds source then
    (g.modify source fun v => { v with outgoing := some e }).modify target
      fun v => { v with incoming := v.incoming ++ [e] }
  else g

/-- A new edge between vertices that may not exist. The edge stays even if
one of them does not, and the fault tells. -/
def drawEdge (g : FlowGraph α) (source target : Int) (actions : List (Action α))
    (span : Option Span) : Except Fault (Edge α) × FlowGraph α :=
  let known := g.holds source && g.holds target
  let e : Edge α := { id := g.edges.length, source, target, actions, span }
  (if known then .ok e else .error .outOfTable, g.addEdge source target actions span)

/-- Has the vertex record another outgoing edge. -/
def setOutgoing (g : FlowGraph α) (v : Int) (e : Option Int) : FlowGraph α :=
  g.modify v fun v => { v with outgoing := e }

def setIncoming (g : FlowGraph α) (v : Int) (edges : List Int) : FlowGraph α :=
  g.modify v fun v => { v with incoming := edges }

/-- Keeps the span at which the terminal is met first. -/
def meetTerminal (g : FlowGraph α) (span : Option Span) : FlowGraph α :=
  g.modify terminalId fun v => { v with span := v.span.or span }

-- ============================================================= arrows

/-- The graph as bare arrows. A vertex that only an edge knows of counts
as a node. -/
def digraph (g : FlowGraph α) : Digraph where
  nodes := (g.vertices.map (·.id) ++ g.edges.flatMap fun e => [e.source, e.target]).eraseDups
  arrows := g.edges.map fun e => (e.source, e.target)

/-- The nodes in rising order, each with its kind if the table holds
it. -/
def nodeList (g : FlowGraph α) : List (Int × Option (VertexKind α)) :=
  (g.digraph.nodes.mergeSort (· ≤ ·)).map fun v =>
    (v, (g.vertices.find? (·.id = v)).map (·.kind))

/-- Does the first pair of numbers come before the second, or is it the
same? -/
def pairLe (a b : Int × Int) : Bool := a.1 < b.1 || (a.1 = b.1 && a.2 ≤ b.2)

/-- The edges in rising order of their ends. Of edges side by side only
the last one is listed. -/
def edgeList (g : FlowGraph α) : List (Edge α) :=
  (g.digraph.arrows.eraseDups.mergeSort pairLe).filterMap fun a =>
    (g.edges.filter fun e => (e.source, e.target) = a).getLast?

end FlowGraph

end RecipeChart
