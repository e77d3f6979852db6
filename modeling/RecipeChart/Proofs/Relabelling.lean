/-
Spans and the names of joins carry no meaning. The analysis, the build
order and the assembly read numbers, groups and actions, so on a graph that
is relabelled they give what they give on the graph, relabelled in turn;
for these it does not even matter whether names stay different. With the
stitching, which needs that, a whole check commutes with a relabelling.

Rules that agree up to their spans and up to such a renaming are relabelled
to the same rules, one list by the renaming and the other one by keeping
all names. So their verdicts are relabelled to the same verdict. A tree has
neither spans nor joins.
-/
import RecipeChart.Proofs.FlowGraph.Relabelling
import RecipeChart.Proofs.Verdict

namespace RecipeChart

open FlowGraph

variable {α : Type} {σ : α → α} {g : FlowGraph α}

-- ============================================================= verdicts

def Analysis.relabel (σ : α → α) (a : Analysis α) : Analysis α :=
  ⟨a.diagnostics.map (Diagnostic.relabel σ), a.order⟩

def Verdict.relabel (σ : α → α) (v : Verdict α) : Verdict α :=
  ⟨v.graph.relabel σ, v.stitching.map (Diagnostic.relabel σ), v.analysis.relabel σ, v.tree⟩

namespace FlowGraph

-- ============================================================== look-up

/-- A number leads to the same vertex, relabelled. -/
theorem vertex_relabel (v : Int) :
    (g.relabel σ).vertex v = Vertex.relabel σ <$> g.vertex v := by
  rw [vertex, vertex, relabel, Rows.row?_map]
  cases Rows.row? g.vertices v <;> rfl

/-- A number leads to the same edge, without its span. -/
theorem edge_relabel (e : Int) : (g.relabel σ).edge e = Edge.unplaced <$> g.edge e := by
  rw [edge, edge, relabel, Rows.row?_map]
  cases Rows.row? g.edges e <;> rfl

/-- The arrows have neither names nor spans. -/
theorem digraph_relabel : (g.relabel σ).digraph = g.digraph := by
  simp only [digraph, relabel, List.map_map, List.flatMap_map, Function.comp_def, Vertex.relabel,
    Edge.unplaced]

/-- A vertex is named by the other name. -/
theorem VertexKind.name?_relabel (kind : VertexKind α) :
    (kind.relabel σ).name? = kind.name?.map σ := by
  cases kind <;> rfl

/-- A root keeps its ingredients. -/
theorem VertexKind.group?_relabel (kind : VertexKind α) :
    (kind.relabel σ).group? = kind.group?.map Group.unplaced := by
  cases kind <;> rfl

-- =============================================================== loops

/-- The search for loops sets out from the same numbers. -/
theorem starts_relabel :
    ((g.relabel σ).roots ++ (g.relabel σ).joinVertices).map (·.id)
      = (g.roots ++ g.joinVertices).map (·.id) := by
  have hroot : ∀ v : Vertex α, (v.relabel σ).kind.group?.isSome = v.kind.group?.isSome := by
    intro v
    rw [Vertex.relabel, VertexKind.group?_relabel, Option.isSome_map]
  have hjoin : ∀ v : Vertex α, (v.relabel σ).kind.name?.isSome = v.kind.name?.isSome := by
    intro v
    rw [Vertex.relabel, VertexKind.name?_relabel, Option.isSome_map]
  simp only [roots, joinVertices, relabel, List.filter_map, List.map_append, List.map_map,
    Function.comp_def, hroot, hjoin]
  rfl

/-- A loop is told by the other names. -/
theorem cycleAt_relabel (first : Int) (around : List Int) :
    (g.relabel σ).cycleAt first around = Diagnostic.relabel σ <$> g.cycleAt first around := by
  have hnames : around.mapM (fun v => (return (← (g.relabel σ).vertex v).kind.name? :
        Except Fault (Option α)))
      = List.map (Option.map σ)
        <$> around.mapM fun v => (return (← g.vertex v).kind.name? : Except Fault (Option α)) := by
    refine mapM_eq_map_mapM (fun v => ?_) around
    simp only [vertex_relabel, bind_map_left, map_bind, map_pure, Vertex.relabel,
      VertexKind.name?_relabel]
  rw [cycleAt, cycleAt, vertex_relabel, hnames]
  simp only [bind_map_left, map_bind, map_pure, Vertex.relabel, VertexKind.name?_relabel,
    Diagnostic.relabel, List.map_append, List.map_cons, List.map_nil]

/-- The same loops are found, in the same order. -/
theorem cycles_relabel :
    (g.relabel σ).cycles = List.map (Diagnostic.relabel σ) <$> g.cycles := by
  rw [cycles, cycles, starts_relabel, digraph_relabel]
  refine filterMapM_eq_map_filterMapM (fun loop => ?_) _
  cases loop with
  | nil => rfl
  | cons v around => simp only [cycleAt_relabel, Functor.map_map, Option.map_some]

-- ============================================================ agreement

/-- The check of a vertex reads numbers alone. -/
theorem checkVertex_relabel (v : Vertex α) :
    (g.relabel σ).checkVertex (v.relabel σ) = g.checkVertex v := by
  obtain ⟨id, kind, incoming, outgoing, span⟩ := v
  have hcount : ((g.relabel σ).edges.filter (·.source = id)).length
      = (g.edges.filter (·.source = id)).length := by
    simp only [relabel, List.filter_map, List.length_map]
    rfl
  have hterminal : (kind.relabel σ).isTerminal = kind.isTerminal := by
    cases kind <;> rfl
  show (g.relabel σ).checkVertex ⟨id, kind.relabel σ, incoming, outgoing, none⟩ = _
  unfold checkVertex
  simp only [hcount, hterminal, VertexKind.group?_relabel, Option.isSome_map, edge_relabel,
    bind_map_left, Edge.unplaced]

/-- So does the check of all of them. -/
theorem checkOutgoing_relabel : (g.relabel σ).checkOutgoing = g.checkOutgoing := by
  rw [checkOutgoing, checkOutgoing]
  show (g.vertices.map (Vertex.relabel σ)).forM _ = _
  generalize g.vertices = vertices
  induction vertices with
  | nil => rfl
  | cons v vertices ih =>
      show ((g.relabel σ).checkVertex (v.relabel σ) >>= fun _ => _) = g.checkVertex v >>= fun _ => _
      rw [checkVertex_relabel, ih]

-- ============================================================= arriving

/-- The same roots reach no end. -/
theorem disconnected_relabel :
    (g.relabel σ).disconnected = g.disconnected.map (Diagnostic.relabel σ) := by
  rw [disconnected, disconnected, digraph_relabel, List.map_filterMap]
  show List.filterMap _ (g.vertices.map (Vertex.relabel σ)) = _
  rw [List.filterMap_map]
  refine List.filterMap_congr fun v _ => ?_
  obtain ⟨id, kind, incoming, outgoing, span⟩ := v
  cases kind with
  | terminal => rfl
  | join name => rfl
  | root group =>
      show (if id ∈ g.digraph.reachBack terminalId then none
          else some (Diagnostic.disconnected group.unplaced none))
        = Option.map _ (if id ∈ g.digraph.reachBack terminalId then none
          else some (Diagnostic.disconnected group span))
      split <;> rfl

/-- A graph is empty under any names. -/
theorem emptiness_relabel :
    (g.relabel σ).emptiness = List.map (Diagnostic.relabel σ) <$> g.emptiness := by
  simp only [emptiness, indegree, vertex_relabel, bind_map_left, map_bind, map_pure, bind_assoc,
    pure_bind, Vertex.relabel]
  refine bind_congr fun v => ?_
  split <;> rfl

/-- The analysis may be relabelled before or after, and its order is the
same. -/
theorem analyze_relabel (earlier : List (Diagnostic α)) :
    (g.relabel σ).analyze (earlier.map (Diagnostic.relabel σ))
      = Analysis.relabel σ <$> g.analyze earlier := by
  simp only [analyze, cycles_relabel, checkOutgoing_relabel, disconnected_relabel,
    emptiness_relabel, digraph_relabel, bind_map_left, map_bind]
  refine bind_congr fun cycles => bind_congr fun _ => bind_congr fun empty => ?_
  rw [← List.map_append, ← List.map_append, List.isEmpty_map, List.isEmpty_map]
  split
  · split
    · rfl
    · split <;> rfl
  · rfl

-- ============================================================= assembly

/-- Flows are collected by the numbers and the actions of edges. -/
theorem collect_unplaced (w : Waiting α) (edges : List (Edge α)) :
    w.collect (edges.map Edge.unplaced) = w.collect edges := by
  induction edges generalizing w with
  | nil => rfl
  | cons e edges ih => simp only [List.map_cons, Waiting.collect, Edge.unplaced, ih]

/-- The same edges enter a vertex. -/
theorem incomingEdges_relabel (v : Int) :
    (g.relabel σ).incomingEdges v = List.map Edge.unplaced <$> g.incomingEdges v := by
  have hedges : ∀ incoming : List Int, incoming.mapM (g.relabel σ).edge
      = List.map Edge.unplaced <$> incoming.mapM g.edge := mapM_eq_map_mapM edge_relabel
  simp only [incomingEdges, vertex_relabel, bind_map_left, map_bind, Vertex.relabel, hedges]

/-- The assembly goes the same way on both graphs. -/
theorem visit_relabel (w : Waiting α) (v : Int) : (g.relabel σ).visit w v = g.visit w v := by
  simp only [visit, vertex_relabel, incomingEdges_relabel, bind_map_left, Vertex.relabel,
    collect_unplaced]
  refine bind_congr fun vertex => ?_
  cases vertex.kind <;> rfl

/-- The assembly gives the same tree. -/
theorem assemble_relabel (order : List Int) : (g.relabel σ).assemble order = g.assemble order := by
  have hvisit : (g.relabel σ).visit = g.visit := by
    funext w v
    exact visit_relabel w v
  rw [assemble, assemble, hvisit]

end FlowGraph

-- =============================================================== checks

/-- What follows the stitching may be relabelled before or after. -/
theorem checkStitched_relabel (problems : List (Diagnostic α)) :
    checkStitched (g.relabel σ, problems.map (Diagnostic.relabel σ))
      = Verdict.relabel σ <$> checkStitched (g, problems) := by
  have hassemble : (g.relabel σ).assemble = g.assemble := funext assemble_relabel
  simp only [checkStitched, analyze_relabel, bind_map_left, map_bind, map_pure, hassemble]
  rfl

section Check

variable [DecidableEq α] {fs fs' : List (Fragment α)}

/-- A check commutes with a relabelling under which the joins that are
mentioned keep different names. -/
theorem checkFragments_relabel
    (hσ : Set.InjOn σ {name | ∃ f ∈ fs, ∃ ref ∈ f.mentions, ref.name = name}) :
    checkFragments (fs.map (Fragment.relabel σ)) = Verdict.relabel σ <$> checkFragments fs := by
  rw [checkFragments, stitch_relabel fs hσ, checkStitched_relabel]
  rfl

/-- Rules that agree up to their spans and up to a renaming of their joins,
in which no two joins become one. Their graphs and the problems of the
stitching agree up to spans and the renaming. If no group is empty, both
have a verdict; the findings of the analysis agree, one by one, up to spans
and the renaming, and the order and the tree are the same. -/
theorem verdicts_of_relabel
    (hσ : Set.InjOn σ {name | ∃ f ∈ fs, ∃ ref ∈ f.mentions, ref.name = name})
    (hsame : fs'.map Fragment.unplaced = fs.map (Fragment.relabel σ))
    (hgroups : ∀ f ∈ fs, ∀ group, f.start = .group group → group.ingredients ≠ []) :
    (stitch fs').1.unplaced = (stitch fs).1.relabel σ
      ∧ (stitch fs').2.map Diagnostic.unplaced = (stitch fs).2.map (Diagnostic.relabel σ)
      ∧ ∃ v v', checkFragments fs = .ok v ∧ checkFragments fs' = .ok v'
        ∧ v'.analysis.diagnostics.map Diagnostic.unplaced
          = v.analysis.diagnostics.map (Diagnostic.relabel σ)
        ∧ v'.analysis.order = v.analysis.order
        ∧ v'.tree = v.tree := by
  have hid : ∀ S : Set α, Set.InjOn id S := fun S => Set.injOn_id S
  have hstitch : ((stitch fs').1.relabel id, (stitch fs').2.map (Diagnostic.relabel id))
      = ((stitch fs).1.relabel σ, (stitch fs).2.map (Diagnostic.relabel σ)) := by
    rw [← stitch_relabel fs' (hid _), ← stitch_relabel fs hσ, Fragment.relabel_id, hsame]
  have hcheck :
      Verdict.relabel id <$> checkFragments fs' = Verdict.relabel σ <$> checkFragments fs := by
    rw [← checkFragments_relabel (hid _), ← checkFragments_relabel hσ, Fragment.relabel_id, hsame]
  obtain ⟨hgraph, hproblems⟩ := Prod.mk.inj hstitch
  rw [Diagnostic.relabel_id] at hproblems
  obtain ⟨v, hv, -⟩ := exists_verdict hgroups
  rw [hv] at hcheck
  obtain ⟨v', hv', hverdict⟩ := map_eq_ok_iff.1 hcheck
  injection hverdict with _ _ hanalysis htree
  injection hanalysis with hfindings horder
  rw [Diagnostic.relabel_id] at hfindings
  exact ⟨hgraph, hproblems, v, v', hv, hv', hfindings, horder, htree⟩

end Check

/-- The pancakes, with the names of their two joins exchanged, as if they
had been written on one line. -/
def exchangedPancakes : List (Fragment String) :=
  [⟨.group ⟨[⟨"egg", some "2"⟩], some ⟨1, 1⟩⟩, [.step ⟨⟨"beat", []⟩, some ⟨1, 8⟩⟩],
      some (.join ⟨"batter", some ⟨1, 16⟩⟩)⟩,
    ⟨.group ⟨[⟨"flour", none⟩, ⟨"milk", none⟩], some ⟨1, 24⟩⟩, [.step ⟨⟨"stir", []⟩, none⟩],
      some (.join ⟨"batter", some ⟨1, 48⟩⟩)⟩,
    ⟨.join ⟨"batter", some ⟨1, 56⟩⟩, [.step ⟨⟨"mix", [⟨"salt", none⟩]⟩, none⟩,
      .join ⟨"bowl", some ⟨1, 80⟩⟩, .step ⟨⟨"fry", []⟩, none⟩], some (.done (some ⟨1, 96⟩))⟩]

/-- The exchanged pancakes have the order and the tree of the pancakes. -/
theorem verdicts_of_relabel_pancakes :
    (∀ f ∈ pancakes, ∀ group, f.start = .group group → group.ingredients ≠ [])
      ∧ exchangedPancakes.map Fragment.unplaced
        = pancakes.map (Fragment.relabel (Equiv.swap "bowl" "batter"))
      ∧ ∃ v v', checkFragments pancakes = .ok v ∧ checkFragments exchangedPancakes = .ok v'
        ∧ v.diagnostics = [] ∧ v'.analysis.order = v.analysis.order ∧ v'.tree = v.tree := by
  have hgroups : ∀ f ∈ pancakes, ∀ group, f.start = .group group → group.ingredients ≠ [] := by
    simp [pancakes]
  have hsame : exchangedPancakes.map Fragment.unplaced
      = pancakes.map (Fragment.relabel (Equiv.swap "bowl" "batter")) := by
    decide
  have hinj : Set.InjOn (Equiv.swap "bowl" "batter")
      {name | ∃ f ∈ pancakes, ∃ ref ∈ f.mentions, ref.name = name} :=
    (Equiv.swap "bowl" "batter").injective.injOn
  obtain ⟨-, -, v, v', hv, hv', -, horder, htree⟩ := verdicts_of_relabel hinj hsame hgroups
  obtain ⟨w, hw, hclean⟩ := map_eq_ok_iff.1 diagnostics_pancakes
  cases hv.symm.trans hw
  exact ⟨hgroups, hsame, v, v', hv, hv', hclean, horder, htree⟩

end RecipeChart
