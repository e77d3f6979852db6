/-
What a build order promises, whoever put the graph together. Nothing is
assumed of the graph but that its vertices bear the numbers of their places
and that its edges lead between them: what vertices record of edges may be
wrong, several edges may leave a vertex, any vertex may be of any kind.

An order is given when the tables agree, nothing is found and the test for
a tree is passed. That the tables agree on the ways on means that every
vertex is left by one edge at most, whatever it records of what comes in.
Then the test leaves one root only, and as the order has to end at the
terminal, which no edge leaves, the terminal is the root.
-/
import RecipeChart.Proofs.FlowGraph.Analysing

namespace RecipeChart

open Relation RecipeChart.Digraph

variable {α : Type}

namespace FlowGraph

variable {g : FlowGraph α}

/-- Vertices bear the numbers of their places, and edges lead between
them. -/
structure Placed (g : FlowGraph α) : Prop where
  numbered : g.vertices.map (·.id) = numbers g.vertices.length
  ends : ∀ e ∈ g.edges, e.source ∈ g.vertices.map (·.id) ∧ e.target ∈ g.vertices.map (·.id)

/-- The edges are one tree that runs into the terminal. Each other vertex
is left by one edge, all ways lead to the terminal, and none leads around
in a circle. -/
structure IsTree (g : FlowGraph α) : Prop where
  root : ∃ v ∈ g.vertices, v.id = terminalId
  single : ∀ v ∈ g.vertices, v.id ≠ terminalId → (g.edges.filter (·.source = v.id)).length = 1
  stops : ∀ e ∈ g.edges, e.source ≠ terminalId
  leads : ∀ v ∈ g.vertices, ReflTransGen g.digraph.Arrow v.id terminalId
  noLoop : ∀ i, ¬ TransGen g.digraph.Arrow i i

namespace Placed

theorem nodup_ids (hg : g.Placed) : (g.vertices.map (·.id)).Nodup := by
  rw [hg.numbered]
  exact nodup_numbers _

theorem nodes_eq (hg : g.Placed) : g.digraph.nodes = g.vertices.map (·.id) :=
  nodes_eq_ids hg.nodup_ids hg.ends

theorem mem_nodes (hg : g.Placed) {v : Vertex α} (hv : v ∈ g.vertices) :
    v.id ∈ g.digraph.nodes := by
  rw [hg.nodes_eq]
  exact List.mem_map_of_mem hv

theorem nodup_nodes (hg : g.Placed) : g.digraph.nodes.Nodup := by
  rw [hg.nodes_eq]
  exact hg.nodup_ids

theorem mem_of_arrow (hg : g.Placed) {i j : Int} (hij : g.digraph.Arrow i j) :
    i ∈ g.digraph.nodes ∧ j ∈ g.digraph.nodes := by
  obtain ⟨e, he, rfl, rfl⟩ := arrow_iff.1 hij
  rw [hg.nodes_eq]
  exact hg.ends e he

end Placed

-- ============================================================== checks

/-- A vertex on which the tables agree is left by one edge at most. -/
theorem length_le_of_checkVertex {v : Vertex α} (h : g.checkVertex v = .ok ()) :
    (g.edges.filter (·.source = v.id)).length ≤ 1 := by
  by_contra hmany
  unfold checkVertex at h
  by_cases hterminal : v.kind.isTerminal = true ∧ (g.edges.filter (·.source = v.id)).length ≠ 0
  · rw [if_pos hterminal] at h
    cases h
  · rw [if_neg hterminal, if_pos (by omega)] at h
    cases h

/-- Where the tables agree, every node has one way on at most. -/
theorem Placed.single_of_checkOutgoing (hg : g.Placed) (h : g.checkOutgoing = .ok ()) :
    g.digraph.Single := by
  rw [Single, digraph, List.map_map]
  apply nodup_sources
  · exact fun e he => (hg.ends e he).1
  · exact fun v hv => length_le_of_checkVertex (forM_eq_ok_iff.1 h v hv)

/-- What was checked when there is an order. -/
theorem checked_of_order {earlier : List (Diagnostic α)} {a : Analysis α} {order : List Int}
    (h : g.analyze earlier = .ok a) (horder : a.order = some order) :
    g.checkOutgoing = .ok () ∧ g.digraph.isInTree = true ∧ order = g.digraph.order
      ∧ order.getLast? = some terminalId := by
  obtain ⟨loops, -, h⟩ := bind_eq_ok_iff.1 h
  obtain ⟨⟨⟩, hcheck, h⟩ := bind_eq_ok_iff.1 h
  obtain ⟨empty, -, h⟩ := bind_eq_ok_iff.1 h
  dsimp only at h
  split at h
  · split at h
    · cases h
    · rename_i htree
      split at h
      · cases h
      · rename_i hlast
        cases h
        cases horder
        exact ⟨hcheck, not_not.1 htree, rfl, not_not.1 hlast⟩
  · cases h
    cases horder

-- =============================================================== trees

/-- A tree of arrows that runs into the terminal is a tree of edges. -/
theorem Placed.isTree (hg : g.Placed) (hterminal : terminalId ∈ g.digraph.nodes)
    (htree : g.digraph.InTree terminalId) : g.IsTree := by
  constructor
  · rw [hg.nodes_eq] at hterminal
    exact List.mem_map.1 hterminal
  · intro v hv hne
    obtain ⟨j, hj⟩ : ∃ j, g.digraph.Arrow v.id j := by
      by_contra hnone
      exact hne (htree.eq_root (hg.mem_nodes hv) fun j hj => hnone ⟨j, hj⟩)
    obtain ⟨e, he, hsource, -⟩ := arrow_iff.1 hj
    have hmem : e ∈ g.edges.filter (·.source = v.id) :=
      List.mem_filter.2 ⟨he, decide_eq_true hsource⟩
    have hpos := List.length_pos_of_mem hmem
    have hsingle := htree.single
    rw [Single, digraph, List.map_map] at hsingle
    have hle : (g.edges.filter (·.source = v.id)).length ≤ 1 := nodup_map_iff.1 hsingle v.id
    omega
  · intro e he hsource
    exact htree.stops e.target (arrow_iff.2 ⟨e, he, hsource, rfl⟩)
  · exact fun v hv => htree.leads v.id (hg.mem_nodes hv)
  · intro i hloop
    obtain ⟨j, hij, -⟩ := TransGen.head'_iff.1 hloop
    exact (htree.ends (hg.mem_of_arrow hij).1).not_loop htree.single hloop

/-- Where an order is given, the order has all vertices, edges lead
forward, and the arrows are a tree that runs into the terminal. -/
theorem Placed.inTree_of_checked (hg : g.Placed) (hcheck : g.checkOutgoing = .ok ())
    (htree : g.digraph.isInTree = true) (hlast : g.digraph.order.getLast? = some terminalId) :
    g.digraph.InTree terminalId ∧ g.digraph.order.Perm g.digraph.nodes
      ∧ Forward g.digraph.arrows g.digraph.order := by
  have hsingle := hg.single_of_checkOutgoing hcheck
  obtain ⟨root, hroot⟩ := hsingle.exists_inTree hg.nodup_nodes htree
  obtain ⟨hperm, hforward⟩ := Digraph.order_spec hsingle
    (fun a ha => hroot.ends (hg.mem_of_arrow (i := a.1) (j := a.2) ha).1)
    (fun a ha => (hg.mem_of_arrow (i := a.1) (j := a.2) ha).1)
  -- the last vertex is left by no edge, and only the root is not
  have hstops := hforward.last_stops (hperm.nodup_iff.2 hg.nodup_nodes)
    (fun a ha => hperm.mem_iff.2 (hg.mem_of_arrow (i := a.1) (j := a.2) ha).2) hlast
  have hterminal := hperm.mem_iff.1 (List.mem_of_getLast? hlast)
  rw [hroot.eq_root hterminal hstops]
  exact ⟨hroot, hperm, hforward⟩

/-- If an analysis gives a build order, whatever graph it is of, the edges
are one tree that runs into the terminal. The order has every vertex once,
each edge leads forward in it, and the terminal comes last. Compared from
the front, it is the smallest of all such orders. -/
theorem analyze_order (hg : g.Placed) {earlier : List (Diagnostic α)} {a : Analysis α}
    {order : List Int} (h : g.analyze earlier = .ok a) (horder : a.order = some order) :
    g.IsTree ∧ order.Perm (g.vertices.map (·.id)) ∧ Forward g.digraph.arrows order
      ∧ order.getLast? = some terminalId
      ∧ ∀ other : List Int, other.Perm (g.vertices.map (·.id)) → Forward g.digraph.arrows other →
        order = other ∨ List.Lex (· < ·) order other := by
  obtain ⟨hcheck, htree, rfl, hlast⟩ := checked_of_order h horder
  obtain ⟨hinTree, hperm, hforward⟩ := hg.inTree_of_checked hcheck htree hlast
  have hterminal := hperm.mem_iff.1 (List.mem_of_getLast? hlast)
  refine ⟨hg.isTree hterminal hinTree, ?_, hforward, hlast, fun other hother hforward' => ?_⟩
  · rwa [← hg.nodes_eq]
  · rw [← hg.nodes_eq] at hother
    exact order_smallest hother hforward'

/-- A graph put together by hand: an egg and a flour root behind the bowl
that they meet in, and a terminal that records an edge which is not there
as coming in. -/
def handmade : FlowGraph String where
  vertices :=
    [{ id := 0, kind := .terminal, incoming := [7] },
      { id := 1, kind := .join "bowl", outgoing := some 2 },
      { id := 2, kind := .root ⟨[⟨"egg", none⟩], none⟩, outgoing := some 0 },
      { id := 3, kind := .root ⟨[⟨"flour", none⟩], none⟩, outgoing := some 1 }]
  edges := [{ id := 0, source := 2, target := 1 }, { id := 1, source := 3, target := 1 },
    { id := 2, source := 1, target := 0 }]

/-- The egg comes before the flour, as it might as well come after. -/
theorem analyze_order_handmade :
    handmade.Placed ∧ handmade.analyze [] = .ok { order := some [2, 3, 1, 0] }
      ∧ handmade.IsTree
      ∧ Forward handmade.digraph.arrows [3, 2, 1, 0]
      ∧ List.Lex (· < ·) ([2, 3, 1, 0] : List Int) [3, 2, 1, 0] := by
  have hplaced : handmade.Placed := ⟨rfl, by decide⟩
  have hcycles : handmade.cycles = .ok [] := by decide +kernel
  have hcheck : handmade.checkOutgoing = .ok () := by decide +kernel
  have hdisconnected : handmade.disconnected = [] := by decide +kernel
  have hemptiness : handmade.emptiness = .ok [] := by decide +kernel
  have hinTree : handmade.digraph.isInTree = true := by decide +kernel
  have horder : handmade.digraph.order = [2, 3, 1, 0] := by cbv
  have hanalysis : handmade.analyze [] = .ok { order := some [2, 3, 1, 0] } := by
    rw [analyze, hcycles, hcheck, hdisconnected, hemptiness, hinTree, horder]
    rfl
  obtain ⟨htree, -, -, -, hsmallest⟩ := analyze_order hplaced hanalysis rfl
  have hforward : Forward handmade.digraph.arrows [3, 2, 1, 0] :=
    forward_of_idxOf_lt (by decide)
  rcases hsmallest [3, 2, 1, 0] (by decide) hforward with heq | hless
  · cases heq
  · exact ⟨hplaced, hanalysis, htree, hforward, hless⟩

end FlowGraph

end RecipeChart
