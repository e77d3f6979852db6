/-
What the analysis finds in a graph whose tables agree. Every vertex has
one way on at most, so the loops are found exactly where a way does not
come to an end; no table disagrees; and if every vertex but the terminal
has its way on, a way that comes to an end comes to the terminal. Then the
graph is one tree, and there is a build order.
-/
import RecipeChart.FlowGraph.Analysis
import RecipeChart.Proofs.Digraph.Order
import RecipeChart.Proofs.FlowGraph.WellFormed
import RecipeChart.Proofs.Traversal

namespace RecipeChart

open Relation RecipeChart.Digraph

variable {α : Type}

/-- Does the finding tell of the loop? The loop is cut open somewhere, and
the name that stands there comes first and again at the end. -/
inductive Diagnostic.GoesRound : Diagnostic α → Cycle (Option α) → Prop where
  | cycle (name : Option α) (around : List (Option α)) (span : Option Span) :
      GoesRound (.cycle name (name :: around ++ [name]) span) ↑(name :: around)

namespace FlowGraph

variable {g : FlowGraph α} {i j : Int}

-- =============================================================== arrows

/-- The arrows are the edges, less their actions. -/
theorem arrow_iff : g.digraph.Arrow i j ↔ ∃ e ∈ g.edges, e.source = i ∧ e.target = j := by
  rw [Arrow, digraph, List.mem_map]
  simp only [Prod.mk.injEq]

/-- Every vertex has one way on at most. -/
theorem WellFormed.single_digraph (h : g.WellFormed) : g.digraph.Single := by
  rw [Single, digraph, List.map_map]
  exact h.single

/-- An arrow leads from no terminal and into no root. -/
theorem WellFormed.has_of_arrow (h : g.WellFormed) (hij : g.digraph.Arrow i j) :
    (∃ kind, g.Has i kind ∧ kind ≠ .terminal) ∧ ∃ kind, g.Has j kind ∧ kind.group? = none := by
  obtain ⟨e, he, rfl, rfl⟩ := arrow_iff.1 hij
  exact ⟨h.sources e he, h.targets e he⟩

/-- A way from a vertex of the table leads to one of them. -/
theorem WellFormed.exists_has_of_path (h : g.WellFormed) {kind : VertexKind α} (hi : g.Has i kind)
    (hpath : ReflTransGen g.digraph.Arrow i j) : ∃ kind, g.Has j kind := by
  rcases hpath.cases_tail with rfl | ⟨x, -, hx⟩
  · exact ⟨kind, hi⟩
  · obtain ⟨-, kind, hkind, -⟩ := h.has_of_arrow hx
    exact ⟨kind, hkind⟩

/-- No arrow leaves the terminal. -/
theorem WellFormed.not_arrow_terminal (h : g.WellFormed) : ¬ g.digraph.Arrow terminalId j := by
  intro harrow
  obtain ⟨⟨kind, hkind, hne⟩, -⟩ := h.has_of_arrow harrow
  exact hne (h.labelled.unique hkind h.labelled.has_terminal)

/-- Does every vertex but the terminal have a way on? -/
def Complete (g : FlowGraph α) : Prop :=
  ∀ i kind, g.Has i kind → kind ≠ .terminal → ∃ j, g.digraph.Arrow i j

/-- Where every vertex has a way on, a way ends at the terminal or
nowhere. -/
theorem WellFormed.ends_iff (h : g.WellFormed) (hg : g.Complete) {kind : VertexKind α}
    (hi : g.Has i kind) : g.digraph.Ends i ↔ ReflTransGen g.digraph.Arrow i terminalId := by
  constructor
  · intro ⟨e, hpath, hend⟩
    obtain ⟨kind', he⟩ := h.exists_has_of_path hi hpath
    by_cases hkind : kind' = .terminal
    · subst hkind
      rwa [← h.labelled.has_terminal_iff.1 he]
    · obtain ⟨j, hj⟩ := hg e kind' he hkind
      exact absurd hj (hend j)
  · intro hpath
    exact ⟨terminalId, hpath, fun _ => h.not_arrow_terminal⟩

-- =============================================================== loops

/-- The name of the join that has the vertex. -/
def nameAt (g : FlowGraph α) (i : Int) : Option α := (g.labels.lookup i).bind VertexKind.name?

/-- The name at a vertex is that of its kind. -/
theorem Labelled.nameAt_eq (h : g.Labelled) {kind : VertexKind α} (hi : g.Has i kind) :
    g.nameAt i = kind.name? := by
  rw [nameAt, (lookup_iff_mem h.nodup).2 hi]
  rfl

/-- The finding on a loop of vertices of the table. -/
theorem WellFormed.cycleAt_eq (h : g.WellFormed) {around : List Int}
    (hall : ∀ x ∈ i :: around, ∃ kind, g.Has x kind) :
    ∃ span, g.cycleAt i (i :: around)
      = .ok (.cycle (g.nameAt i) ((i :: around).map g.nameAt ++ [g.nameAt i]) span) := by
  have hvertex : ∀ x ∈ i :: around, ∃ v, g.vertex x = .ok v ∧ v.kind.name? = g.nameAt x := by
    intro x hx
    obtain ⟨kind, hkind⟩ := hall x hx
    obtain ⟨v, hv, rfl, rfl⟩ := exists_vertex hkind
    exact ⟨v, h.labelled.vertex_eq hv, (h.labelled.nameAt_eq hkind).symm⟩
  obtain ⟨v, hv, hname⟩ := hvertex i List.mem_cons_self
  have hnames : (i :: around).mapM
      (fun x => (return (← g.vertex x).kind.name? : Except Fault (Option α)))
        = .ok ((i :: around).map g.nameAt) := by
    rw [mapM_eq_ok_iff, List.forall₂_map_right_iff, List.forall₂_same]
    intro x hx
    obtain ⟨w, hw, hname⟩ := hvertex x hx
    rw [hw, ← hname]
    rfl
  refine ⟨v.span, bind_eq_ok_iff.2 ⟨v, hv, bind_eq_ok_iff.2 ⟨_, hnames, ?_⟩⟩⟩
  rw [hname]
  rfl

/-- The roots are the vertices that hold ingredients. -/
theorem mem_roots_iff {v : Vertex α} :
    v ∈ g.roots ↔ v ∈ g.vertices ∧ ∃ group, v.kind = .root group := by
  rw [roots, List.mem_filter]
  refine and_congr_right fun _ => ?_
  cases v.kind <;> simp [VertexKind.group?]

/-- Where the search for loops sets out: from the roots and the joins. -/
abbrev starts (g : FlowGraph α) : List Int := (g.roots ++ g.joinVertices).map (·.id)

/-- The search for loops sets out from every vertex but the terminal. -/
theorem mem_starts_iff {i : Int} :
    i ∈ g.starts ↔ ∃ kind, g.Has i kind ∧ kind ≠ .terminal := by
  rw [starts, List.mem_map]
  constructor
  · intro ⟨v, hv, hid⟩
    rcases List.mem_append.1 hv with hv | hv
    · rw [roots, List.mem_filter] at hv
      refine ⟨v.kind, hid ▸ has_of_mem hv.1, fun hkind => ?_⟩
      rw [hkind] at hv
      cases hv.2
    · rw [joinVertices, List.mem_filter] at hv
      refine ⟨v.kind, hid ▸ has_of_mem hv.1, fun hkind => ?_⟩
      rw [hkind] at hv
      cases hv.2
  · intro ⟨kind, hkind, hne⟩
    obtain ⟨v, hv, hid, rfl⟩ := exists_vertex hkind
    refine ⟨v, ?_, hid⟩
    cases hv' : v.kind with
    | terminal => exact absurd hv' hne
    | root group =>
        refine List.mem_append_left _ (List.mem_filter.2 ⟨hv, ?_⟩)
        rw [hv']
        rfl
    | join name =>
        refine List.mem_append_right _ (List.mem_filter.2 ⟨hv, ?_⟩)
        rw [hv']
        rfl

/-- The names along the loops that the search reports. -/
def loopNames (g : FlowGraph α) : List (Cycle (Option α)) :=
  (g.digraph.reports g.starts []).map (Cycle.map g.nameAt)

/-- There is a finding for each loop that the search reports. -/
theorem WellFormed.cycles_eq (h : g.WellFormed) :
    ∃ found, g.cycles = .ok found
      ∧ List.Forall₂ (fun (loop : List Int) finding => g.digraph.IsRound loop
        ∧ ∃ i around span, loop = i :: around
          ∧ finding = .cycle (g.nameAt i) ((i :: around).map g.nameAt ++ [g.nameAt i]) span)
        (g.digraph.loops g.starts []) found := by
  have hfinding : ∀ loop ∈ g.digraph.loops g.starts [], g.digraph.IsRound ↑loop
      ∧ ∃ i around span, loop = i :: around ∧ g.cycleAt i (i :: around)
        = .ok (.cycle (g.nameAt i) ((i :: around).map g.nameAt ++ [g.nameAt i]) span) := by
    intro loop hloop
    have hround := isRound_of_mem_loops h.single_digraph hloop
    refine ⟨hround, ?_⟩
    cases loop with
    | nil => exact absurd rfl hround.ne_nil
    | cons i around =>
        have hkinds : ∀ x ∈ i :: around, ∃ kind, g.Has x kind := by
          intro x hx
          obtain ⟨y, hxy⟩ := hround.exists_arrow (Cycle.mem_coe_iff.2 hx)
          obtain ⟨⟨kind, hkind, -⟩, -⟩ := h.has_of_arrow hxy
          exact ⟨kind, hkind⟩
        obtain ⟨span, hspan⟩ := h.cycleAt_eq hkinds
        exact ⟨i, around, span, rfl, hspan⟩
  obtain ⟨found, hfound, hall⟩ := filterMapM_eq_ok
    (f := fun | [] => return none | i :: around => some <$> g.cycleAt i (i :: around)) <| by
      intro loop hloop
      obtain ⟨-, i, around, span, rfl, hok⟩ := hfinding loop hloop
      exact ⟨_, map_eq_ok_iff.2 ⟨_, hok, rfl⟩⟩
  refine ⟨found, hfound, (forall₂_mem_left hall).imp fun loop finding hpair => ?_⟩
  obtain ⟨hround, i, around, span, rfl, hok⟩ := hfinding loop hpair.1
  refine ⟨hround, i, around, span, rfl, ?_⟩
  obtain ⟨d, hd, heq⟩ := map_eq_ok_iff.1 hpair.2
  rw [hok] at hd
  cases hd
  cases heq
  rfl

/-- The findings on loops tell of those that the search reports. -/
theorem WellFormed.cycles_goesRound (h : g.WellFormed) :
    ∃ found, g.cycles = .ok found ∧ List.Forall₂ Diagnostic.GoesRound found g.loopNames := by
  obtain ⟨found, hfound, hall⟩ := h.cycles_eq
  refine ⟨found, hfound, ?_⟩
  rw [loopNames, reports, List.map_map, List.forall₂_map_right_iff]
  refine (hall.imp fun loop finding hfinding => ?_).flip
  obtain ⟨-, i, around, span, rfl, rfl⟩ := hfinding
  exact .cycle (g.nameAt i) (around.map g.nameAt) span

/-- The search for loops finds none exactly when the way from every root
and every join comes to an end. -/
theorem WellFormed.cycles_spec (h : g.WellFormed) :
    ∃ found, g.cycles = .ok found
      ∧ (found = [] ↔ ∀ i kind, g.Has i kind → kind ≠ .terminal → g.digraph.Ends i) := by
  obtain ⟨found, hfound, hgoes⟩ := h.cycles_goesRound
  refine ⟨found, hfound, ?_⟩
  rw [← nil_iff_of_forall₂ hgoes, loopNames, reports, List.map_eq_nil_iff, List.map_eq_nil_iff,
    loops_eq_nil_iff h.single_digraph]
  simp only [mem_starts_iff]
  constructor
  · intro hall i kind hi hne
    exact hall i ⟨kind, hi, hne⟩
  · intro hall i hstart
    obtain ⟨kind, hi, hne⟩ := hstart
    exact hall i kind hi hne

-- ============================================================ agreement

/-- The edge of the table is what its number leads to. -/
theorem WellFormed.edge_eq (h : g.WellFormed) {e : Edge α} (he : e ∈ g.edges) :
    g.edge e.id = .ok e := by
  obtain ⟨n, hn, rfl⟩ := List.mem_iff_getElem.1 he
  have hid : g.edges[n].id = (n : Int) := by
    have hnumber := congrArg (·[n]?) h.numbered
    simp only [numbers, List.getElem?_map, List.getElem?_eq_getElem hn, List.getElem?_range hn,
      Option.map_some] at hnumber
    exact Option.some.inj hnumber
  rw [edge, hid, Rows.row?_natCast, List.getElem?_eq_getElem hn]

/-- A vertex records the edges that enter it. -/
theorem WellFormed.mapM_incoming (h : g.WellFormed) {v : Vertex α} (hv : v ∈ g.vertices) :
    v.incoming.mapM g.edge = .ok (g.edges.filter (·.target = v.id)) := by
  rw [h.incoming v hv, mapM_eq_ok_iff, List.forall₂_map_left_iff, List.forall₂_same]
  intro e he
  exact h.edge_eq (List.mem_filter.1 he).1

/-- The edges that leave a vertex: the one that it records, if any. -/
theorem WellFormed.outgoing_cases (h : g.WellFormed) {v : Vertex α} (hv : v ∈ g.vertices) :
    (v.outgoing = none ∧ g.edges.filter (·.source = v.id) = [])
      ∨ ∃ e ∈ g.edges, e.source = v.id ∧ v.outgoing = some e.id
        ∧ (g.edges.filter (·.source = v.id)).length = 1 := by
  have hcount : (g.edges.filter (·.source = v.id)).length ≤ 1 := nodup_map_iff.1 h.single v.id
  have hrecord := h.outgoing v hv
  cases hfind : g.edges.find? (·.source = v.id) with
  | none =>
      rw [hfind] at hrecord
      refine .inl ⟨hrecord, ?_⟩
      rw [List.filter_eq_nil_iff]
      exact List.find?_eq_none.1 hfind
  | some e =>
      rw [hfind] at hrecord
      have he := List.mem_of_find?_eq_some hfind
      have hsource : e.source = v.id := by
        have hfound := List.find?_some hfind
        exact of_decide_eq_true hfound
      refine .inr ⟨e, he, hsource, hrecord, ?_⟩
      have hmem : e ∈ g.edges.filter (·.source = v.id) :=
        List.mem_filter.2 ⟨he, decide_eq_true hsource⟩
      have hpos := List.length_pos_of_mem hmem
      omega

/-- No vertex is found to disagree, if every root has its way on. -/
theorem WellFormed.checkVertex_eq_ok (h : g.WellFormed) {v : Vertex α} (hv : v ∈ g.vertices)
    (hroot : v.kind.group?.isSome = true → v.id ∈ g.edges.map (·.source)) :
    g.checkVertex v = .ok () := by
  have hterminal : v.kind.isTerminal = true → g.edges.filter (·.source = v.id) = [] := by
    intro hkind
    rw [List.filter_eq_nil_iff]
    intro e he hsource
    obtain ⟨kind, hhas, hne⟩ := h.sources e he
    rw [of_decide_eq_true hsource] at hhas
    have hsame := h.labelled.unique hhas (has_of_mem hv)
    rw [hsame] at hne
    cases hv' : v.kind <;> rw [hv'] at hkind hne
    · exact hne rfl
    · cases hkind
    · cases hkind
  have hincoming : v.kind.group?.isSome = true → v.incoming = [] := by
    intro hkind
    rw [h.incoming v hv, List.map_eq_nil_iff, List.filter_eq_nil_iff]
    intro e he htarget
    obtain ⟨kind, hhas, hnone⟩ := h.targets e he
    rw [of_decide_eq_true htarget] at hhas
    rw [h.labelled.unique hhas (has_of_mem hv)] at hnone
    rw [hnone] at hkind
    cases hkind
  -- The vertex is left by no edge, and then it is no root, or by the one it records, and
  -- then it is no terminal.
  rcases h.outgoing_cases hv with ⟨hout, hempty⟩ | ⟨e, he, hsource, hout, hcount⟩
  · have hnoRoot : v.kind.group?.isSome = false := by
      by_contra hsome
      obtain ⟨e, he, hsource⟩ := List.mem_map.1 (hroot (Bool.not_eq_false _ ▸ hsome))
      have hmem : e ∈ g.edges.filter (·.source = v.id) :=
        List.mem_filter.2 ⟨he, decide_eq_true hsource⟩
      rw [hempty] at hmem
      cases hmem
    unfold checkVertex
    simp [hempty, hnoRoot, hout]
    rfl
  · have hnoTerminal : v.kind.isTerminal = false := by
      by_contra hsome
      rw [hterminal (Bool.not_eq_false _ ▸ hsome)] at hcount
      cases hcount
    unfold checkVertex
    have hguard : ¬ (v.kind.group?.isSome = true ∧ ¬ v.incoming = []) :=
      fun hboth => hboth.2 (hincoming hboth.1)
    simp [hcount, hnoTerminal, hout, h.edge_eq he, hguard]
    show (if e.source = v.id then _ else _) = _
    rw [if_pos hsource]
    rfl

/-- The tables do not disagree, if every root has its edge. -/
theorem WellFormed.checkOutgoing_eq_ok (h : g.WellFormed)
    (hroots : ∀ i group, g.Has i (.root group) → i ∈ g.edges.map (·.source)) :
    g.checkOutgoing = .ok () := by
  rw [checkOutgoing, forM_eq_ok_iff]
  intro v hv
  refine h.checkVertex_eq_ok hv fun hkind => ?_
  have hi := has_of_mem hv
  cases hv' : v.kind with
  | terminal =>
      rw [hv'] at hkind
      cases hkind
  | join name =>
      rw [hv'] at hkind
      cases hkind
  | root group =>
      rw [hv'] at hi
      exact hroots _ group hi

-- ============================================================= arriving

/-- No root is found cut off exactly when all of them reach the terminal. -/
theorem disconnected_eq_nil_iff :
    g.disconnected = []
      ↔ ∀ i group, g.Has i (.root group) → ReflTransGen g.digraph.Arrow i terminalId := by
  rw [disconnected, List.filterMap_eq_nil_iff]
  constructor
  · intro hall i group hi
    obtain ⟨v, hv, rfl, hkind⟩ := exists_vertex hi
    have hnone := hall v hv
    rw [hkind] at hnone
    by_contra hnot
    rw [← mem_reachBack] at hnot
    simp only [if_neg hnot] at hnone
    cases hnone
  · intro hall v hv
    cases hkind : v.kind with
    | terminal => rfl
    | join name => rfl
    | root group =>
        have hi := has_of_mem hv
        rw [hkind] at hi
        have hmem := (mem_reachBack g.digraph).2 (hall _ group hi)
        simp only [if_pos hmem]

/-- A graph is found empty exactly when nothing arrives at the terminal. -/
theorem WellFormed.emptiness_spec (h : g.WellFormed) :
    ∃ found, g.emptiness = .ok found ∧ (found = [] ↔ ∃ i, g.digraph.Arrow i terminalId) := by
  obtain ⟨v, hv, hid, -⟩ := exists_vertex h.labelled.has_terminal
  have hincoming : v.incoming.length = 0 ↔ ¬ ∃ i, g.digraph.Arrow i terminalId := by
    rw [List.length_eq_zero_iff, h.incoming v hv, List.map_eq_nil_iff, List.filter_eq_nil_iff, hid]
    constructor
    · intro hall ⟨i, hi⟩
      obtain ⟨e, he, -, htarget⟩ := arrow_iff.1 hi
      exact hall e he (decide_eq_true htarget)
    · intro hnot e he htarget
      exact hnot ⟨e.source, arrow_iff.2 ⟨e, he, rfl, of_decide_eq_true htarget⟩⟩
  have hvertex : g.vertex terminalId = .ok v := by
    rw [← hid]
    exact h.labelled.vertex_eq hv
  refine ⟨if v.incoming.length = 0 then [.emptyRecipe none] else [], ?_, ?_⟩
  · rw [emptiness, indegree, hvertex]
    rfl
  · by_cases hzero : v.incoming.length = 0
    · rw [if_pos hzero]
      exact ⟨fun hfalse => (nomatch hfalse), fun hsome => absurd hsome (hincoming.1 hzero)⟩
    · rw [if_neg hzero]
      refine ⟨fun _ => ?_, fun _ => rfl⟩
      by_contra hnot
      exact hzero (hincoming.2 hnot)

-- ================================================================ tree

/-- Where edges lead between vertices of the table, there are no other
nodes. -/
theorem nodes_eq_ids (hnodup : (g.vertices.map (·.id)).Nodup)
    (hends : ∀ e ∈ g.edges, e.source ∈ g.vertices.map (·.id) ∧ e.target ∈ g.vertices.map (·.id)) :
    g.digraph.nodes = g.vertices.map (·.id) := by
  have hnone : (g.edges.flatMap fun e => [e.source, e.target]).removeAll (g.vertices.map (·.id))
      = [] := by
    rw [List.removeAll, List.filter_eq_nil_iff]
    intro i hi
    obtain ⟨e, he, hend⟩ := List.mem_flatMap.1 hi
    have hin : i ∈ g.vertices.map (·.id) := by
      rcases List.mem_cons.1 hend with rfl | hend
      · exact (hends e he).1
      · rw [List.mem_singleton.1 hend]
        exact (hends e he).2
    simpa using hin
  show (g.vertices.map (·.id) ++ g.edges.flatMap fun e => [e.source, e.target]).eraseDups = _
  rw [List.eraseDups_append, hnone, eraseDups_eq_self hnodup]
  exact List.append_nil _

/-- The nodes of the directed graph are the vertices of the table. -/
theorem WellFormed.nodes_eq (h : g.WellFormed) : g.digraph.nodes = g.vertices.map (·.id) :=
  nodes_eq_ids h.labelled.nodup_ids fun _ he => h.ends he

/-- They are the numbers that stand in the table under some kind. -/
theorem WellFormed.mem_nodes_iff (h : g.WellFormed) :
    i ∈ g.digraph.nodes ↔ ∃ kind, g.Has i kind := by
  rw [h.nodes_eq, mem_ids_iff]

theorem WellFormed.nodup_nodes (h : g.WellFormed) : g.digraph.nodes.Nodup := by
  rw [h.nodes_eq]
  exact h.labelled.nodup_ids

/-- Where every vertex has a way on, there is one edge less than there
are vertices. -/
theorem WellFormed.length_nodes (h : g.WellFormed) (hg : g.Complete) :
    g.digraph.nodes.length = g.digraph.arrows.length + 1 := by
  have hperm : (terminalId :: g.edges.map (·.source)).Perm g.digraph.nodes := by
    refine (List.perm_ext_iff_of_nodup (List.nodup_cons.2 ⟨?_, h.single⟩)
      h.nodup_nodes).2 fun i => ?_
    · intro hmem
      obtain ⟨e, he, hsource⟩ := List.mem_map.1 hmem
      exact h.not_arrow_terminal (arrow_iff.2 ⟨e, he, hsource, rfl⟩)
    · rw [h.mem_nodes_iff, List.mem_cons]
      constructor
      · intro hi
        rcases hi with rfl | hi
        · exact ⟨.terminal, h.labelled.has_terminal⟩
        · obtain ⟨e, he, rfl⟩ := List.mem_map.1 hi
          obtain ⟨kind, hsource, -⟩ := h.sources e he
          exact ⟨kind, hsource⟩
      · intro ⟨kind, hi⟩
        by_cases hkind : kind = .terminal
        · subst hkind
          exact .inl (h.labelled.has_terminal_iff.1 hi)
        · obtain ⟨j, hj⟩ := hg i kind hi hkind
          obtain ⟨e, he, hsource, -⟩ := arrow_iff.1 hj
          exact .inr (List.mem_map.2 ⟨e, he, hsource⟩)
  have hlength := hperm.length_eq
  rw [List.length_cons, List.length_map] at hlength
  rw [← hlength, digraph, List.length_map]

/-- A graph in which all ways lead to the terminal is a tree. -/
theorem WellFormed.isInTree_eq_true (h : g.WellFormed) (hg : g.Complete)
    (hends : ∀ i kind, g.Has i kind → kind ≠ .terminal → g.digraph.Ends i) :
    g.digraph.isInTree = true := by
  have hfirst : ∃ rest, g.digraph.nodes = terminalId :: rest := by
    obtain ⟨top, others, hvertices, hid, -⟩ := h.labelled.exists_top
    refine ⟨others.map (·.id), ?_⟩
    rw [h.nodes_eq, hvertices, List.map_cons, hid]
  obtain ⟨rest, hnodes⟩ := hfirst
  refine h.single_digraph.isInTree_eq_true hnodes (h.length_nodes hg) fun i hi => ?_
  obtain ⟨kind, hkind⟩ := h.mem_nodes_iff.1 hi
  by_cases hterminal : kind = .terminal
  · subst hterminal
    rw [h.labelled.has_terminal_iff.1 hkind]
  · exact (h.ends_iff hg hkind).1 (hends i kind hkind hterminal)

/-- Where all ways come to an end, the order has every vertex, and edges
lead forward. -/
theorem WellFormed.order_spec (h : g.WellFormed)
    (hends : ∀ i kind, g.Has i kind → kind ≠ .terminal → g.digraph.Ends i) :
    g.digraph.order.Perm g.digraph.nodes ∧ Forward g.digraph.arrows g.digraph.order := by
  refine Digraph.order_spec h.single_digraph (fun a ha => ?_) (fun a ha => ?_)
  · obtain ⟨⟨kind, hkind, hne⟩, -⟩ := h.has_of_arrow (i := a.1) (j := a.2) ha
    exact hends a.1 kind hkind hne
  · obtain ⟨⟨kind, hkind, -⟩, -⟩ := h.has_of_arrow (i := a.1) (j := a.2) ha
    exact h.mem_nodes_iff.2 ⟨kind, hkind⟩

/-- An order of all vertices in which edges lead forward ends at the
terminal: in a graph that is complete only the terminal has no way on. -/
theorem WellFormed.getLast?_eq_terminal (h : g.WellFormed) (hg : g.Complete) {order : List Int}
    (hperm : order.Perm g.digraph.nodes) (hforward : Forward g.digraph.arrows order) :
    order.getLast? = some terminalId := by
  have hterminal : terminalId ∈ order :=
    hperm.mem_iff.2 (h.mem_nodes_iff.2 ⟨.terminal, h.labelled.has_terminal⟩)
  have htargets : ∀ a ∈ g.digraph.arrows, a.2 ∈ order := by
    intro a ha
    obtain ⟨-, kind, hkind, -⟩ := h.has_of_arrow (i := a.1) (j := a.2) ha
    exact hperm.mem_iff.2 (h.mem_nodes_iff.2 ⟨kind, hkind⟩)
  obtain ⟨last, hlast⟩ : ∃ last, order.getLast? = some last :=
    ⟨_, List.getLast?_eq_some_getLast (List.ne_nil_of_mem hterminal)⟩
  have hstops := hforward.last_stops (hperm.nodup_iff.2 h.nodup_nodes) htargets hlast
  obtain ⟨kind, hkind⟩ := h.mem_nodes_iff.1 (hperm.mem_iff.1 (List.mem_of_getLast? hlast))
  by_cases hkindOf : kind = .terminal
  · subst hkindOf
    rw [hlast, h.labelled.has_terminal_iff.1 hkind]
  · obtain ⟨next, hnext⟩ := hg last kind hkind hkindOf
    exact absurd hnext (hstops next)

-- ============================================================ analysis

/-- An analysis finds loops, then ingredients that do not arrive, then that
nothing does. -/
theorem findings_of_analyze {earlier : List (Diagnostic α)} {a : Analysis α}
    (h : g.analyze earlier = .ok a) :
    ∃ loops empty, g.cycles = .ok loops ∧ g.emptiness = .ok empty
      ∧ a.diagnostics = loops ++ g.disconnected ++ empty := by
  obtain ⟨loops, hloops, h⟩ := bind_eq_ok_iff.1 h
  obtain ⟨-, -, h⟩ := bind_eq_ok_iff.1 h
  obtain ⟨empty, hempty, h⟩ := bind_eq_ok_iff.1 h
  refine ⟨loops, empty, hloops, hempty, ?_⟩
  change (if ((loops ++ g.disconnected ++ empty).isEmpty && earlier.isEmpty) = true then _
    else _) = _ at h
  by_cases hclean : ((loops ++ g.disconnected ++ empty).isEmpty && earlier.isEmpty) = true
  · rw [if_pos hclean] at h
    rw [Bool.and_eq_true, List.isEmpty_iff] at hclean
    rw [hclean.1]
    dsimp only at h
    split at h
    · cases h
    · split at h
      · cases h
      · cases h
        rfl
  · rw [if_neg hclean] at h
    cases h
    rfl

/-- When an analysis finds nothing: every way comes to an end, those of
the roots end at the terminal, and some way does. -/
def Clear (g : FlowGraph α) : Prop :=
  (∀ i kind, g.Has i kind → kind ≠ .terminal → g.digraph.Ends i)
    ∧ (∀ i group, g.Has i (.root group) → ReflTransGen g.digraph.Arrow i terminalId)
    ∧ ∃ i, g.digraph.Arrow i terminalId

/-- The analysis of a graph whose tables agree has a result. The order is
there when nothing was found, now or earlier. -/
theorem WellFormed.analyze_spec (h : g.WellFormed)
    (hroots : ∀ i group, g.Has i (.root group) → i ∈ g.edges.map (·.source))
    {earlier : List (Diagnostic α)} (hg : earlier = [] → g.Complete) :
    ∃ a, g.analyze earlier = .ok a ∧ (a.diagnostics = [] ↔ g.Clear)
      ∧ a.order = if earlier ++ a.diagnostics = [] then some g.digraph.order else none := by
  obtain ⟨loops, hloops, hloops'⟩ := h.cycles_spec
  obtain ⟨empty, hempty, hempty'⟩ := h.emptiness_spec
  have hfound : loops ++ g.disconnected ++ empty = [] ↔ g.Clear := by
    rw [List.append_eq_nil_iff, List.append_eq_nil_iff, hloops', hempty', disconnected_eq_nil_iff,
      Clear, and_assoc]
  have hrun : g.analyze earlier
      = if (loops ++ g.disconnected ++ empty).isEmpty && earlier.isEmpty then
          if ¬ g.digraph.isInTree then .error (@Fault.notInTree false)
          else if g.digraph.order.getLast? ≠ some terminalId then .error (@Fault.notInTree true)
          else .ok { order := some g.digraph.order }
        else .ok { diagnostics := loops ++ g.disconnected ++ empty } := by
    rw [analyze, hloops, h.checkOutgoing_eq_ok hroots, hempty]
    rfl
  rw [hrun]
  -- Only where nothing was found, now or earlier, is the tree asked for, and there it is
  -- one.
  by_cases hclean : loops ++ g.disconnected ++ empty = []
  · by_cases hearlier : earlier = []
    · have hends := (hfound.1 hclean).1
      have htree := h.isInTree_eq_true (hg hearlier) hends
      obtain ⟨hperm, hforward⟩ := h.order_spec hends
      have hlast := h.getLast?_eq_terminal (hg hearlier) hperm hforward
      refine ⟨{ order := some g.digraph.order }, ?_, ?_, ?_⟩
      · rw [hclean, hearlier, htree, hlast]
        rfl
      · exact ⟨fun _ => hfound.1 hclean, fun _ => rfl⟩
      · rw [hearlier]
        rfl
    · refine ⟨{ diagnostics := loops ++ g.disconnected ++ empty }, ?_, hfound, ?_⟩
      · rw [if_neg]
        simp [hearlier]
      · rw [if_neg fun hnil => hearlier (List.append_eq_nil_iff.1 hnil).1]
  · refine ⟨{ diagnostics := loops ++ g.disconnected ++ empty }, ?_, hfound, ?_⟩
    · rw [if_neg]
      rw [Bool.and_eq_true, List.isEmpty_iff]
      exact fun hnil => hclean hnil.1
    · rw [if_neg fun hnil => hclean (List.append_eq_nil_iff.1 hnil).2]

end FlowGraph

end RecipeChart
