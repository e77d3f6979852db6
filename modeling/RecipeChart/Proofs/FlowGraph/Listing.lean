/-
The listing of a graph whose tables agree. No look-up fails in it: a vertex
records edges of the table, and no edge comes from the terminal, which is
the one vertex without a printed form. The listing falls into blocks, one
for the terminal if anything enters it and one for each join; and as every
edge enters the terminal or a join, its line stands in one block, under its
target.
-/
import RecipeChart.FlowGraph.Listing
import RecipeChart.Proofs.FlowGraph.Analysing

namespace RecipeChart.FlowGraph

-- =============================================================== blocks

/-- What a listing has on a vertex: its heading, and a line for each edge
that enters it. -/
structure Block where
  vertex : Vertex String
  heading : String
  entries : List (Edge String × String)

def Block.lines (b : Block) : List String := b.heading :: b.entries.map Prod.snd

/-- Is this the heading of the terminal, or of the join? -/
def Heads (heading : String) : VertexKind String → Prop
  | .terminal => heading = "  DONE"
  | .join name => heading = "  " ++ joinText name
  | .root _ => False

/-- The text is made of the blocks: one for each of some vertices, under its
heading, with the lines of the edges that enter the vertex; and every edge
has its line in one of them. -/
structure Shows (g : FlowGraph String) (text : String) (blocks : List Block) : Prop where
  text : text = "\n".intercalate (["analysis \x7b"] ++ blocks.flatMap Block.lines ++ ["\x7d"])
  vertices : (blocks.map (·.vertex)).Sublist g.vertices
  headings : ∀ b ∈ blocks, Heads b.heading b.vertex.kind
  entries : ∀ b ∈ blocks, ∀ x ∈ b.entries,
    x.1.target = b.vertex.id ∧ g.edgeLine x.1 = .ok x.2
  once : ((blocks.flatMap (·.entries)).map Prod.fst).Perm g.edges

variable {g : FlowGraph String}

-- ================================================================ lines

/-- Every edge has a line. -/
theorem WellFormed.exists_edgeLine (h : g.WellFormed) {e : Edge String} (he : e ∈ g.edges) :
    ∃ line, g.edgeLine e = .ok line := by
  obtain ⟨kind, hkind, hne⟩ := h.sources e he
  obtain ⟨v, hv, hid, rfl⟩ := exists_vertex hkind
  have hvertex : looked (g.vertex e.source) = .ok v := by
    rw [← hid, h.labelled.vertex_eq hv]
    rfl
  have hsource : ∃ source, sourceText v.kind = .ok source := by
    cases hkind : v.kind with
    | terminal => exact absurd hkind hne
    | join name => exact ⟨joinText name, rfl⟩
    | root group => exact ⟨group.text, rfl⟩
  obtain ⟨source, hsource⟩ := hsource
  exact ⟨_, bind_eq_ok_iff.2 ⟨v, hvertex, bind_eq_ok_iff.2 ⟨source, hsource, rfl⟩⟩⟩

/-- The block of the vertex, if the edges have these lines. -/
def blockOf (g : FlowGraph String) (line : Edge String → String) (heading : String)
    (v : Vertex String) : Block :=
  ⟨v, heading, (g.edges.filter (·.target = v.id)).map fun e => (e, line e)⟩

variable {line : Edge String → String}

theorem WellFormed.vertexLines_eq (h : g.WellFormed)
    (hline : ∀ e ∈ g.edges, g.edgeLine e = .ok (line e)) {v : Vertex String} (hv : v ∈ g.vertices)
    (heading : String) : g.vertexLines heading v = .ok (g.blockOf line heading v).lines := by
  have hedges : looked (v.incoming.mapM g.edge) = .ok (g.edges.filter (·.target = v.id)) := by
    rw [h.mapM_incoming hv]
    rfl
  have hlines : (g.edges.filter (·.target = v.id)).mapM g.edgeLine
      = .ok ((g.edges.filter (·.target = v.id)).map line) := by
    rw [mapM_eq_ok_iff, List.forall₂_map_right_iff, List.forall₂_same]
    exact fun e he => hline e (List.mem_filter.1 he).1
  refine bind_eq_ok_iff.2 ⟨_, hedges, bind_eq_ok_iff.2 ⟨_, hlines, ?_⟩⟩
  rw [Block.lines, blockOf, List.map_map]
  rfl

-- ============================================================= listing

/-- The block of the terminal, if anything enters it. -/
def topBlock? (g : FlowGraph String) (line : Edge String → String) (top : Vertex String) :
    Option Block :=
  if top.incoming.isEmpty then none else some (g.blockOf line "  DONE" top)

/-- The block of a join. -/
def joinBlock? (g : FlowGraph String) (line : Edge String → String) (v : Vertex String) :
    Option Block :=
  v.kind.name?.map fun name => g.blockOf line ("  " ++ joinText name) v

/-- The blocks of the listing in their order. -/
def blocksOf (g : FlowGraph String) (line : Edge String → String) (top : Vertex String) :
    List Block :=
  (g.topBlock? line top).toList ++ g.vertices.filterMap (g.joinBlock? line)

theorem WellFormed.joinLines_eq (h : g.WellFormed)
    (hline : ∀ e ∈ g.edges, g.edgeLine e = .ok (line e)) {v : Vertex String}
    (hv : v ∈ g.vertices) :
    g.joinLines v = .ok ((g.joinBlock? line v).toList.flatMap Block.lines) := by
  unfold joinLines joinBlock?
  cases v.kind with
  | terminal => rfl
  | root group => rfl
  | join name =>
      rw [VertexKind.name?, Option.map_some, Option.toList_some, List.flatMap_singleton]
      exact h.vertexLines_eq hline hv _

/-- The listing is made of the blocks. -/
theorem WellFormed.listing_eq (h : g.WellFormed)
    (hline : ∀ e ∈ g.edges, g.edgeLine e = .ok (line e)) {top : Vertex String}
    (htop : top ∈ g.vertices) (hid : top.id = terminalId) :
    g.listing = .ok ("\n".intercalate
      (["analysis \x7b"] ++ (g.blocksOf line top).flatMap Block.lines ++ ["\x7d"])) := by
  have hterminal : looked (g.vertex terminalId) = .ok top := by
    rw [← hid, h.labelled.vertex_eq htop]
    rfl
  have hjoins : g.vertices.mapM g.joinLines
      = .ok (g.vertices.map fun v => (g.joinBlock? line v).toList.flatMap Block.lines) := by
    rw [mapM_eq_ok_iff, List.forall₂_map_right_iff, List.forall₂_same]
    exact fun v hv => h.joinLines_eq hline hv
  have hblocks : (g.blocksOf line top).flatMap Block.lines
      = (g.topBlock? line top).toList.flatMap Block.lines
        ++ (g.vertices.map fun v => (g.joinBlock? line v).toList.flatMap Block.lines).flatten := by
    rw [blocksOf, List.flatMap_append, List.filterMap_eq_flatMap_toList, List.flatMap_assoc,
      ← List.flatMap_def]
  refine bind_eq_ok_iff.2 ⟨top, hterminal, ?_⟩
  rw [hblocks, topBlock?]
  by_cases hnone : top.incoming.isEmpty = true
  · simp only [if_pos hnone]
    exact bind_eq_ok_iff.2 ⟨[], rfl, bind_eq_ok_iff.2 ⟨_, hjoins, rfl⟩⟩
  · simp only [if_neg hnone]
    refine bind_eq_ok_iff.2 ⟨_, h.vertexLines_eq hline htop _, bind_eq_ok_iff.2 ⟨_, hjoins, ?_⟩⟩
    rw [Option.toList_some, List.flatMap_singleton, ← List.append_assoc]
    rfl

/-- What stands in the listing on a vertex of a block. -/
theorem eq_blockOf_of_mem {top : Vertex String} (htop : top ∈ g.vertices)
    (hkind : top.kind = .terminal) {b : Block} (hb : b ∈ g.blocksOf line top) :
    b.vertex ∈ g.vertices ∧ Heads b.heading b.vertex.kind
      ∧ b = g.blockOf line b.heading b.vertex := by
  rcases List.mem_append.1 hb with hb | hb
  · unfold topBlock? at hb
    split at hb
    · cases hb
    · rw [List.mem_singleton.1 hb]
      refine ⟨htop, ?_, rfl⟩
      show Heads "  DONE" top.kind
      rw [hkind]
      exact rfl
  · obtain ⟨v, hv, hblock⟩ := List.mem_filterMap.1 hb
    obtain ⟨name, hname, rfl⟩ := Option.map_eq_some_iff.1 hblock
    refine ⟨hv, ?_, rfl⟩
    show Heads ("  " ++ joinText name) v.kind
    cases hjoin : v.kind with
    | terminal =>
        rw [hjoin] at hname
        cases hname
    | root group =>
        rw [hjoin] at hname
        cases hname
    | join other =>
        rw [hjoin] at hname
        cases hname
        exact rfl

/-- The vertices of the blocks: the terminal, if anything enters it, and the
joins. -/
theorem map_vertex_blocksOf {top : Vertex String} {rest : List (Vertex String)}
    (hvertices : g.vertices = top :: rest) (hkind : top.kind = .terminal) :
    (g.blocksOf line top).map (·.vertex)
      = (if top.incoming.isEmpty then [] else [top]) ++ rest.filter (·.kind.name?.isSome) := by
  have hfirst : (g.topBlock? line top).toList.map (·.vertex)
      = if top.incoming.isEmpty then [] else [top] := by
    unfold topBlock?
    split <;> rfl
  have hnone : g.joinBlock? line top = none := by
    rw [joinBlock?, hkind]
    rfl
  have hrest : (rest.filterMap (g.joinBlock? line)).map (·.vertex)
      = rest.filter (·.kind.name?.isSome) := by
    rw [List.map_filterMap, ← List.filterMap_eq_filter]
    refine List.filterMap_congr fun v _ => ?_
    show Option.map _ (Option.map _ v.kind.name?) = if v.kind.name?.isSome then some v else none
    cases v.kind <;> rfl
  rw [blocksOf, List.map_append, hfirst, hvertices, List.filterMap_cons_none hnone, hrest]

/-- Every edge enters the vertex of a block. -/
theorem WellFormed.target_mem_blocksOf (h : g.WellFormed) {top : Vertex String}
    {rest : List (Vertex String)} (hvertices : g.vertices = top :: rest)
    (hkind : top.kind = .terminal) {e : Edge String} (he : e ∈ g.edges) :
    e.target ∈ ((g.blocksOf line top).map (·.vertex)).map (·.id) := by
  rw [map_vertex_blocksOf hvertices hkind]
  obtain ⟨kind, htarget, hnone⟩ := h.targets e he
  cases kind with
  | root group => cases hnone
  | terminal =>
      -- The terminal has a block only if something enters it, as this edge does.
      have htop : top ∈ g.vertices := by
        rw [hvertices]
        exact List.mem_cons_self
      have hid : top.id = e.target := by
        have hi := has_of_mem htop
        rw [hkind] at hi
        exact h.labelled.unique_id rfl hi htarget
      have hentered : e.id ∈ top.incoming := by
        rw [h.incoming top htop]
        exact List.mem_map.2 ⟨e, List.mem_filter.2 ⟨he, decide_eq_true hid.symm⟩, rfl⟩
      have hsome : ¬ top.incoming.isEmpty = true := by
        rw [List.isEmpty_iff]
        exact List.ne_nil_of_mem hentered
      rw [if_neg hsome]
      exact List.mem_map.2 ⟨top, List.mem_cons_self, hid⟩
  | join name =>
      obtain ⟨v, hv, hid, hjoin⟩ := exists_vertex htarget
      rw [hvertices] at hv
      rcases List.mem_cons.1 hv with rfl | hv
      · rw [hkind] at hjoin
        cases hjoin
      · refine List.mem_map.2 ⟨v, List.mem_append_right _ (List.mem_filter.2 ⟨hv, ?_⟩), hid⟩
        rw [hjoin]
        rfl

/-- A graph whose tables agree has a listing, and it shows every edge once,
under its target. -/
theorem WellFormed.exists_listing (h : g.WellFormed) :
    ∃ text blocks, g.listing = .ok text ∧ g.Shows text blocks := by
  obtain ⟨top, rest, hvertices, hid, hkind⟩ := h.labelled.exists_top
  have htop : top ∈ g.vertices := by
    rw [hvertices]
    exact List.mem_cons_self
  choose! line hline using fun e (he : e ∈ g.edges) => h.exists_edgeLine he
  have hsublist : ((g.blocksOf line top).map (·.vertex)).Sublist g.vertices := by
    have hone : (if top.incoming.isEmpty then [] else [top]).Sublist [top] := by
      split
      · exact List.nil_sublist [top]
      · exact List.Sublist.refl [top]
    rw [map_vertex_blocksOf hvertices hkind, hvertices]
    exact hone.append List.filter_sublist
  have hnodup := h.labelled.nodup_ids.sublist (hsublist.map (·.id))
  refine ⟨_, g.blocksOf line top, h.listing_eq hline htop hid, rfl, hsublist, fun b hb => ?_,
    fun b hb x hx => ?_, ?_⟩
  · exact (eq_blockOf_of_mem htop hkind hb).2.1
  · rw [(eq_blockOf_of_mem htop hkind hb).2.2] at hx
    obtain ⟨e, he, rfl⟩ := List.mem_map.1 hx
    rw [List.mem_filter, decide_eq_true_eq] at he
    exact ⟨he.2, hline e he.1⟩
  -- Block by block the entries are the edges into its vertex, and every edge has its
  -- target among the vertices that have a block.
  · have hentries : ((g.blocksOf line top).flatMap (·.entries)).map Prod.fst
        = (((g.blocksOf line top).map (·.vertex)).map (·.id)).flatMap
          fun i => g.edges.filter (·.target = i) := by
      rw [List.map_flatMap, List.map_map, List.flatMap_map]
      refine List.flatMap_congr fun b hb => ?_
      rw [(eq_blockOf_of_mem htop hkind hb).2.2, blockOf, List.map_map]
      exact List.map_id _
    have hall : g.edges.filter (·.target ∈ ((g.blocksOf line top).map (·.vertex)).map (·.id))
        = g.edges := by
      rw [List.filter_eq_self]
      exact fun e he => decide_eq_true (h.target_mem_blocksOf hvertices hkind he)
    have hperm := flatMap_filter_perm (fun e : Edge String => e.target) hnodup g.edges
    rwa [hall, ← hentries] at hperm

end RecipeChart.FlowGraph
