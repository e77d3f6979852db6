/-
Graphs that are grown. One starts from the empty graph and adds roots,
joins that are mentioned and edges between vertices that are there, in any
order. Edges may enter a root, leave the terminal, run side by side or in a
circle; nothing is promised but that the vertices record what was drawn:
all edges that enter them, and of those that leave them the last.

That is enough to tell when the analysis, with no problems known before,
gives a build order. It does so exactly if the edges lead each vertex on by
one way, enter no root, run in no circle and come to the terminal, where
they stop. Whatever else there is, the analysis finds it or a fault.
-/
import RecipeChart.Proofs.FlowGraph.BuildOrder

namespace RecipeChart

open Relation RecipeChart.Digraph

variable {α : Type}

namespace FlowGraph

variable {g : FlowGraph α} {i j : Int}

-- ============================================================== growing

/-- The graphs that are grown from the empty one. -/
inductive Grown [DecidableEq α] : FlowGraph α → Prop where
  | empty : Grown .empty
  | root {g : FlowGraph α} (h : Grown g) (group : Group α) (span : Option Span) :
      Grown (g.addVertex (.root group) span)
  | join {g : FlowGraph α} (h : Grown g) (ref : JoinRef α) : Grown (g.joinVertex ref).2
  | edge {g : FlowGraph α} (h : Grown g) {source target : Int}
      (hsource : source ∈ g.vertices.map (·.id)) (htarget : target ∈ g.vertices.map (·.id))
      (actions : List (Action α)) (span : Option Span) :
      Grown (g.addEdge source target actions span)

theorem Recorded.addRoot (h : g.Recorded) (group : Group α) (span : Option Span) :
    (g.addVertex (.root group) span).Recorded :=
  h.addVertex VertexKind.root_ne_terminal (List.append_nil g.joins).symm
    fun _ hname => nomatch hname

theorem Recorded.joinVertex [DecidableEq α] (h : g.Recorded) (ref : JoinRef α) :
    (g.joinVertex ref).2.Recorded := by
  rw [FlowGraph.joinVertex]
  cases hjoin : g.join? ref.name with
  | some i => exact h
  | none =>
      refine h.addVertex VertexKind.join_ne_terminal rfl fun name hname i hi => ?_
      cases hname
      rw [← h.labelled.join?_eq_some_iff, hjoin] at hi
      cases hi

/-- The vertices of a grown graph record its edges. -/
theorem Grown.recorded [DecidableEq α] (h : g.Grown) : g.Recorded := by
  induction h with
  | empty => exact WellFormed.empty.recorded
  | root _ group span ih => exact ih.addRoot group span
  | join _ ref ih => exact ih.joinVertex ref
  | edge _ hsource htarget _ _ ih =>
      obtain ⟨kind, hsource⟩ := mem_ids_iff.1 hsource
      obtain ⟨kind', htarget⟩ := mem_ids_iff.1 htarget
      exact ih.addEdge hsource htarget

-- ============================================================== orderly

/-- The edges lead every vertex on by one way, and they end at the
terminal. -/
structure Orderly (g : FlowGraph α) : Prop where
  stops : ∀ e ∈ g.edges, e.source ≠ terminalId
  single : ∀ v ∈ g.vertices, v.id ≠ terminalId → (g.edges.filter (·.source = v.id)).length = 1
  roots : ∀ v ∈ g.roots, ∀ e ∈ g.edges, e.target ≠ v.id
  noLoop : ∀ i, ¬ TransGen g.digraph.Arrow i i
  done : ∃ e ∈ g.edges, e.target = terminalId

theorem Recorded.placed (h : g.Recorded) : g.Placed where
  numbered := by
    rw [← map_fst_labels, h.labelled.numbered, length_labels]
  ends := by
    intro e he
    rw [mem_ids_iff, mem_ids_iff]
    exact h.ends e he

/-- In an orderly graph the tables agree. -/
theorem Orderly.wellFormed (h : g.Orderly) (hg : g.Recorded) : g.WellFormed := by
  refine hg.wellFormed (fun e he => ?_) (fun e he => ?_) ?_
  · obtain ⟨⟨kind, hkind⟩, -⟩ := hg.ends e he
    refine ⟨kind, hkind, fun heq => h.stops e he ?_⟩
    rw [heq] at hkind
    exact hg.labelled.has_terminal_iff.1 hkind
  · obtain ⟨-, kind, hkind⟩ := hg.ends e he
    refine ⟨kind, hkind, ?_⟩
    cases kind with
    | terminal => rfl
    | join name => rfl
    | root group =>
        obtain ⟨v, hv, hid, hroot⟩ := exists_vertex hkind
        exact absurd hid.symm (h.roots v (mem_roots_iff.2 ⟨hv, group, hroot⟩) e he)
  · refine nodup_sources (fun e he => (hg.placed.ends e he).1) fun v hv => ?_
    by_cases hterminal : v.id = terminalId
    · have hnone : g.edges.filter (·.source = v.id) = [] := by
        rw [List.filter_eq_nil_iff]
        intro e he hsource
        exact h.stops e he ((of_decide_eq_true hsource).trans hterminal)
      rw [hnone]
      exact Nat.zero_le 1
    · exact Nat.le_of_eq (h.single v hv hterminal)

theorem Orderly.complete (h : g.Orderly) (hg : g.Recorded) : g.Complete := by
  intro i kind hi hne
  obtain ⟨v, hv, rfl, rfl⟩ := exists_vertex hi
  have hterminal : v.id ≠ terminalId := by
    intro heq
    rw [heq] at hi
    exact hne (hg.labelled.unique hi hg.labelled.has_terminal)
  obtain ⟨e, hone⟩ := List.length_eq_one_iff.1 (h.single v hv hterminal)
  have he : e ∈ g.edges.filter (·.source = v.id) := hone ▸ List.mem_singleton_self e
  rw [List.mem_filter, decide_eq_true_eq] at he
  exact ⟨e.target, arrow_iff.2 ⟨e, he.1, he.2, rfl⟩⟩

/-- No way goes round in a circle, so all come to the terminal. -/
theorem Orderly.clear (h : g.Orderly) (hg : g.Recorded) : g.Clear := by
  have hwell := h.wellFormed hg
  have hends : ∀ i, g.digraph.Ends i := by
    intro i
    rcases loopFrom?_spec hwell.single_digraph i with ⟨-, hends⟩ | ⟨w, around, -, -, hround⟩
    · exact hends
    · have hw : w ∈ (↑(w :: around) : Cycle Int) := Cycle.mem_coe_iff.2 List.mem_cons_self
      exact absurd (hround.leads hw hw) (h.noLoop w)
  refine ⟨fun i kind _ _ => hends i, fun i group hi => ?_, ?_⟩
  · exact (hwell.ends_iff (h.complete hg) hi).1 (hends i)
  · obtain ⟨e, he, htarget⟩ := h.done
    exact ⟨e.source, arrow_iff.2 ⟨e, he, rfl, htarget⟩⟩

-- ============================================================= analysis

/-- Where each part of the analysis finds nothing and the order ends at the
terminal, the order is given. -/
theorem analyze_of_order_eq {order : List Int} (hcycles : g.cycles = .ok [])
    (hcheck : g.checkOutgoing = .ok ()) (hdisconnected : g.disconnected = [])
    (hempty : g.emptiness = .ok []) (htree : g.digraph.isInTree = true)
    (horder : g.digraph.order = order) (hlast : order.getLast? = some terminalId) :
    g.analyze [] = .ok { order := some order } := by
  rw [analyze, hcycles, hcheck, hdisconnected, hempty, htree, horder]
  show (if order.getLast? ≠ some terminalId then _ else _) = _
  rw [if_neg (not_not.2 hlast)]
  rfl

/-- An orderly graph has a build order. -/
theorem Orderly.analyze_eq (h : g.Orderly) (hg : g.Recorded) :
    ∃ a, g.analyze [] = .ok a ∧ a.order = some g.digraph.order := by
  have hwell := h.wellFormed hg
  have hcomplete := h.complete hg
  have hroots : ∀ i group, g.Has i (.root group) → i ∈ g.edges.map (·.source) := by
    intro i group hi
    obtain ⟨j, hj⟩ := hcomplete i _ hi VertexKind.root_ne_terminal
    obtain ⟨e, he, hsource, -⟩ := arrow_iff.1 hj
    exact List.mem_map.2 ⟨e, he, hsource⟩
  obtain ⟨a, ha, hclear, horder⟩ := hwell.analyze_spec hroots fun _ : [] = [] => hcomplete
  rw [hclear.2 (h.clear hg)] at horder
  exact ⟨a, ha, horder⟩

/-- A root on which the tables agree records that nothing enters it. -/
theorem incoming_of_checkVertex {v : Vertex α} (hroot : v.kind.group?.isSome = true)
    (h : g.checkVertex v = .ok ()) : v.incoming = [] := by
  by_contra hne
  have hentered : v.kind.group?.isSome = true
      ∧ ((g.edges.filter (·.source = v.id)).length ≠ 1 ∨ v.incoming ≠ []) := ⟨hroot, .inr hne⟩
  unfold checkVertex at h
  by_cases hterminal : v.kind.isTerminal = true ∧ (g.edges.filter (·.source = v.id)).length ≠ 0
  · rw [if_pos hterminal] at h
    cases h
  · rw [if_neg hterminal] at h
    by_cases hmany : (g.edges.filter (·.source = v.id)).length > 1
    · rw [if_pos hmany] at h
      cases h
    · rw [if_neg hmany, if_pos hentered] at h
      cases h

/-- Nothing was found where an order is given. -/
theorem diagnostics_of_order {earlier : List (Diagnostic α)} {a : Analysis α} {order : List Int}
    (h : g.analyze earlier = .ok a) (horder : a.order = some order) : a.diagnostics = [] := by
  obtain ⟨loops, -, h⟩ := bind_eq_ok_iff.1 h
  obtain ⟨-, -, h⟩ := bind_eq_ok_iff.1 h
  obtain ⟨empty, -, h⟩ := bind_eq_ok_iff.1 h
  dsimp only at h
  split at h
  · split at h
    · cases h
    · split at h
      · cases h
      · cases h
        rfl
  · cases h
    cases horder

/-- Where the recipe is not empty an edge enters the terminal. -/
theorem Recorded.exists_done (h : g.Recorded) (hempty : g.emptiness = .ok []) :
    ∃ e ∈ g.edges, e.target = terminalId := by
  obtain ⟨v, hv, hid, -⟩ := exists_vertex h.labelled.has_terminal
  have hvertex : g.vertex terminalId = .ok v := by
    rw [← hid]
    exact h.labelled.vertex_eq hv
  rw [emptiness, indegree, hvertex] at hempty
  by_cases hzero : v.incoming.length = 0
  · change (.ok (if v.incoming.length = 0 then [Diagnostic.emptyRecipe none] else []) :
      Except Fault (List (Diagnostic α))) = _ at hempty
    rw [if_pos hzero] at hempty
    cases hempty
  · rw [h.incoming v hv, List.length_map, hid] at hzero
    obtain ⟨e, he⟩ := List.exists_mem_of_length_pos (Nat.pos_of_ne_zero hzero)
    rw [List.mem_filter, decide_eq_true_eq] at he
    exact ⟨e, he⟩

/-- A graph for which the analysis gives a build order is orderly, and the
order is that of its arrows. -/
theorem Recorded.orderly_of_order (h : g.Recorded) {a : Analysis α} {order : List Int}
    (ha : g.analyze [] = .ok a) (horder : a.order = some order) :
    g.Orderly ∧ order = g.digraph.order := by
  obtain ⟨hcheck, htree, rfl, hlast⟩ := checked_of_order ha horder
  obtain ⟨hinTree, hperm, -⟩ := h.placed.inTree_of_checked hcheck htree hlast
  have hedges := h.placed.isTree (hperm.mem_iff.1 (List.mem_of_getLast? hlast)) hinTree
  obtain ⟨loops, empty, -, hempty, hfound⟩ := findings_of_analyze ha
  rw [diagnostics_of_order ha horder] at hfound
  rw [(List.append_eq_nil_iff.1 hfound.symm).2] at hempty
  refine ⟨⟨hedges.stops, hedges.single, fun v hv e he htarget => ?_, hedges.noLoop,
    h.exists_done hempty⟩, rfl⟩
  obtain ⟨hv, group, hkind⟩ := mem_roots_iff.1 hv
  have hincoming : v.incoming = [] :=
    incoming_of_checkVertex (by rw [hkind]; rfl) (forM_eq_ok_iff.1 hcheck v hv)
  rw [h.incoming v hv, List.map_eq_nil_iff, List.filter_eq_nil_iff] at hincoming
  exact hincoming e he (decide_eq_true htarget)

/-- The analysis gives a build order exactly for orderly graphs, if the
vertices record the edges. -/
theorem Recorded.exists_order_iff (h : g.Recorded) :
    (∃ a order, g.analyze [] = .ok a ∧ a.order = some order) ↔ g.Orderly := by
  constructor
  · intro ⟨a, order, ha, horder⟩
    exact (h.orderly_of_order ha horder).1
  · intro horderly
    obtain ⟨a, ha, horder⟩ := horderly.analyze_eq h
    exact ⟨a, _, ha, horder⟩

end FlowGraph

end RecipeChart
