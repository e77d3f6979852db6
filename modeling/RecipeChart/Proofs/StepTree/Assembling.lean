/-
What the assembly builds. What flows out of a vertex can be told from the
graph alone: out of a root its ingredients, and out of any other vertex
what its edges carry in, merged. The roots from which it flows are those
that lead to the vertex, each once, and what is met on a way up from the
ingredients of a root is the actions along the edges from that root.

The assembly visits the vertices in an order in which edges lead forward.
It keeps waiting what flows out of the visited vertices whose edge leads
to one that is not yet visited, and so never misses a flow.
-/
import RecipeChart.Proofs.FlowGraph.Analysing
import RecipeChart.Proofs.StepTree.Ways

namespace RecipeChart

open RecipeChart.Digraph Relation StepTree

variable {α : Type}

-- =============================================================== flows

/-- A flow that an edge carries into a vertex, and the roots that it
comes from. -/
structure Tributary (α : Type) where
  edge : Edge α
  flow : Flow α
  roots : List Int

/-- What the edge carries in. -/
def Tributary.carried (t : Tributary α) : Flow α := t.flow.prolong t.edge.actions

namespace FlowGraph

/-- The flow out of a vertex, with the roots that it comes from. -/
inductive Builds (g : FlowGraph α) : Int → Flow α → List Int → Prop where
  | root {i : Int} {group : Group α} (hi : g.Has i (.root group)) :
      Builds g i ⟨[], .group group.ingredients⟩ [i]
  | merge {i : Int} {kind : VertexKind α} {parts : List (Tributary α)} (hi : g.Has i kind)
      (hkind : kind.group? = none)
      (hedges : parts.map (·.edge) = g.edges.filter (·.target = i))
      (hparts : ∀ t ∈ parts, Builds g t.edge.source t.flow t.roots) :
      Builds g i (.merge (parts.map Tributary.carried)) (parts.flatMap (·.roots))

/-- From the one vertex to the other, along edges with these actions. -/
inductive Along (g : FlowGraph α) : Int → Int → List (Action α) → Prop where
  | here {i : Int} : Along g i i []
  | on {e : Edge α} {j : Int} {actions : List (Action α)} (he : e ∈ g.edges)
      (hrest : Along g e.target j actions) : Along g e.source j (e.actions ++ actions)

/-- Is every vertex but the roots entered? -/
def Fed (g : FlowGraph α) : Prop :=
  ∀ i kind, g.Has i kind → kind.group? = none → ∃ j, g.digraph.Arrow j i

variable {g : FlowGraph α} {i j : Int} {f : Flow α} {roots visited : List Int}

theorem Along.snoc {e : Edge α} {actions : List (Action α)} (h : Along g i j actions)
    (hj : j = e.source) (he : e ∈ g.edges) : Along g i e.target (actions ++ e.actions) := by
  induction h with
  | here =>
      subst hj
      have hlast : Along g e.source e.target (e.actions ++ []) := .on he .here
      rwa [List.append_nil] at hlast
  | on he' _ ih =>
      rw [List.append_assoc]
      exact .on he' (ih hj)

/-- An edge that is carried in is one that enters the vertex. -/
theorem edge_of_mem_parts {parts : List (Tributary α)}
    (hedges : parts.map (·.edge) = g.edges.filter (·.target = i)) {t : Tributary α}
    (ht : t ∈ parts) : t.edge ∈ g.edges ∧ t.edge.target = i := by
  have hmem : t.edge ∈ g.edges.filter (·.target = i) := by
    rw [← hedges]
    exact List.mem_map_of_mem ht
  rw [List.mem_filter, decide_eq_true_eq] at hmem
  exact hmem

/-- Every edge into the vertex brings a part. -/
theorem exists_part_of_edge {parts : List (Tributary α)} {e : Edge α}
    (hedges : parts.map (·.edge) = g.edges.filter (·.target = i)) (he : e ∈ g.edges)
    (htarget : e.target = i) : ∃ t ∈ parts, t.edge = e := by
  refine List.mem_map.1 ?_
  rw [hedges]
  exact List.mem_filter.2 ⟨he, decide_eq_true htarget⟩

/-- There are parts exactly if something arrives at the vertex. -/
theorem parts_ne_nil_iff {parts : List (Tributary α)}
    (hedges : parts.map (·.edge) = g.edges.filter (·.target = i)) :
    parts ≠ [] ↔ ∃ j, g.digraph.Arrow j i := by
  constructor
  · intro hne
    obtain ⟨t, ht⟩ := List.exists_mem_of_ne_nil parts hne
    obtain ⟨he, htarget⟩ := edge_of_mem_parts hedges ht
    exact ⟨t.edge.source, arrow_iff.2 ⟨t.edge, he, rfl, htarget⟩⟩
  · intro ⟨j, hj⟩
    obtain ⟨e, he, -, htarget⟩ := arrow_iff.1 hj
    obtain ⟨t, ht, -⟩ := exists_part_of_edge hedges he htarget
    exact List.ne_nil_of_mem ht

theorem parts_ne_nil (hfed : g.Fed) {kind : VertexKind α} {parts : List (Tributary α)}
    (hi : g.Has i kind) (hkind : kind.group? = none)
    (hedges : parts.map (·.edge) = g.edges.filter (·.target = i)) : parts ≠ [] :=
  (parts_ne_nil_iff hedges).2 (hfed i kind hi hkind)

-- ================================================================ ways

/-- What is met on a way is the ingredients of a root, and the actions
along the edges from it. -/
def Meets (g : FlowGraph α) (i : Int) (c : List (Ingredient α) × List (Action α)) (r : Int) :
    Prop :=
  ∃ group, g.Has r (.root group) ∧ c.1 = group.ingredients ∧ Along g r i c.2

/-- The ways of a flow lead up from its roots, in their order. -/
theorem Builds.climbs (h : g.Builds i f roots) (hfed : g.Fed) :
    List.Forall₂ (g.Meets i) f.finish.climbs roots := by
  induction h with
  | @root i group hi =>
      have hclimbs : Flow.finish ⟨[], .group group.ingredients⟩ = leaf [] group.ingredients := rfl
      rw [hclimbs, climbs_leaf]
      exact .cons ⟨group, hi, rfl, .here⟩ .nil
  | @merge i kind parts hi hkind hedges hparts ih =>
      have hne : parts.map Tributary.carried ≠ [] := by
        rw [ne_eq, List.map_eq_nil_iff]
        exact parts_ne_nil hfed hi hkind hedges
      rw [Flow.climbs_merge hne, List.flatMap_map]
      refine forall₂_flatMap fun t ht => ?_
      obtain ⟨he, htarget⟩ := edge_of_mem_parts hedges ht
      rw [Tributary.carried, Flow.climbs_prolong, List.forall₂_map_left_iff]
      refine (ih t ht).imp fun c r hmeets => ?_
      obtain ⟨group, hr, hingredients, halong⟩ := hmeets
      refine ⟨group, hr, hingredients, ?_⟩
      rw [← htarget]
      exact halong.snoc rfl he

theorem Builds.fits (h : g.Builds i f roots) (hfed : g.Fed)
    (hgroups : ∀ i group, g.Has i (.root group) → group.ingredients ≠ []) : f.Fits := by
  induction h with
  | root hi => exact hgroups _ _ hi
  | @merge i kind parts hi hkind hedges hparts ih =>
      refine Flow.fits_merge ?_ fun f hf => ?_
      · rw [ne_eq, List.map_eq_nil_iff]
        exact parts_ne_nil hfed hi hkind hedges
      · obtain ⟨t, ht, rfl⟩ := List.mem_map.1 hf
        exact (ih t ht).prolong _

-- =============================================================== roots

/-- The roots of a flow are those that lead to its vertex. -/
theorem Builds.mem_roots_iff (h : g.Builds i f roots) (hg : g.WellFormed) {r : Int} :
    r ∈ roots ↔ (∃ group, g.Has r (.root group)) ∧ ReflTransGen g.digraph.Arrow r i := by
  induction h with
  | @root i group hi =>
      rw [List.mem_singleton]
      constructor
      · intro heq
        rw [heq]
        exact ⟨⟨group, hi⟩, .refl⟩
      · intro ⟨_, hpath⟩
        rcases hpath.cases_tail with heq | ⟨x, -, hx⟩
        · exact heq.symm
        · -- no edge enters a root
          obtain ⟨-, kind, hkind, hnone⟩ := hg.has_of_arrow hx
          rw [hg.labelled.unique hkind hi] at hnone
          cases hnone
  | @merge i kind parts hi hkind hedges hparts ih =>
      rw [List.mem_flatMap]
      constructor
      · intro ⟨t, ht, hr⟩
        obtain ⟨hroot, hpath⟩ := (ih t ht).1 hr
        obtain ⟨he, htarget⟩ := edge_of_mem_parts hedges ht
        exact ⟨hroot, hpath.tail (arrow_iff.2 ⟨t.edge, he, rfl, htarget⟩)⟩
      · intro ⟨⟨group, hr⟩, hpath⟩
        rcases hpath.cases_tail with rfl | ⟨x, hx, harrow⟩
        · rw [hg.labelled.unique hi hr] at hkind
          cases hkind
        · obtain ⟨e, he, rfl, htarget⟩ := arrow_iff.1 harrow
          obtain ⟨t, ht, rfl⟩ := exists_part_of_edge hedges he htarget
          exact ⟨t, ht, (ih t ht).2 ⟨⟨group, hr⟩, hx⟩⟩

/-- No root flows into a vertex twice: from two of its edges one would
get back to the vertex. -/
theorem Builds.nodup_roots (h : g.Builds i f roots) (hg : g.WellFormed) (hends : g.digraph.Ends i) :
    roots.Nodup := by
  have hsingle := hg.single_digraph
  induction h with
  | root => exact List.nodup_singleton _
  | @merge i kind parts hi hkind hedges hparts ih =>
      have harrow : ∀ t ∈ parts, g.digraph.Arrow t.edge.source i := by
        intro t ht
        obtain ⟨he, htarget⟩ := edge_of_mem_parts hedges ht
        exact arrow_iff.2 ⟨t.edge, he, rfl, htarget⟩
      -- Two edges into a vertex do not lie on one way, or it would lie on a loop.
      have hback : ∀ {s s'}, g.digraph.Arrow s i → g.digraph.Arrow s' i → s ≠ s' →
          ¬ ReflTransGen g.digraph.Arrow s s' := by
        intro s s' hs hs' hne hpath
        rcases hpath.cases_head with heq | ⟨x, hx, hpath⟩
        · exact hne heq
        · rw [← hsingle.unique hs hx] at hpath
          exact hends.not_loop hsingle (TransGen.tail' hpath hs')
      have hdistinct : parts.Pairwise fun t t' => t.edge.source ≠ t'.edge.source := by
        have hnodup : ((g.edges.filter (·.target = i)).map (·.source)).Nodup :=
          hg.single.sublist (List.filter_sublist.map _)
        rw [← hedges, List.map_map] at hnodup
        exact List.pairwise_map.1 hnodup
      rw [List.nodup_flatMap]
      refine ⟨fun t ht => ih t ht (hends.head (harrow t ht)), ?_⟩
      refine hdistinct.imp_of_mem fun {t t'} ht ht' hne r hr hr' => ?_
      have hpath := ((hparts t ht).mem_roots_iff hg).1 hr
      have hpath' := ((hparts t' ht').mem_roots_iff hg).1 hr'
      have hunique : Relator.RightUnique g.digraph.Arrow := fun _ _ _ h h' => hsingle.unique h h'
      -- From a root one way leads on, so one of the two sources lies behind the other.
      rcases ReflTransGen.total_of_right_unique hunique hpath.2 hpath'.2 with hway | hway
      · exact hback (harrow t ht) (harrow t' ht') hne hway
      · exact hback (harrow t' ht') (harrow t ht) hne.symm hway

-- ============================================================= waiting

/-- A flow that is taken waited for the vertex, and all others go on
waiting. -/
theorem take_eq_ok_iff {w rest : Waiting α} {i : Int} {f : Flow α} :
    w.take i = .ok (f, rest) ↔ w.lookup i = some f ∧ rest = w.filter (·.1 ≠ i) := by
  unfold Waiting.take
  cases w.lookup i with
  | none => simp
  | some f' => simp [eq_comm]

/-- Flows that all wait, out of different vertices, are collected, and the
others go on waiting. -/
theorem collect_spec {w : Waiting α} {edges : List (Edge α)}
    (hsources : (edges.map (·.source)).Nodup) (hwaits : ∀ e ∈ edges, e.source ∈ w.map Prod.fst) :
    ∃ flows : List (Edge α × Flow α), flows.map Prod.fst = edges
      ∧ (∀ x ∈ flows, (x.1.source, x.2) ∈ w)
      ∧ w.collect edges = .ok (flows.map fun x => x.2.prolong x.1.actions,
          w.filter fun x => x.1 ∉ edges.map (·.source)) := by
  induction edges generalizing w with
  | nil =>
      refine ⟨[], rfl, fun x hx => absurd hx List.not_mem_nil, ?_⟩
      simp [Waiting.collect]
  | cons e edges ih =>
      rw [List.map_cons, List.nodup_cons] at hsources
      rw [List.forall_mem_cons] at hwaits
      obtain ⟨f, hf⟩ : ∃ f, w.lookup e.source = some f := by
        rw [← Option.isSome_iff_exists, List.lookup_isSome_iff]
        obtain ⟨x, hx, hkey⟩ := List.mem_map.1 hwaits.1
        exact ⟨x, hx, beq_iff_eq.2 hkey.symm⟩
      have hmem : (e.source, f) ∈ w := mem_of_lookup hf
      -- The sources differ, so no other flow that is to be collected goes with the first.
      have hwaits' : ∀ e' ∈ edges, e'.source ∈ (w.filter (·.1 ≠ e.source)).map Prod.fst := by
        intro e' he'
        obtain ⟨x, hx, hkey⟩ := List.mem_map.1 (hwaits.2 e' he')
        have hne : x.1 ≠ e.source := by
          intro heq
          apply hsources.1
          rw [← heq, hkey]
          exact List.mem_map_of_mem he'
        exact List.mem_map.2 ⟨x, List.mem_filter.2 ⟨hx, decide_eq_true hne⟩, hkey⟩
      obtain ⟨flows, hflows, hall, hcollect⟩ := ih hsources.2 hwaits'
      refine ⟨(e, f) :: flows, ?_, ?_, ?_⟩
      · rw [List.map_cons, hflows]
      · rw [List.forall_mem_cons]
        refine ⟨hmem, fun x hx => ?_⟩
        exact (List.mem_filter.1 (hall x hx)).1
      · have htake : w.take e.source = .ok (f, w.filter (·.1 ≠ e.source)) :=
          take_eq_ok_iff.2 ⟨hf, rfl⟩
        have hrest : (w.filter (·.1 ≠ e.source)).filter (fun x => x.1 ∉ edges.map (·.source))
            = w.filter fun x => x.1 ∉ (e :: edges).map (·.source) := by
          rw [List.filter_filter]
          refine List.filter_congr fun x _ => ?_
          rw [Bool.eq_iff_iff, Bool.and_eq_true]
          simp only [decide_eq_true_eq, List.map_cons, List.mem_cons, not_or]
          exact and_comm
        rw [← hrest]
        exact bind_eq_ok_iff.2 ⟨_, htake, bind_eq_ok_iff.2 ⟨_, hcollect, rfl⟩⟩

/-- What waits after so many vertices: the flows out of those of which the
edge leads to none of them. -/
structure Ready (g : FlowGraph α) (visited : List Int) (w : Waiting α) : Prop where
  nodup : (w.map Prod.fst).Nodup
  waits : ∀ v, v ∈ w.map Prod.fst ↔ v ∈ visited ∧ ∀ j, g.digraph.Arrow v j → j ∉ visited
  builds : ∀ x ∈ w, ∃ roots, g.Builds x.1 x.2 roots

/-- The incoming edges of a vertex are the edges that enter it. -/
theorem WellFormed.incomingEdges_eq (h : g.WellFormed) {v : Vertex α} (hv : v ∈ g.vertices) :
    g.incomingEdges v.id = .ok (g.edges.filter (·.target = v.id)) := by
  rw [incomingEdges, h.labelled.vertex_eq hv]
  exact h.mapM_incoming hv

/-- What is put beside flows out of other vertices replaces none. -/
theorem put_eq_cons {w : Waiting α} {v : Int} (hfresh : v ∉ w.map Prod.fst) :
    w.put v f = (v, f) :: w := by
  have hsame : w.filter (·.1 ≠ v) = w := by
    rw [List.filter_eq_self]
    intro x hx
    refine decide_eq_true fun heq => hfresh ?_
    rw [← heq]
    exact List.mem_map_of_mem hx
  rw [Waiting.put, hsame]

theorem Ready.put {w : Waiting α} {v : Int} (hnodup : (w.map Prod.fst).Nodup)
    (hnew : v ∉ visited) (hout : ∀ j, g.digraph.Arrow v j → j ∉ visited ++ [v])
    (hwaits : ∀ u, u ∈ w.map Prod.fst ↔ u ∈ visited ∧ ∀ j, g.digraph.Arrow u j → j ∉ visited ++ [v])
    (hbuilds : ∀ x ∈ w, ∃ roots, g.Builds x.1 x.2 roots) (hf : g.Builds v f roots) :
    Ready g (visited ++ [v]) (w.put v f) := by
  have hfresh : v ∉ w.map Prod.fst := fun hmem => hnew ((hwaits v).1 hmem).1
  rw [put_eq_cons hfresh]
  constructor
  · exact List.nodup_cons.2 ⟨hfresh, hnodup⟩
  · intro u
    rw [List.map_cons, List.mem_cons, hwaits, List.mem_append, List.mem_singleton]
    constructor
    · intro hu
      rcases hu with rfl | ⟨hu, hall⟩
      · exact ⟨.inr rfl, hout⟩
      · exact ⟨.inl hu, hall⟩
    · intro ⟨hu, hall⟩
      rcases hu with hu | rfl
      · exact .inr ⟨hu, hall⟩
      · exact .inl rfl
  · rw [List.forall_mem_cons]
    exact ⟨⟨roots, hf⟩, hbuilds⟩

section Visit

variable {w : Waiting α} {v : Int}

theorem WellFormed.visit_of_root (h : g.WellFormed) {group : Group α} (hv : g.Has v (.root group)) :
    g.visit w v = .ok (w.put v ⟨[], .group group.ingredients⟩) := by
  obtain ⟨vertex, hmem, rfl, hkind⟩ := exists_vertex hv
  refine bind_eq_ok_iff.2 ⟨vertex, h.labelled.vertex_eq hmem, ?_⟩
  simp only [hkind]
  rfl

theorem WellFormed.visit_of_merge (h : g.WellFormed) {kind : VertexKind α} (hv : g.Has v kind)
    (hkind : kind.group? = none) {flows : List (Flow α)} {w' : Waiting α}
    (hcollect : w.collect (g.edges.filter (·.target = v)) = .ok (flows, w')) :
    g.visit w v = .ok (w'.put v (.merge flows)) := by
  obtain ⟨vertex, hmem, rfl, rfl⟩ := exists_vertex hv
  refine bind_eq_ok_iff.2 ⟨vertex, h.labelled.vertex_eq hmem, ?_⟩
  have hrest : (g.incomingEdges vertex.id >>= fun edges => w.collect edges >>= fun x =>
      (.ok (x.2.put vertex.id (.merge x.1)) : Except Fault (Waiting α)))
        = .ok (w'.put vertex.id (.merge flows)) :=
    bind_eq_ok_iff.2 ⟨_, h.incomingEdges_eq hmem, bind_eq_ok_iff.2 ⟨_, hcollect, rfl⟩⟩
  cases hvertex : vertex.kind with
  | root group =>
      rw [hvertex] at hkind
      cases hkind
  | terminal => exact hrest
  | join name => exact hrest

/-- A root comes up: its ingredients wait. -/
theorem Ready.root (hready : Ready g visited w) (h : g.WellFormed) {group : Group α}
    (hv : g.Has v (.root group)) (hnew : v ∉ visited)
    (hout : ∀ j, g.digraph.Arrow v j → j ∉ visited ++ [v]) :
    Ready g (visited ++ [v]) (w.put v ⟨[], .group group.ingredients⟩) := by
  refine .put hready.nodup hnew hout (fun u => ?_) hready.builds (.root hv)
  rw [hready.waits]
  refine and_congr_right fun _ => forall₂_congr fun j hj => ?_
  rw [List.mem_append, List.mem_singleton, not_or]
  -- no edge enters a root
  refine ⟨fun hvisited => ⟨hvisited, fun heq => ?_⟩, fun hboth => hboth.1⟩
  obtain ⟨-, kind, hhas, hnone⟩ := h.has_of_arrow hj
  rw [heq] at hhas
  rw [h.labelled.unique hhas hv] at hnone
  cases hnone

/-- What waits can be told from the graph, and so can what is collected. -/
theorem Ready.exists_parts (hready : Ready g visited w) {flows : List (Edge α × Flow α)}
    (hall : ∀ x ∈ flows, (x.1.source, x.2) ∈ w) :
    ∃ parts : List (Tributary α), parts.map (·.edge) = flows.map Prod.fst
      ∧ parts.map Tributary.carried = flows.map (fun x => x.2.prolong x.1.actions)
      ∧ ∀ t ∈ parts, g.Builds t.edge.source t.flow t.roots := by
  induction flows with
  | nil => exact ⟨[], rfl, rfl, fun t ht => absurd ht List.not_mem_nil⟩
  | cons x flows ih =>
      rw [List.forall_mem_cons] at hall
      obtain ⟨parts, hedges, hcarried, hbuilds⟩ := ih hall.2
      obtain ⟨roots, hroots⟩ := hready.builds _ hall.1
      refine ⟨⟨x.1, x.2, roots⟩ :: parts, ?_, ?_, ?_⟩
      · rw [List.map_cons, hedges, List.map_cons]
      · rw [List.map_cons, hcarried, List.map_cons]
        rfl
      · rw [List.forall_mem_cons]
        exact ⟨hroots, hbuilds⟩

/-- What waits when the flows into a vertex are collected. -/
theorem mem_rest_iff {u : Int} :
    u ∈ (w.filter fun x => x.1 ∉ (g.edges.filter (·.target = v)).map (·.source)).map Prod.fst
      ↔ u ∈ w.map Prod.fst ∧ ¬ g.digraph.Arrow u v := by
  have hsource : u ∈ (g.edges.filter (·.target = v)).map (·.source) ↔ g.digraph.Arrow u v := by
    rw [arrow_iff, List.mem_map]
    simp only [List.mem_filter, decide_eq_true_eq]
    constructor
    · intro ⟨e, ⟨he, htarget⟩, hsource⟩
      exact ⟨e, he, hsource, htarget⟩
    · intro ⟨e, he, hsource, htarget⟩
      exact ⟨e, ⟨he, htarget⟩, hsource⟩
  rw [← hsource, List.mem_map, List.mem_map]
  constructor
  · intro ⟨x, hx, heq⟩
    rw [List.mem_filter, decide_eq_true_eq, heq] at hx
    exact ⟨⟨x, hx.1, heq⟩, hx.2⟩
  · intro ⟨⟨x, hx, heq⟩, hnot⟩
    refine ⟨x, List.mem_filter.2 ⟨hx, decide_eq_true ?_⟩, heq⟩
    rwa [heq]

/-- Another vertex comes up, of which the edges come from visited
vertices: the flows into it merge. -/
theorem Ready.merge (hready : Ready g visited w) (h : g.WellFormed) {kind : VertexKind α}
    (hv : g.Has v kind) (hkind : kind.group? = none) (hnew : v ∉ visited)
    (hin : ∀ i, g.digraph.Arrow i v → i ∈ visited)
    (hout : ∀ j, g.digraph.Arrow v j → j ∉ visited ++ [v]) :
    ∃ w', g.visit w v = .ok w' ∧ Ready g (visited ++ [v]) w' := by
  have hsources : ((g.edges.filter (·.target = v)).map (·.source)).Nodup :=
    h.single.sublist (List.filter_sublist.map _)
  -- What flows in has been visited, and has nowhere else to go.
  have hwaits : ∀ e ∈ g.edges.filter (·.target = v), e.source ∈ w.map Prod.fst := by
    intro e he
    rw [List.mem_filter, decide_eq_true_eq] at he
    have harrow : g.digraph.Arrow e.source v := arrow_iff.2 ⟨e, he.1, rfl, he.2⟩
    rw [hready.waits]
    refine ⟨hin _ harrow, fun j hj => ?_⟩
    rw [h.single_digraph.unique hj harrow]
    exact hnew
  obtain ⟨flows, hflows, hall, hcollect⟩ := collect_spec hsources hwaits
  obtain ⟨parts, hparts, hcarried, hbuilds⟩ := hready.exists_parts hall
  refine ⟨_, h.visit_of_merge hv hkind hcollect, ?_⟩
  have hmerged := Builds.merge hv hkind (hparts.trans hflows) hbuilds
  rw [hcarried] at hmerged
  refine .put ?_ hnew hout (fun u => ?_) (fun x hx => ?_) hmerged
  · exact hready.nodup.sublist (List.filter_sublist.map _)
  · rw [mem_rest_iff, hready.waits, and_assoc]
    refine and_congr_right fun _ => ?_
    constructor
    · intro ⟨hvisited, hnot⟩ j hj hmem
      rcases List.mem_append.1 hmem with hmem | hmem
      · exact hvisited j hj hmem
      · rw [List.mem_singleton.1 hmem] at hj
        exact hnot hj
    · intro hboth
      refine ⟨fun j hj hmem => hboth j hj (List.mem_append_left _ hmem), fun hj => ?_⟩
      exact hboth v hj (List.mem_append_right _ (List.mem_singleton_self v))
  · exact hready.builds x (List.mem_filter.1 hx).1

/-- One vertex comes up. -/
theorem Ready.visit (hready : Ready g visited w) (h : g.WellFormed) {kind : VertexKind α}
    (hv : g.Has v kind) (hnew : v ∉ visited) (hin : ∀ i, g.digraph.Arrow i v → i ∈ visited)
    (hout : ∀ j, g.digraph.Arrow v j → j ∉ visited ++ [v]) :
    ∃ w', g.visit w v = .ok w' ∧ Ready g (visited ++ [v]) w' := by
  cases kind with
  | root group => exact ⟨_, h.visit_of_root hv, hready.root h hv hnew hout⟩
  | terminal => exact hready.merge h hv rfl hnew hin hout
  | join name => exact hready.merge h hv rfl hnew hin hout

end Visit

-- ============================================================= assembly

/-- All vertices come up, in an order in which edges lead forward. -/
theorem Ready.run {order rest : List Int} {w : Waiting α} (hready : Ready g visited w)
    (h : g.WellFormed) (hsplit : order = visited ++ rest) (hperm : order.Perm g.digraph.nodes)
    (hforward : Forward g.digraph.arrows order) :
    ∃ w', rest.foldlM g.visit w = .ok w' ∧ Ready g order w' := by
  induction rest generalizing visited w with
  | nil =>
      rw [List.append_nil] at hsplit
      rw [hsplit]
      exact ⟨w, rfl, hready⟩
  | cons v rest ih =>
      have hnodup : order.Nodup := hperm.nodup_iff.2 h.nodup_nodes
      have hnew : v ∉ visited := by
        rw [hsplit, List.nodup_append] at hnodup
        exact fun hmem => hnodup.2.2 v hmem v List.mem_cons_self rfl
      have hin : ∀ i, g.digraph.Arrow i v → i ∈ visited :=
        fun i hi => hforward (i, v) hi visited rest hsplit
      have hout : ∀ j, g.digraph.Arrow v j → j ∉ visited ++ [v] :=
        fun j hj => Forward.not_mem (hsplit ▸ hforward) hnew hj
      have hv : v ∈ g.digraph.nodes := by
        rw [← hperm.mem_iff, hsplit]
        exact List.mem_append_right _ List.mem_cons_self
      obtain ⟨kind, hkind⟩ := h.mem_nodes_iff.1 hv
      obtain ⟨w', hvisit, hready'⟩ := hready.visit h hkind hnew hin hout
      have hsplit' : order = visited ++ [v] ++ rest := by
        rw [hsplit, List.append_assoc]
        rfl
      obtain ⟨w'', hrun, hfinal⟩ := ih hready' hsplit'
      refine ⟨w'', ?_, hfinal⟩
      rw [List.foldlM_cons, hvisit]
      exact hrun

theorem Ready.nil (g : FlowGraph α) : Ready g [] [] := by
  refine ⟨List.nodup_nil, fun v => ?_, fun x hx => absurd hx List.not_mem_nil⟩
  simp

/-- In an order in which edges lead forward, the flow into the terminal is
assembled, and its tree is checked. -/
theorem WellFormed.assemble_eq (h : g.WellFormed) {order : List Int}
    (hperm : order.Perm g.digraph.nodes) (hforward : Forward g.digraph.arrows order) :
    ∃ f roots, g.Builds terminalId f roots ∧ g.assemble order
      = (StepTree.root f.finish).check >>= fun _ => .ok (StepTree.root f.finish) := by
  obtain ⟨w, hrun, hready⟩ := (Ready.nil g).run h (List.nil_append order).symm hperm hforward
  have hwaits : terminalId ∈ w.map Prod.fst := by
    rw [hready.waits, hperm.mem_iff, h.mem_nodes_iff]
    exact ⟨⟨.terminal, h.labelled.has_terminal⟩, fun j hj => absurd hj h.not_arrow_terminal⟩
  obtain ⟨⟨i, f⟩, hx, rfl⟩ := List.mem_map.1 hwaits
  have hlookup : w.lookup terminalId = some f := (lookup_iff_mem hready.nodup).2 hx
  obtain ⟨roots, hbuilds⟩ := hready.builds _ hx
  refine ⟨f, roots, hbuilds, ?_⟩
  rw [assemble, hrun]
  show (w.take terminalId >>= fun x => _) = _
  rw [take_eq_ok_iff.2 ⟨hlookup, rfl⟩]
  rfl

/-- Where roots are not empty and all else is fed, the tree passes. -/
theorem Builds.check_eq_ok (h : g.Builds i f roots) (hfed : g.Fed)
    (hgroups : ∀ i group, g.Has i (.root group) → group.ingredients ≠ []) :
    (StepTree.root f.finish).check = .ok () :=
  check_root (Flow.fits_finish (h.fits hfed hgroups))

end FlowGraph

end RecipeChart
