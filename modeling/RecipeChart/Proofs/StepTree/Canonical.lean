/-
The assembly does not depend on its order. What flows out of a vertex can
be said backwards, by recursion along the edges: out of a root its
ingredients, out of a vertex that one edge enters the flow of that edge,
prolonged, and out of a vertex that several edges enter a new flow over
their finished nodes. In a graph of sound rules this gives one flow for
each vertex.

The invariant of the assembly is that whatever waits is the flow out of
the vertex that it waits for. A visit keeps it, whichever vertex comes up
and whatever waits by then, so no order, with vertices left out or taken
twice, can lead to another tree. An order may only miss a flow. What waits
comes from vertices that were visited, so a visit that misses nothing has
all sources behind it: of the orders of all vertices, those that come to a
tree are the ones in which every edge leads forward.
-/
import RecipeChart.Proofs.Verdict

namespace RecipeChart

open FlowGraph RecipeChart.Digraph

variable {α : Type}

namespace FlowGraph

-- ============================================================= backwards

/-- The flow out of the vertex, told from the flows into it. The edges
that enter it stand in the order in which they were drawn. -/
inductive FlowsOut (g : FlowGraph α) : Int → Flow α → Prop where
  | root {i : Int} {v : Vertex α} {group : Group α} (hv : g.vertex i = .ok v)
      (hkind : v.kind = .root group) : FlowsOut g i ⟨[], .group group.ingredients⟩
  | single {i : Int} {v : Vertex α} {e : Edge α} {f : Flow α} (hv : g.vertex i = .ok v)
      (hkind : v.kind.group? = none) (hedges : g.incomingEdges i = .ok [e])
      (hf : FlowsOut g e.source f) : FlowsOut g i (f.prolong e.actions)
  | several {i : Int} {v : Vertex α} {parts : List (Edge α × Flow α)} (hv : g.vertex i = .ok v)
      (hkind : v.kind.group? = none) (hedges : g.incomingEdges i = .ok (parts.map Prod.fst))
      (htwo : 2 ≤ parts.length) (hparts : ∀ p ∈ parts, FlowsOut g p.1.source p.2) :
      FlowsOut g i ⟨[], .branches (parts.map fun p => (p.2.prolong p.1.actions).finish)⟩

variable {g : FlowGraph α} {i : Int} {v : Vertex α} {w w' : Waiting α} {order : List Int}

/-- What several flows, or one, merge into. -/
theorem FlowsOut.merge {parts : List (Edge α × Flow α)} (hv : g.vertex i = .ok v)
    (hkind : v.kind.group? = none) (hedges : g.incomingEdges i = .ok (parts.map Prod.fst))
    (hne : parts ≠ []) (hparts : ∀ p ∈ parts, g.FlowsOut p.1.source p.2) :
    g.FlowsOut i (.merge (parts.map fun p => p.2.prolong p.1.actions)) := by
  match parts with
  | [] => exact absurd rfl hne
  | [p] => exact .single hv hkind hedges (hparts p List.mem_cons_self)
  | p :: q :: rest =>
      have htwo : 2 ≤ (p :: q :: rest).length := by
        rw [List.length_cons, List.length_cons]
        omega
      have hflow := FlowsOut.several hv hkind hedges htwo hparts
      rw [show (fun p : Edge α × Flow α => (p.2.prolong p.1.actions).finish)
        = Flow.finish ∘ fun p => p.2.prolong p.1.actions from rfl, ← List.map_map] at hflow
      exact hflow

/-- There is one flow out of a vertex at most. -/
theorem FlowsOut.unique {f f' : Flow α} (h : g.FlowsOut i f) (h' : g.FlowsOut i f') : f = f' := by
  -- The kind of the vertex and the count of the edges into it tell which rule applies.
  induction h generalizing f' with
  | root hv hkind =>
      cases h' with
      | root hv' hkind' =>
          cases hv.symm.trans hv'
          cases hkind.symm.trans hkind'
          rfl
      | single hv' hkind' =>
          cases hv.symm.trans hv'
          rw [hkind] at hkind'
          cases hkind'
      | several hv' hkind' =>
          cases hv.symm.trans hv'
          rw [hkind] at hkind'
          cases hkind'
  | single hv hkind hedges _ ih =>
      cases h' with
      | root hv' hkind' =>
          cases hv.symm.trans hv'
          rw [hkind'] at hkind
          cases hkind
      | single _ _ hedges' hf' =>
          cases hedges.symm.trans hedges'
          rw [ih hf']
      | several _ _ hedges' htwo' =>
          have hone := congrArg List.length (Except.ok.inj (hedges.symm.trans hedges'))
          rw [List.length_singleton, List.length_map] at hone
          omega
  | several hv hkind hedges htwo _ ih =>
      cases h' with
      | root hv' hkind' =>
          cases hv.symm.trans hv'
          rw [hkind'] at hkind
          cases hkind
      | single _ _ hedges' _ =>
          have hone := congrArg List.length (Except.ok.inj (hedges.symm.trans hedges'))
          rw [List.length_singleton, List.length_map] at hone
          omega
      | several _ _ hedges' _ hparts' =>
          have hsame := Except.ok.inj (hedges.symm.trans hedges')
          rw [eq_of_map_fst (R := fun e f => g.FlowsOut e.source f) hsame
            (fun p hp f hf => ih p hp hf) hparts']

-- ============================================================== look-up

/-- What a number leads to stands in the table. -/
theorem mem_of_vertex (h : g.vertex i = .ok v) : v ∈ g.vertices := by
  unfold vertex at h
  cases hrow : Rows.row? g.vertices i with
  | none =>
      rw [hrow] at h
      cases h
  | some v' =>
      rw [hrow] at h
      cases h
      obtain ⟨place, -, hplace⟩ := Option.bind_eq_some_iff.1 hrow
      exact List.mem_of_getElem? hplace

/-- By whichever number a vertex is looked up, the edges that enter it are
those that lead to it. -/
theorem WellFormed.incomingEdges_of_vertex (h : g.WellFormed) (hv : g.vertex i = .ok v) :
    g.incomingEdges i = .ok (g.edges.filter (·.target = v.id)) := by
  have hmem := mem_of_vertex hv
  rw [← h.incomingEdges_eq hmem, incomingEdges, incomingEdges, hv, h.labelled.vertex_eq hmem]

/-- In a graph that is fed, something enters whatever is no root. -/
theorem incomingEdges_ne_nil (h : g.WellFormed) (hfed : g.Fed) (hv : g.vertex i = .ok v)
    (hkind : v.kind.group? = none) : g.incomingEdges i ≠ .ok [] := by
  rw [h.incomingEdges_of_vertex hv]
  intro hnil
  obtain ⟨j, hj⟩ := hfed v.id v.kind (has_of_mem (mem_of_vertex hv)) hkind
  obtain ⟨e, he, -, htarget⟩ := arrow_iff.1 hj
  have hmem : e ∈ g.edges.filter (·.target = v.id) :=
    List.mem_filter.2 ⟨he, decide_eq_true htarget⟩
  rw [Except.ok.inj hnil] at hmem
  cases hmem

-- =============================================================== visits

/-- What is taken was waiting, and what waits then was waiting. -/
theorem mem_of_take {f : Flow α} {rest : Waiting α} (h : w.take i = .ok (f, rest)) :
    (i, f) ∈ w ∧ ∀ x ∈ rest, x ∈ w := by
  obtain ⟨hlookup, rfl⟩ := take_eq_ok_iff.1 h
  exact ⟨mem_of_lookup hlookup, fun x hx => (List.mem_filter.1 hx).1⟩

/-- Flows that were collected had waited, each for the source of its
edge. -/
theorem parts_of_collect {edges : List (Edge α)} {flows : List (Flow α)} {rest : Waiting α}
    (h : w.collect edges = .ok (flows, rest)) :
    ∃ parts : List (Edge α × Flow α), parts.map Prod.fst = edges
      ∧ flows = parts.map (fun p => p.2.prolong p.1.actions)
      ∧ (∀ p ∈ parts, (p.1.source, p.2) ∈ w) ∧ ∀ x ∈ rest, x ∈ w := by
  induction edges generalizing w flows with
  | nil =>
      cases h
      exact ⟨[], rfl, rfl, fun p hp => absurd hp List.not_mem_nil, fun x hx => hx⟩
  | cons e edges ih =>
      obtain ⟨⟨f, w₁⟩, htake, h⟩ := bind_eq_ok_iff.1 h
      obtain ⟨⟨flows', w₂⟩, hcollect, h⟩ := bind_eq_ok_iff.1 h
      cases h
      obtain ⟨hf, hkept⟩ := mem_of_take htake
      obtain ⟨parts, hedges, hflows, hparts, hrest⟩ := ih hcollect
      refine ⟨(e, f) :: parts, ?_, ?_, ?_, fun x hx => hkept x (hrest x hx)⟩
      · rw [List.map_cons, hedges]
      · rw [List.map_cons, hflows]
      · rw [List.forall_mem_cons]
        exact ⟨hf, fun p hp => hkept _ (hparts p hp)⟩

/-- What a visit does: a root waits with its ingredients, and any other
vertex with what was collected along its edges. -/
theorem visit_cases (h : g.visit w i = .ok w') :
    ∃ v, g.vertex i = .ok v
      ∧ ((∃ group, v.kind = .root group ∧ w' = w.put i ⟨[], .group group.ingredients⟩)
        ∨ v.kind.group? = none ∧ ∃ edges flows rest, g.incomingEdges i = .ok edges
          ∧ w.collect edges = .ok (flows, rest) ∧ w' = rest.put i (.merge flows)) := by
  obtain ⟨v, hv, h⟩ := bind_eq_ok_iff.1 h
  refine ⟨v, hv, ?_⟩
  have hmerge : (g.incomingEdges i >>= fun edges => w.collect edges >>= fun x =>
      (.ok (x.2.put i (.merge x.1)) : Except Fault (Waiting α))) = .ok w' →
        ∃ edges flows rest, g.incomingEdges i = .ok edges
          ∧ w.collect edges = .ok (flows, rest) ∧ w' = rest.put i (.merge flows) := by
    intro hrun
    obtain ⟨edges, hedges, hrun⟩ := bind_eq_ok_iff.1 hrun
    obtain ⟨⟨flows, rest⟩, hcollect, hrun⟩ := bind_eq_ok_iff.1 hrun
    cases hrun
    exact ⟨edges, flows, rest, hedges, hcollect, rfl⟩
  cases hkind : v.kind with
  | root group =>
      simp only [hkind] at h
      cases h
      exact .inl ⟨group, rfl, rfl⟩
  | terminal =>
      simp only [hkind] at h
      exact .inr ⟨rfl, hmerge h⟩
  | join name =>
      simp only [hkind] at h
      exact .inr ⟨rfl, hmerge h⟩

/-- What waits once a flow is put is that flow or was waiting. -/
theorem mem_put {f : Flow α} {x : Int × Flow α} (h : x ∈ w.put i f) : x = (i, f) ∨ x ∈ w := by
  rcases List.mem_cons.1 h with hx | hx
  · exact .inl hx
  · exact .inr (List.mem_filter.1 hx).1

/-- Does each flow that waits flow out of the vertex that it waits for? -/
def Settled (g : FlowGraph α) (w : Waiting α) : Prop := ∀ x ∈ w, g.FlowsOut x.1 x.2

/-- A flow that flows out of its vertex may be put. -/
theorem Settled.put {f : Flow α} (h : Settled g w) (hf : g.FlowsOut i f) :
    Settled g (w.put i f) := by
  intro x hx
  rcases mem_put hx with rfl | hx
  · exact hf
  · exact h x hx

/-- A visit leaves the right flows waiting, whatever vertex comes up. -/
theorem Settled.visit (hsettled : Settled g w) (h : g.WellFormed) (hfed : g.Fed)
    (hvisit : g.visit w i = .ok w') : Settled g w' := by
  obtain ⟨v, hv, ⟨group, hkind, rfl⟩ | ⟨hkind, edges, flows, rest, hedges, hcollect, rfl⟩⟩ :=
    visit_cases hvisit
  · exact hsettled.put (.root hv hkind)
  · obtain ⟨parts, rfl, rfl, hparts, hrest⟩ := parts_of_collect hcollect
    have hne : parts ≠ [] := by
      intro hnil
      rw [hnil] at hedges
      exact incomingEdges_ne_nil h hfed hv hkind hedges
    have hbelow : Settled g rest := fun x hx => hsettled x (hrest x hx)
    exact hbelow.put (.merge hv hkind hedges hne fun p hp => hsettled _ (hparts p hp))

/-- The invariant over a whole run of visits. -/
theorem Settled.run (hsettled : Settled g w) (h : g.WellFormed) (hfed : g.Fed)
    (hrun : order.foldlM g.visit w = .ok w') : Settled g w' := by
  induction order generalizing w with
  | nil =>
      cases hrun
      exact hsettled
  | cons i order ih =>
      rw [List.foldlM_cons] at hrun
      obtain ⟨w₁, hvisit, hrun⟩ := bind_eq_ok_iff.1 hrun
      exact ih (hsettled.visit h hfed hvisit) hrun

/-- Any order that comes to a tree comes to that of the flow out of the
terminal. -/
theorem flowsOut_of_assemble (h : g.WellFormed) (hfed : g.Fed) {t : StepTree α}
    (hassemble : g.assemble order = .ok t) :
    ∃ top, g.FlowsOut terminalId top ∧ t = .root top.finish := by
  obtain ⟨w, hrun, hassemble⟩ := bind_eq_ok_iff.1 hassemble
  obtain ⟨⟨top, rest⟩, htake, hassemble⟩ := bind_eq_ok_iff.1 hassemble
  obtain ⟨-, -, hassemble⟩ := bind_eq_ok_iff.1 hassemble
  cases hassemble
  have hsettled : Settled g w :=
    Settled.run (fun x hx => absurd hx List.not_mem_nil) h hfed hrun
  exact ⟨top, hsettled _ (mem_of_take htake).1, rfl⟩

-- ============================================================= forwards

/-- What waits comes from vertices that were visited. -/
theorem key_mem_of_run {visited rest : List Int} (hkeys : ∀ x ∈ w, x.1 ∈ visited)
    (hrun : rest.foldlM g.visit w = .ok w') : ∀ x ∈ w', x.1 ∈ visited ++ rest := by
  induction rest generalizing visited w with
  | nil =>
      cases hrun
      rw [List.append_nil]
      exact hkeys
  | cons i rest ih =>
      rw [List.foldlM_cons] at hrun
      obtain ⟨w₁, hvisit, hrun⟩ := bind_eq_ok_iff.1 hrun
      rw [List.append_cons]
      refine ih (fun x hx => ?_) hrun
      have hcases : x.1 = i ∨ x ∈ w := by
        obtain ⟨v, -, ⟨group, -, rfl⟩ | ⟨-, edges, flows, kept, -, hcollect, rfl⟩⟩ :=
          visit_cases hvisit
        · exact (mem_put hx).imp_left (congrArg Prod.fst)
        · obtain ⟨-, -, -, -, hkept⟩ := parts_of_collect hcollect
          exact (mem_put hx).imp (congrArg Prod.fst) (hkept x)
      rcases hcases with rfl | hx
      · exact List.mem_append_right _ List.mem_cons_self
      · exact List.mem_append_left _ (hkeys x hx)

/-- In an order that misses no flow, edges lead forward. -/
theorem WellFormed.forward_of_run (h : g.WellFormed) (hrun : order.foldlM g.visit [] = .ok w) :
    Forward g.digraph.arrows order := by
  intro a ha pre post hsplit
  have harrow : g.digraph.Arrow a.1 a.2 := ha
  rw [hsplit, List.foldlM_append] at hrun
  obtain ⟨w₁, hpre, hrun⟩ := bind_eq_ok_iff.1 hrun
  rw [List.foldlM_cons] at hrun
  obtain ⟨w₂, hvisit, -⟩ := bind_eq_ok_iff.1 hrun
  have hkeys : ∀ x ∈ w₁, x.1 ∈ [] ++ pre :=
    key_mem_of_run (fun x hx => absurd hx List.not_mem_nil) hpre
  obtain ⟨-, kind, hkind, hnone⟩ := h.has_of_arrow harrow
  obtain ⟨u, hu, hid, rfl⟩ := exists_vertex hkind
  have hlookup := h.labelled.vertex_eq hu
  rw [hid] at hlookup
  obtain ⟨v, hv, ⟨group, hroot, -⟩ | ⟨-, edges, flows, rest, hedges, hcollect, -⟩⟩ :=
    visit_cases hvisit
  · cases hlookup.symm.trans hv
    rw [hroot] at hnone
    cases hnone
  · rw [h.incomingEdges_of_vertex hlookup, hid] at hedges
    cases hedges
    obtain ⟨e, he, hsource, htarget⟩ := arrow_iff.1 harrow
    obtain ⟨parts, hparts, -, hwaits, -⟩ := parts_of_collect hcollect
    -- The edge's flow was taken out as the vertex was visited, so it had come up before.
    have hmem : e ∈ parts.map Prod.fst := by
      rw [hparts]
      exact List.mem_filter.2 ⟨he, decide_eq_true htarget⟩
    obtain ⟨p, hp, rfl⟩ := List.mem_map.1 hmem
    rw [← hsource]
    exact hkeys _ (hwaits p hp)

-- =============================================================== misses

/-- Is a missing flow the only way to fail? -/
def OnlyMisses {β : Type} (x : Except Fault β) : Prop :=
  ∀ fault, x = .error fault → ∃ u, fault = .missingFlow u

theorem OnlyMisses.ok {β : Type} (b : β) : OnlyMisses (.ok b) := fun _ h => nomatch h

/-- Steps that can only miss a flow can only miss one together. -/
theorem OnlyMisses.bind {β γ : Type} {x : Except Fault β} {f : β → Except Fault γ}
    (hx : OnlyMisses x) (hf : ∀ b, x = .ok b → OnlyMisses (f b)) : OnlyMisses (x >>= f) := by
  cases x with
  | error fault =>
      intro fault' h
      cases h
      exact hx fault rfl
  | ok b => exact hf b rfl

/-- To take a flow can only fail where it is missing. -/
theorem onlyMisses_take (w : Waiting α) (i : Int) : OnlyMisses (w.take i) := by
  unfold Waiting.take
  intro fault h
  split at h
  · cases h
  · cases h
    exact ⟨i, rfl⟩

/-- To collect several can only fail where one is missing. -/
theorem onlyMisses_collect (w : Waiting α) (edges : List (Edge α)) :
    OnlyMisses (w.collect edges) := by
  induction edges generalizing w with
  | nil => exact .ok _
  | cons e edges ih =>
      refine (onlyMisses_take w e.source).bind fun x _ => ?_
      exact (ih x.2).bind fun y _ => .ok _

/-- A visit of a vertex of the table can only miss a flow. -/
theorem WellFormed.onlyMisses_visit (h : g.WellFormed) {kind : VertexKind α} (hi : g.Has i kind)
    (w : Waiting α) : OnlyMisses (g.visit w i) := by
  obtain ⟨v, hv, rfl, -⟩ := exists_vertex hi
  have hvertex := h.labelled.vertex_eq hv
  have hmerge : OnlyMisses (g.incomingEdges v.id >>= fun edges => w.collect edges >>= fun x =>
      (.ok (x.2.put v.id (.merge x.1)) : Except Fault (Waiting α))) := by
    rw [h.incomingEdges_eq hv]
    exact (onlyMisses_collect w _).bind fun x _ => .ok _
  unfold visit
  rw [hvertex]
  refine OnlyMisses.bind (.ok v) fun v' hv' => ?_
  cases hv'
  cases v.kind with
  | root group => exact .ok _
  | terminal => exact hmerge
  | join name => exact hmerge

/-- A run over such vertices can only miss one. -/
theorem WellFormed.onlyMisses_run (h : g.WellFormed)
    (hids : ∀ i ∈ order, i ∈ g.digraph.nodes) (w : Waiting α) :
    OnlyMisses (order.foldlM g.visit w) := by
  induction order generalizing w with
  | nil => exact .ok w
  | cons i order ih =>
      rw [List.forall_mem_cons] at hids
      obtain ⟨kind, hi⟩ := h.mem_nodes_iff.1 hids.1
      rw [List.foldlM_cons]
      exact (h.onlyMisses_visit hi w).bind fun w₁ _ => ih hids.2 w₁

/-- The assembly in an order of vertices fails only for a missing flow, if
the tree of the terminal passes its check. -/
theorem WellFormed.onlyMisses_assemble (h : g.WellFormed) (hfed : g.Fed)
    (hids : ∀ i ∈ order, i ∈ g.digraph.nodes)
    (hpasses : ∀ top, g.FlowsOut terminalId top → (StepTree.root top.finish).check = .ok ()) :
    OnlyMisses (g.assemble order) := by
  refine (h.onlyMisses_run hids []).bind fun w hrun => ?_
  have hsettled : Settled g w :=
    Settled.run (fun x hx => absurd hx List.not_mem_nil) h hfed hrun
  refine (onlyMisses_take w terminalId).bind fun x htake => ?_
  have htop := hpasses x.1 (hsettled _ (mem_of_take htake).1)
  show OnlyMisses ((StepTree.root x.1.finish).check >>= fun _ => _)
  rw [htop]
  exact .ok _

-- ============================================================ one flow

/-- What a build order builds is the flow out of its vertex. -/
theorem Builds.flowsOut {f : Flow α} {roots : List Int} (hbuilds : g.Builds i f roots)
    (h : g.WellFormed) (hfed : g.Fed) : g.FlowsOut i f := by
  induction hbuilds with
  | root hi =>
      obtain ⟨v, hv, rfl, hkind⟩ := exists_vertex hi
      exact .root (h.labelled.vertex_eq hv) hkind
  | @merge i kind parts hi hkind hedges _ ih =>
      obtain ⟨v, hv, rfl, rfl⟩ := exists_vertex hi
      have hincoming : g.incomingEdges v.id
          = .ok ((parts.map fun t => (t.edge, t.flow)).map Prod.fst) := by
        rw [h.incomingEdges_eq hv, ← hedges, List.map_map]
        rfl
      have hne : (parts.map fun t => (t.edge, t.flow)) ≠ [] := by
        rw [ne_eq, List.map_eq_nil_iff]
        exact parts_ne_nil hfed hi hkind hedges
      have hflows : ∀ p ∈ parts.map (fun t => (t.edge, t.flow)), g.FlowsOut p.1.source p.2 := by
        intro p hp
        obtain ⟨t, ht, rfl⟩ := List.mem_map.1 hp
        exact ih t ht
      have hflow := FlowsOut.merge (h.labelled.vertex_eq hv) hkind hincoming hne hflows
      rw [List.map_map] at hflow
      exact hflow

/-- Flows into a vertex, if there is one for each of its edges. -/
theorem exists_flows {edges : List (Edge α)} (h : ∀ e ∈ edges, ∃ f, g.FlowsOut e.source f) :
    ∃ parts : List (Edge α × Flow α), parts.map Prod.fst = edges
      ∧ ∀ p ∈ parts, g.FlowsOut p.1.source p.2 := by
  induction edges with
  | nil => exact ⟨[], rfl, fun p hp => absurd hp List.not_mem_nil⟩
  | cons e edges ih =>
      rw [List.forall_mem_cons] at h
      obtain ⟨f, hf⟩ := h.1
      obtain ⟨parts, hedges, hparts⟩ := ih h.2
      refine ⟨(e, f) :: parts, ?_, ?_⟩
      · rw [List.map_cons, hedges]
      · rw [List.forall_mem_cons]
        exact ⟨hf, hparts⟩

/-- There is a flow out of a vertex if there is one out of each vertex
behind it. -/
theorem WellFormed.exists_flowsOut_next (h : g.WellFormed) (hfed : g.Fed) {kind : VertexKind α}
    (hi : g.Has i kind) (hbehind : ∀ j, g.digraph.Arrow j i → ∃ f, g.FlowsOut j f) :
    ∃ f, g.FlowsOut i f := by
  obtain ⟨v, hv, rfl, rfl⟩ := exists_vertex hi
  have hlookup := h.labelled.vertex_eq hv
  by_cases hroot : ∃ group, v.kind = .root group
  · obtain ⟨group, hgroup⟩ := hroot
    exact ⟨_, .root hlookup hgroup⟩
  · have hkind : v.kind.group? = none := by
      cases hkind : v.kind with
      | root group => exact absurd ⟨group, hkind⟩ hroot
      | terminal => rfl
      | join name => rfl
    have hsources : ∀ e ∈ g.edges.filter (·.target = v.id), ∃ f, g.FlowsOut e.source f := by
      intro e he
      rw [List.mem_filter, decide_eq_true_eq] at he
      exact hbehind _ (arrow_iff.2 ⟨e, he.1, rfl, he.2⟩)
    obtain ⟨parts, hparts, hflows⟩ := exists_flows hsources
    have hedges := h.incomingEdges_eq hv
    rw [← hparts] at hedges
    refine ⟨_, .merge hlookup hkind hedges (fun hnil => ?_) hflows⟩
    rw [hnil] at hedges
    exact incomingEdges_ne_nil h hfed hlookup hkind hedges

/-- Where there is an order in which edges lead forward, there is a flow
out of every vertex: from those behind to the next one. -/
theorem WellFormed.exists_flowsOut (h : g.WellFormed) (hfed : g.Fed)
    (hperm : order.Perm g.digraph.nodes) (hforward : Forward g.digraph.arrows order)
    {visited rest : List Int} (hsplit : order = visited ++ rest)
    (hvisited : ∀ j ∈ visited, ∃ f, g.FlowsOut j f) : ∀ j ∈ order, ∃ f, g.FlowsOut j f := by
  induction rest generalizing visited with
  | nil =>
      rw [List.append_nil] at hsplit
      rw [hsplit]
      exact hvisited
  | cons i rest ih =>
      have hi : i ∈ g.digraph.nodes := by
        rw [← hperm.mem_iff, hsplit]
        exact List.mem_append_right _ List.mem_cons_self
      obtain ⟨kind, hkind⟩ := h.mem_nodes_iff.1 hi
      have hnext := h.exists_flowsOut_next hfed hkind fun j hj =>
        hvisited j (hforward (j, i) hj visited rest hsplit)
      have hsplit' : order = visited ++ [i] ++ rest := by
        rw [hsplit, List.append_cons]
      refine ih hsplit' fun j hj => ?_
      rcases List.mem_append.1 hj with hj | hj
      · exact hvisited j hj
      · rw [List.mem_singleton.1 hj]
        exact hnext

end FlowGraph

-- ============================================================ all orders

variable [DecidableEq α] {fs : List (Fragment α)}

/-- In the graph of sound rules there is a flow out of every vertex. -/
theorem Sound.exists_flowsOut (h : Sound fs) {v : Vertex α} (hv : v ∈ (graphOf fs).vertices) :
    ∃ f, (graphOf fs).FlowsOut v.id f := by
  have hwell := wellFormed_graphOf fs
  obtain ⟨hperm, hforward⟩ := h.order_spec
  exact hwell.exists_flowsOut h.fed hperm hforward (List.nil_append _).symm
    (fun j hj => absurd hj List.not_mem_nil) v.id
    (hperm.mem_iff.2 (hwell.mem_nodes_iff.2 ⟨v.kind, has_of_mem hv⟩))

/-- In the graph of a recipe that is free of problems, one flow comes out
of each vertex. An order of all vertices is assembled to the tree of the
terminal's flow if every edge leads forward in it, and misses a flow
otherwise; and no order at all is assembled to any other tree. -/
theorem assemble_canonical {v : Verdict α} (h : checkFragments fs = .ok v)
    (hclean : v.diagnostics = []) :
    (∀ vertex ∈ v.graph.vertices, ∃! f, v.graph.FlowsOut vertex.id f)
      ∧ ∃ top, v.graph.FlowsOut terminalId top
        ∧ (∀ order : List Int, order.Perm (v.graph.vertices.map (·.id)) →
          (Forward v.graph.digraph.arrows order →
            v.graph.assemble order = .ok (.root top.finish))
          ∧ (¬ Forward v.graph.digraph.arrows order →
            ∃ u, v.graph.assemble order = .error (.missingFlow u)))
        ∧ ∀ order t, v.graph.assemble order = .ok t → t = .root top.finish := by
  have hsound := sound_of_clean h hclean
  have hwell := wellFormed_graphOf fs
  have hfed := hsound.fed
  obtain ⟨top, roots, hbuilds, hcheck⟩ := check_of_sound hsound
  rw [hcheck] at h
  obtain ⟨_, hpasses, hv⟩ := bind_eq_ok_iff.1 h
  cases hv
  have htop := hbuilds.flowsOut hwell hfed
  refine ⟨fun vertex hvertex => ?_, top, htop, fun order horder => ⟨fun hforward => ?_,
    fun hnot => ?_⟩, fun order t ht => ?_⟩
  · obtain ⟨f, hf⟩ := hsound.exists_flowsOut hvertex
    exact ⟨f, hf, fun f' hf' => hf'.unique hf⟩
  · rw [← hwell.nodes_eq] at horder
    obtain ⟨f, _, hf, hassemble⟩ := hwell.assemble_eq horder hforward
    rw [(hf.flowsOut hwell hfed).unique htop, hpasses] at hassemble
    exact hassemble
  · rw [← hwell.nodes_eq] at horder
    -- Nothing but a missing flow can go wrong, and without one edges lead forward.
    have hmisses := hwell.onlyMisses_assemble hfed (fun i hi => horder.mem_iff.1 hi)
      fun f hf => hf.unique htop ▸ hpasses
    cases hassemble : (graphOf fs).assemble order with
    | ok t =>
        obtain ⟨w, hrun, -⟩ := bind_eq_ok_iff.1 hassemble
        exact absurd (hwell.forward_of_run hrun) hnot
    | error fault =>
        obtain ⟨u, rfl⟩ := hmisses fault hassemble
        exact ⟨u, rfl⟩
  · obtain ⟨f, hf, rfl⟩ := flowsOut_of_assemble hwell hfed ht
    rw [hf.unique htop]

/-- The pancakes are assembled to one tree. -/
theorem assemble_canonical_pancakes :
    ∃ v, checkFragments pancakes = .ok v ∧ v.diagnostics = []
      ∧ ∃ top, v.graph.FlowsOut terminalId top
        ∧ ∀ order t, v.graph.assemble order = .ok t → t = .root top.finish := by
  obtain ⟨v, hv, hclean⟩ := map_eq_ok_iff.1 diagnostics_pancakes
  obtain ⟨-, top, htop, -, hall⟩ := assemble_canonical hv hclean
  exact ⟨v, hv, hclean, top, htop, hall⟩

end RecipeChart
