/-
Trees that are built and not filled. The assembly records at each node the
numbers that are due, whatever graph it works on, so the check of the tree
can find one thing only: a node with neither ingredients nor paths. Such a
node is the leaf of an empty group or stands where nothing arrives at a
join, and it is kept when it goes on to where others arrive as well: alone
it is a node with more actions, beside others it is one of their paths.

So a graph that is grown by hand and has a build order is assembled, and the
tree passes exactly if something arrives at each join and no group is empty.
-/
import RecipeChart.Proofs.FlowGraph.Growing
import RecipeChart.Proofs.StepTree.Assembling

namespace RecipeChart

open RecipeChart.Digraph Relation StepTree

variable {α : Type}

-- ============================================================== numbers

namespace StepTree

/-- Do the node and all nodes below it record the numbers that are due? -/
def Counted (t : StepTree α) : Prop := ∀ n ∈ t.walk, n.checkNumbers = .ok ()

/-- A leaf that is made records what is due. -/
theorem counted_leaf (actions : List (Action α)) (ingredients : List (Ingredient α)) :
    (leaf actions ingredients).Counted := by
  intro n hn
  rw [leaf, walk_node, List.flatMap_nil, List.mem_singleton] at hn
  rw [hn, checkNumbers_eq_ok_iff]
  exact ⟨rfl, (Int.add_zero _).symm⟩

/-- So does a branch over trees that do. -/
theorem counted_branch (actions : List (Action α)) {trees : List (StepTree α)}
    (h : ∀ t ∈ trees, t.Counted) : (branch actions trees).Counted := by
  intro n hn
  rw [branch, walk_node] at hn
  rcases List.mem_cons.1 hn with rfl | hn
  · rw [checkNumbers_eq_ok_iff]
    cases trees with
    | nil => exact ⟨rfl, rfl⟩
    | cons t ts => exact ⟨rfl, rfl⟩
  · obtain ⟨t, ht, hn⟩ := List.mem_flatMap.1 hn
    exact h t ht n hn

/-- A node that records what is due is refused for its shape only. -/
theorem checkNode_of_numbers {t : StepTree α} (h : t.checkNumbers = .ok ()) :
    t.checkNode = .ok () ∨ t.checkNode = .error .nodeShape := by
  unfold checkNode
  split
  · exact .inl h
  · exact .inr rfl

/-- A root over a tree passes the check exactly if the tree fits. -/
theorem check_root_eq_ok_iff {top : StepTree α} : (root top).check = .ok () ↔ top.Fits := by
  constructor
  · intro h
    obtain ⟨-, -, hpaths⟩ := check_eq_ok_iff.1 h
    exact hpaths top (List.mem_singleton_self top)
  · exact check_root

/-- Where all numbers are the ones due, a tree that does not fit has a node
of the wrong shape. -/
theorem check_root_of_not_fits {top : StepTree α} (hcounted : top.Counted) (h : ¬ top.Fits) :
    (root top).check = .error .nodeShape := by
  have hroot : (root top).checkNumbers = .ok () := by
    rw [checkNumbers_eq_ok_iff]
    exact ⟨(Int.add_zero _).symm, (Int.zero_add _).symm⟩
  have hcheck : (root top).check = (walkAll [top]).forM checkNode := by
    show ((root top).checkNumbers >>= fun _ => (walkAll [top]).forM checkNode) = _
    rw [hroot]
    rfl
  have hnodes : ∀ n ∈ walkAll [top], n.checkNode = .ok () ∨ n.checkNode = .error .nodeShape := by
    intro n hn
    rw [walkAll_eq, List.flatMap_singleton] at hn
    exact checkNode_of_numbers (hcounted n hn)
  rw [hcheck]
  refine (forM_eq_ok_or_error hnodes).resolve_left fun hok => h ?_
  rwa [← check_root_eq_ok_iff, hcheck]

/-- A leaf fits exactly if it has ingredients. -/
theorem fits_leaf_iff {actions : List (Action α)} {ingredients : List (Ingredient α)} :
    (leaf actions ingredients).Fits ↔ ingredients ≠ [] := by
  refine ⟨fun h hnil => ?_, fits_leaf actions⟩
  obtain ⟨hnode, -⟩ := h
  rw [hnil] at hnode
  cases hnode

/-- A branch fits exactly if it has paths that fit. -/
theorem fits_branch_iff {actions : List (Action α)} {trees : List (StepTree α)} :
    (branch actions trees).Fits ↔ trees ≠ [] ∧ ∀ t ∈ trees, t.Fits := by
  refine ⟨fun h => ?_, fun h => fits_branch actions h.1 h.2⟩
  obtain ⟨hnode, hpaths⟩ := h
  refine ⟨fun hnil => ?_, hpaths⟩
  rw [hnil] at hnode
  cases hnode

end StepTree

namespace Flow

/-- Is what lies below the flow counted? -/
def Counted (f : Flow α) : Prop :=
  match f.below with
  | .group _ => True
  | .branches trees => ∀ t ∈ trees, t.Counted

/-- What is counted below a flow is counted in the finished tree. -/
theorem counted_finish {f : Flow α} (h : f.Counted) : f.finish.Counted := by
  unfold Counted at h
  unfold finish
  cases hbelow : f.below with
  | group ingredients => exact counted_leaf f.actions ingredients
  | branches trees =>
      rw [hbelow] at h
      exact counted_branch f.actions h

/-- Flows that are counted merge into one that is. -/
theorem counted_merge {fs : List (Flow α)} (h : ∀ f ∈ fs, f.Counted) : (merge fs).Counted := by
  by_cases hone : fs.length = 1
  · obtain ⟨f, rfl⟩ := List.length_eq_one_iff.1 hone
    exact h f (List.mem_singleton_self f)
  · rw [merge_eq hone]
    intro t ht
    obtain ⟨f, hf, rfl⟩ := List.mem_map.1 ht
    exact counted_finish (h f hf)

/-- More actions do not change whether a flow ends in a tree that fits. -/
theorem fits_finish_prolong_iff {f : Flow α} {actions : List (Action α)} :
    (f.prolong actions).finish.Fits ↔ f.finish.Fits := by
  unfold finish prolong
  cases f.below with
  | group ingredients => rw [fits_leaf_iff, fits_leaf_iff]
  | branches trees => rw [fits_branch_iff, fits_branch_iff]

/-- Flows merge into one that fits only if there are some and all of them
fit. -/
theorem fits_finish_merge_iff {fs : List (Flow α)} :
    (merge fs).finish.Fits ↔ fs ≠ [] ∧ ∀ f ∈ fs, f.finish.Fits := by
  by_cases hone : fs.length = 1
  · obtain ⟨f, rfl⟩ := List.length_eq_one_iff.1 hone
    simp [merge]
  · rw [merge_eq hone]
    show (branch [] (fs.map finish)).Fits ↔ _
    rw [fits_branch_iff, List.forall_mem_map, ne_eq, List.map_eq_nil_iff]

end Flow

namespace FlowGraph

variable {g : FlowGraph α} {i j : Int} {f : Flow α} {roots : List Int}

-- ============================================================== filling

/-- Is there something at a vertex of this kind: ingredients at a root, and
else what arrives? -/
def HasFill (g : FlowGraph α) (i : Int) : VertexKind α → Prop
  | .root group => group.ingredients ≠ []
  | _ => ∃ j, g.digraph.Arrow j i

/-- What is no root is filled if something arrives there. -/
theorem hasFill_iff {kind : VertexKind α} (hkind : kind.group? = none) :
    g.HasFill i kind ↔ ∃ j, g.digraph.Arrow j i := by
  cases kind with
  | root group => cases hkind
  | terminal => exact Iff.rfl
  | join name => exact Iff.rfl

/-- Whatever is built records what is due. -/
theorem Builds.counted (h : g.Builds i f roots) : f.Counted := by
  induction h with
  | root => exact trivial
  | @merge i kind parts hi hkind hedges hparts ih =>
      refine Flow.counted_merge fun f hf => ?_
      obtain ⟨t, ht, rfl⟩ := List.mem_map.1 hf
      exact ih t ht

/-- A flow ends in a tree that fits exactly if there is something at every
vertex that leads to its own. -/
theorem Builds.fits_iff (h : g.Builds i f roots) (hg : g.WellFormed) :
    f.finish.Fits
      ↔ ∀ j kind, g.Has j kind → ReflTransGen g.digraph.Arrow j i → g.HasFill j kind := by
  induction h with
  | @root i group hi =>
      show (leaf [] group.ingredients).Fits ↔ _
      rw [fits_leaf_iff]
      constructor
      · intro hne j kind hj hpath
        rcases hpath.cases_tail with rfl | ⟨x, -, hx⟩
        · rw [hg.labelled.unique hj hi]
          exact hne
        · -- no edge enters a root
          obtain ⟨-, kind', hkind', hnone⟩ := hg.has_of_arrow hx
          rw [hg.labelled.unique hkind' hi] at hnone
          cases hnone
      · intro hall
        exact hall i _ hi .refl
  | @merge i kind parts hi hkind hedges hparts ih =>
      rw [Flow.fits_finish_merge_iff, List.forall_mem_map, ne_eq, List.map_eq_nil_iff, ← ne_eq,
        parts_ne_nil_iff hedges, ← hasFill_iff hkind]
      constructor
      · intro ⟨hfill, hfits⟩ j kind' hj hpath
        rcases hpath.cases_tail with rfl | ⟨x, hpath, hx⟩
        · rw [hg.labelled.unique hj hi]
          exact hfill
        · -- the way comes in along one of the edges
          obtain ⟨e, he, rfl, htarget⟩ := arrow_iff.1 hx
          obtain ⟨t, ht, rfl⟩ := exists_part_of_edge hedges he htarget
          exact (ih t ht).1 (Flow.fits_finish_prolong_iff.1 (hfits t ht)) j kind' hj hpath
      · intro hall
        refine ⟨hall i kind hi .refl, fun t ht => ?_⟩
        obtain ⟨he, htarget⟩ := edge_of_mem_parts hedges ht
        rw [Tributary.carried, Flow.fits_finish_prolong_iff, ih t ht]
        intro j kind' hj hpath
        exact hall j kind' hj (hpath.tail (arrow_iff.2 ⟨t.edge, he, rfl, htarget⟩))

/-- Something arrives at every join, and no group is empty. -/
structure Filled (g : FlowGraph α) : Prop where
  joins : ∀ v ∈ g.joinVertices, ∃ e ∈ g.edges, e.target = v.id
  roots : ∀ v ∈ g.roots, ∀ group ∈ v.kind.group?, group.ingredients ≠ []

/-- The join vertices are the vertices of some name. -/
theorem mem_joinVertices_iff {v : Vertex α} :
    v ∈ g.joinVertices ↔ v ∈ g.vertices ∧ ∃ name, v.kind = .join name := by
  rw [joinVertices, List.mem_filter]
  refine and_congr_right fun _ => ?_
  cases v.kind <;> simp [VertexKind.name?]

/-- An orderly graph is filled exactly if there is something at all its
vertices: something arrives at the terminal in any case. -/
theorem Orderly.filled_iff (h : g.Orderly) (hg : g.Recorded) :
    g.Filled ↔ ∀ j kind, g.Has j kind → g.HasFill j kind := by
  have harrow : ∀ {i}, (∃ j, g.digraph.Arrow j i) ↔ ∃ e ∈ g.edges, e.target = i := by
    intro i
    constructor
    · intro ⟨j, hj⟩
      obtain ⟨e, he, -, htarget⟩ := arrow_iff.1 hj
      exact ⟨e, he, htarget⟩
    · intro ⟨e, he, htarget⟩
      exact ⟨e.source, arrow_iff.2 ⟨e, he, rfl, htarget⟩⟩
  constructor
  · intro hfilled j kind hj
    obtain ⟨v, hv, rfl, rfl⟩ := exists_vertex hj
    cases hkind : v.kind with
    | terminal =>
        rw [hkind] at hj
        -- That something arrives at the terminal is part of the order.
        rw [hg.labelled.has_terminal_iff.1 hj]
        exact harrow.2 h.done
    | join name => exact harrow.2 (hfilled.joins v (mem_joinVertices_iff.2 ⟨hv, name, hkind⟩))
    | root group =>
        refine hfilled.roots v (mem_roots_iff.2 ⟨hv, group, hkind⟩) group ?_
        rw [hkind]
        rfl
  · intro hall
    constructor
    · intro v hv
      obtain ⟨hv, name, hkind⟩ := mem_joinVertices_iff.1 hv
      have hfill := hall v.id v.kind (has_of_mem hv)
      rw [hkind] at hfill
      exact harrow.1 hfill
    · intro v hv group hgroup
      obtain ⟨hv, group', hkind⟩ := mem_roots_iff.1 hv
      have hfill := hall v.id v.kind (has_of_mem hv)
      rw [hkind] at hfill hgroup
      cases hgroup
      exact hfill

-- ============================================================= assembly

/-- An orderly graph is assembled in the order of its arrows, and the tree
passes exactly if the graph is filled. -/
theorem Orderly.assemble (h : g.Orderly) (hg : g.Recorded) :
    (g.Filled → ∃ t, g.assemble g.digraph.order = .ok t)
      ∧ (¬ g.Filled → g.assemble g.digraph.order = .error .nodeShape) := by
  have hwell := h.wellFormed hg
  have hends := (h.clear hg).1
  obtain ⟨hperm, hforward⟩ := hwell.order_spec hends
  obtain ⟨f, roots, hbuilds, hassemble⟩ := hwell.assemble_eq hperm hforward
  have hfits : f.finish.Fits ↔ g.Filled := by
    rw [hbuilds.fits_iff hwell, h.filled_iff hg]
    refine forall₂_congr fun j kind => forall_congr' fun hj => ?_
    -- every vertex leads to the terminal
    have hpath : ReflTransGen g.digraph.Arrow j terminalId := by
      by_cases hterminal : kind = .terminal
      · subst hterminal
        rw [hwell.labelled.has_terminal_iff.1 hj]
      · exact (hwell.ends_iff (h.complete hg) hj).1 (hends j kind hj hterminal)
    exact ⟨fun hfill => hfill hpath, fun hfill _ => hfill⟩
  rw [hassemble, ← hfits]
  constructor
  · intro hfit
    rw [check_root hfit]
    exact ⟨_, rfl⟩
  · intro hnot
    rw [check_root_of_not_fits (Flow.counted_finish hbuilds.counted) hnot]
    rfl

/-- Of a grown graph the analysis gives a build order, if no problems were
known before, exactly when the graph is orderly. Then the assembly in that
order has a tree if something arrives at every join and no group is empty,
and else finds a node of the wrong shape. It never misses a row or a
flow. -/
theorem assemble_grown [DecidableEq α] (h : g.Grown) :
    ((∃ a order, g.analyze [] = .ok a ∧ a.order = some order) ↔ g.Orderly)
      ∧ ∀ a order, g.analyze [] = .ok a → a.order = some order →
        (g.Filled → ∃ t, g.assemble order = .ok t)
          ∧ (¬ g.Filled → g.assemble order = .error .nodeShape) := by
  refine ⟨h.recorded.exists_order_iff, fun a order ha horder => ?_⟩
  obtain ⟨horderly, rfl⟩ := h.recorded.orderly_of_order ha horder
  exact horderly.assemble h.recorded

/-- An egg and a bowl, before anything leads on from them. -/
def kitchenware : FlowGraph String :=
  ((FlowGraph.empty.addVertex (.root ⟨[⟨"egg", none⟩], none⟩) none).joinVertex ⟨"bowl", none⟩).2

/-- The egg and the bowl are done apart from each other, so the bowl stays
empty. -/
def emptyBowl : FlowGraph String := (kitchenware.addEdge 1 0 [] none).addEdge 2 0 [] none

/-- The egg goes into the bowl. -/
def fullBowl : FlowGraph String := (kitchenware.addEdge 1 2 [] none).addEdge 2 0 [] none

theorem grown_kitchenware : kitchenware.Grown := .join (.root .empty _ none) _

/-- Both bowls have a build order. The full one has a tree; the empty one is
no node. -/
theorem assemble_grown_bowls :
    emptyBowl.Grown ∧ emptyBowl.analyze [] = .ok { order := some [1, 2, 0] } ∧ emptyBowl.Orderly
      ∧ emptyBowl.assemble [1, 2, 0] = .error .nodeShape
      ∧ fullBowl.Grown ∧ fullBowl.analyze [] = .ok { order := some [1, 2, 0] }
      ∧ ∃ t, fullBowl.assemble [1, 2, 0] = .ok t := by
  have hempty : emptyBowl.Grown :=
    .edge (.edge grown_kitchenware (by decide) (by decide) [] none) (by decide) (by decide) [] none
  have hfull : fullBowl.Grown :=
    .edge (.edge grown_kitchenware (by decide) (by decide) [] none) (by decide) (by decide) [] none
  have horder : emptyBowl.digraph.order = [1, 2, 0] := by
    have hdigraph : emptyBowl.digraph = ⟨[0, 1, 2], [(1, 0), (2, 0)]⟩ := by decide
    rw [hdigraph]
    cbv
  have hanalysis : emptyBowl.analyze [] = .ok { order := some [1, 2, 0] } :=
    analyze_of_order_eq (by decide +kernel) (by decide +kernel) (by decide +kernel)
      (by decide +kernel) (by decide +kernel) horder rfl
  have horder' : fullBowl.digraph.order = [1, 2, 0] := by
    have hdigraph : fullBowl.digraph = ⟨[0, 1, 2], [(1, 2), (2, 0)]⟩ := by decide
    rw [hdigraph]
    cbv
  have hanalysis' : fullBowl.analyze [] = .ok { order := some [1, 2, 0] } :=
    analyze_of_order_eq (by decide +kernel) (by decide +kernel) (by decide +kernel)
      (by decide +kernel) (by decide +kernel) horder' rfl
  have hunfilled : ¬ emptyBowl.Filled := fun h => by
    obtain ⟨e, he, htarget⟩ := h.joins ⟨2, .join "bowl", [], some 1, none⟩ (by decide)
    revert e
    decide
  have hfilled : fullBowl.Filled := ⟨by decide, by decide⟩
  obtain ⟨horderly, hassemble⟩ := assemble_grown hempty
  obtain ⟨-, hassemble'⟩ := assemble_grown hfull
  exact ⟨hempty, hanalysis, horderly.1 ⟨_, _, hanalysis, rfl⟩,
    (hassemble _ _ hanalysis rfl).2 hunfilled, hfull, hanalysis',
    (hassemble' _ _ hanalysis' rfl).1 hfilled⟩

end FlowGraph

end RecipeChart
