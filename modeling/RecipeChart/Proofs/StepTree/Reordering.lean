/-
Trees up to the order of their paths. At each node the paths of the one
tree match those of the other, in some order, and what is recorded is the
same: no order changes a sum or a maximum.

What a flow graph builds depends on the order of its edges in this way
only. The flows out of two vertices of one kind are compared by recursion
along the edges of the one graph: each edge that enters the one vertex has
its counterpart among those that enter the other.
-/
import RecipeChart.Proofs.FlowGraph.Redrawing
import RecipeChart.Proofs.StepTree.Assembling

namespace RecipeChart

variable {α : Type}

-- =============================================================== trees

namespace StepTree

/-- The trees are equal up to the order of the paths at each node. -/
inductive Reorders : StepTree α → StepTree α → Prop where
  | node {actions : List (Action α)} {ingredients : List (Ingredient α)} {size maxDepth : Int}
      {paths paths' : List (StepTree α)} (hpaths : Multiset.Rel Reorders paths paths') :
      Reorders (.node actions ingredients size maxDepth paths)
        (.node actions ingredients size maxDepth paths')

variable {t t' : StepTree α}

theorem Reorders.size_eq (h : t.Reorders t') : t.size = t'.size := by
  cases h
  rfl

theorem Reorders.maxDepth_eq (h : t.Reorders t') : t.maxDepth = t'.maxDepth := by
  cases h
  rfl

theorem total_perm {ns ns' : List Int} (h : ns.Perm ns') : total ns = total ns' := by
  induction h with
  | nil => rfl
  | cons n _ ih => rw [total, total, ih]
  | swap n m ns =>
      simp only [total]
      omega
  | trans _ _ ih ih' => exact ih.trans ih'

theorem foldl_max_perm {ns ns' : List Int} (h : ns.Perm ns') (n : Int) :
    ns.foldl max n = ns'.foldl max n := by
  induction h generalizing n with
  | nil => rfl
  | cons m _ ih => exact ih (max n m)
  | swap m k ns =>
      rw [List.foldl_cons, List.foldl_cons, List.foldl_cons, List.foldl_cons, max_right_comm]
  | trans _ _ ih ih' => exact (ih n).trans (ih' n)

theorem greatest_perm {ns ns' : List Int} (h : ns.Perm ns') : greatest ns = greatest ns' := by
  induction h with
  | nil => rfl
  | cons n h ih => exact foldl_max_perm h n
  | swap n m ns =>
      rw [greatest, greatest, List.foldl_cons, List.foldl_cons, max_comm]
  | trans _ _ ih ih' => exact ih.trans ih'

/-- A branch over trees that match is the same up to their order. -/
theorem Reorders.branch {paths paths' : List (StepTree α)} (actions : List (Action α))
    (h : Multiset.Rel Reorders (paths : Multiset (StepTree α)) paths') :
    (branch actions paths).Reorders (StepTree.branch actions paths') := by
  have hsame : ∀ {key : StepTree α → Int}, (∀ {t t'}, t.Reorders t' → key t = key t') →
      (paths.map key).Perm (paths'.map key) := by
    intro key hkey
    refine Multiset.coe_eq_coe.1 ?_
    show Multiset.map key paths = Multiset.map key paths'
    rw [← Multiset.rel_eq, Multiset.rel_map]
    exact h.mono fun _ _ _ _ => hkey
  rw [StepTree.branch, StepTree.branch, total_perm (hsame Reorders.size_eq),
    greatest_perm (hsame Reorders.maxDepth_eq)]
  exact .node h

/-- A root over either of two trees is the same up to their order. -/
theorem Reorders.root (h : t.Reorders t') : (root t).Reorders (StepTree.root t') := by
  rw [StepTree.root, StepTree.root, h.size_eq, h.maxDepth_eq]
  exact .node (.cons h .zero)

end StepTree

-- =============================================================== flows

/-- The same ingredients, or branches that match. -/
inductive Below.Reorders : Below α → Below α → Prop where
  | group (ingredients : List (Ingredient α)) : Reorders (.group ingredients) (.group ingredients)
  | branches {trees trees' : List (StepTree α)}
      (h : Multiset.Rel StepTree.Reorders (trees : Multiset (StepTree α)) trees') :
      Reorders (.branches trees) (.branches trees')

namespace Flow

/-- The flows are equal up to the order of what lies below them. -/
structure Reorders (f f' : Flow α) : Prop where
  actions : f.actions = f'.actions
  below : f.below.Reorders f'.below

variable {f f' : Flow α}

theorem Reorders.prolong (h : f.Reorders f') (actions : List (Action α)) :
    (f.prolong actions).Reorders (f'.prolong actions) :=
  ⟨congrArg (· ++ actions) h.actions, h.below⟩

theorem Reorders.finish (h : f.Reorders f') : f.finish.Reorders f'.finish := by
  obtain ⟨actions, below⟩ := f
  obtain ⟨actions', below'⟩ := f'
  obtain ⟨rfl, hbelow⟩ := h
  cases hbelow with
  | group ingredients => exact .node .zero
  | branches htrees => exact .branch actions htrees

/-- Flows that match merge into the same flow up to their order. -/
theorem Reorders.merge {fs fs' : List (Flow α)}
    (h : Multiset.Rel Reorders (fs : Multiset (Flow α)) fs') :
    (merge fs).Reorders (Flow.merge fs') := by
  have hlength : fs.length = fs'.length := by
    have hcard := Multiset.card_eq_card_of_rel h
    rwa [Multiset.coe_card, Multiset.coe_card] at hcard
  by_cases hone : fs.length = 1
  · obtain ⟨f, rfl⟩ := List.length_eq_one_iff.1 hone
    obtain ⟨f', rfl⟩ := List.length_eq_one_iff.1 (hlength ▸ hone)
    obtain ⟨f'', hf'', hsame⟩ := Multiset.exists_mem_of_rel_of_mem h (Multiset.mem_singleton_self f)
    rw [List.mem_singleton.1 (Multiset.mem_coe.1 hf'')] at hsame
    exact hsame
  · rw [merge_eq hone, merge_eq (hlength ▸ hone)]
    refine ⟨rfl, .branches ?_⟩
    rw [← Multiset.map_coe, ← Multiset.map_coe, Multiset.rel_map]
    exact h.mono fun _ _ _ _ => Reorders.finish

end Flow

-- =============================================================== graphs

namespace FlowGraph

variable [DecidableEq α] {g g' : FlowGraph α} {i i' : Int} {f f' : Flow α}
  {roots roots' : List Int}

/-- The edges into two vertices of one kind match. -/
theorem Redrawn.entering (h : Redrawn g g') {kind : VertexKind α} (hkind : kind.group? = none)
    (hi : g.Has i kind) (hi' : g'.Has i' kind) :
    Multiset.Rel (Mirrors g g') (g.edges.filter (·.target = i) : List (Edge α))
      (g'.edges.filter (·.target = i') : List (Edge α)) := by
  rw [← Multiset.filter_coe, ← Multiset.filter_coe]
  refine rel_filter h.edges fun e _ e' _ hmirrors => ?_
  constructor
  · intro htarget
    rw [← htarget] at hi
    exact h.right.labelled.unique_id hkind (hmirrors.target_has h.left.labelled hi) hi'
  · intro htarget
    rw [← htarget] at hi'
    exact h.left.labelled.unique_id hkind (hmirrors.symm.target_has h.right.labelled hi') hi

/-- What flows out of vertices of one kind is the same up to the order of
the paths. -/
theorem Builds.reorders (hbuilds : g.Builds i f roots) (hbuilds' : g'.Builds i' f' roots')
    (h : Redrawn g g') {kind : VertexKind α} (hi : g.Has i kind) (hi' : g'.Has i' kind) :
    f.Reorders f' := by
  induction hbuilds generalizing i' f' roots' kind with
  | @root i group hroot =>
      cases h.left.labelled.unique hi hroot
      cases hbuilds' with
      | root hroot' =>
          cases h.right.labelled.unique hi' hroot'
          exact ⟨rfl, .group _⟩
      | merge hvertex hkind =>
          rw [h.right.labelled.unique hvertex hi'] at hkind
          cases hkind
  | @merge i kind' parts hvertex hkind hedges hparts ih =>
      cases h.left.labelled.unique hi hvertex
      cases hbuilds' with
      | root hroot' =>
          rw [h.right.labelled.unique hi' hroot'] at hkind
          cases hkind
      | @merge _ _ parts' _ _ hedges' hparts' =>
          -- the edges into the two vertices match, and with them what they carry
          have hentering := h.entering hkind hi hi'
          rw [← hedges, ← hedges', ← Multiset.map_coe, ← Multiset.map_coe, Multiset.rel_map]
            at hentering
          refine .merge ?_
          rw [← Multiset.map_coe, ← Multiset.map_coe, Multiset.rel_map]
          refine hentering.mono fun t ht t' ht' hmirrors => ?_
          obtain ⟨source, hsource, hsource'⟩ := hmirrors.source
          have hflow := ih t (Multiset.mem_coe.1 ht) (hparts' t' (Multiset.mem_coe.1 ht'))
            hsource hsource'
          rw [Tributary.carried, Tributary.carried, hmirrors.actions]
          exact hflow.prolong _

end FlowGraph

end RecipeChart
