/-
Trees without chains. A run of actions through several joins is one node
of the tree, so a node is there for one of two reasons: ingredients set
out there, or at least two paths merge there. A node with one path, which
the check of trees would let pass, is never built: a single flow is
prolonged and not wrapped.
-/
import RecipeChart.Proofs.StepTree.Assembling

namespace RecipeChart

open FlowGraph

variable {α : Type}

-- =============================================================== trees

namespace StepTree

/-- Every node is a leaf with ingredients or a place where at least two
paths merge. -/
inductive Reduced : StepTree α → Prop where
  | leaf {actions : List (Action α)} {ingredients : List (Ingredient α)} {size maxDepth : Int}
      (hne : ingredients ≠ []) : Reduced (.node actions ingredients size maxDepth [])
  | inner {actions : List (Action α)} {size maxDepth : Int} {paths : List (StepTree α)}
      (htwo : 2 ≤ paths.length) (hpaths : ∀ p ∈ paths, Reduced p) :
      Reduced (.node actions [] size maxDepth paths)

/-- A reduced tree, node by node. -/
theorem reduced_iff_walk (t : StepTree α) :
    t.Reduced ↔ ∀ n ∈ t.walk,
      (n.paths = [] ∧ n.ingredients ≠ []) ∨ (n.ingredients = [] ∧ 2 ≤ n.paths.length) := by
  induction t using induct with
  | node actions ingredients size maxDepth paths ih =>
      rw [walk_node, List.forall_mem_cons]
      constructor
      · intro h
        cases h with
        | leaf hne => exact ⟨.inl ⟨rfl, hne⟩, fun n hn => absurd hn List.not_mem_nil⟩
        | inner htwo hpaths =>
            refine ⟨.inr ⟨rfl, htwo⟩, fun n hn => ?_⟩
            obtain ⟨p, hp, hn⟩ := List.mem_flatMap.1 hn
            exact (ih p hp).1 (hpaths p hp) n hn
      · intro ⟨hnode, hbelow⟩
        rcases hnode with ⟨hnil, hne⟩ | ⟨hnil, htwo⟩
        · have hpaths : paths = [] := hnil
          subst hpaths
          exact .leaf hne
        · have hingredients : ingredients = [] := hnil
          subst hingredients
          refine .inner htwo fun p hp => (ih p hp).2 fun n hn => ?_
          exact hbelow n (List.mem_flatMap.2 ⟨p, hp, hn⟩)

end StepTree

-- =============================================================== flows

namespace Flow

/-- Is there something below the flow, ingredients or at least two reduced
trees? -/
def Reduced (f : Flow α) : Prop :=
  match f.below with
  | .group ingredients => ingredients ≠ []
  | .branches trees => 2 ≤ trees.length ∧ ∀ t ∈ trees, t.Reduced

theorem Reduced.prolong {f : Flow α} (h : f.Reduced) (actions : List (Action α)) :
    (f.prolong actions).Reduced := h

theorem Reduced.finish {f : Flow α} (h : f.Reduced) : f.finish.Reduced := by
  obtain ⟨actions, below⟩ := f
  cases below with
  | group ingredients => exact .leaf h
  | branches trees => exact .inner h.1 h.2

/-- Flows merge into one that is reduced if they are; it is a new one only
if they are at least two. -/
theorem reduced_merge {fs : List (Flow α)} (hne : fs ≠ []) (h : ∀ f ∈ fs, f.Reduced) :
    (merge fs).Reduced := by
  match fs with
  | [] => exact absurd rfl hne
  | [f] => exact h f List.mem_cons_self
  | f :: f' :: rest =>
      refine ⟨?_, fun t ht => ?_⟩
      · rw [List.length_map, List.length_cons, List.length_cons]
        omega
      · obtain ⟨f'', hf'', rfl⟩ := List.mem_map.1 ht
        exact (h f'' hf'').finish

end Flow

-- =============================================================== graphs

/-- What flows out of a vertex is reduced, where roots are not empty and
all else is fed. -/
theorem FlowGraph.Builds.reduced {g : FlowGraph α} {i : Int} {f : Flow α} {roots : List Int}
    (h : g.Builds i f roots) (hfed : g.Fed)
    (hgroups : ∀ i group, g.Has i (.root group) → group.ingredients ≠ []) : f.Reduced := by
  induction h with
  | root hi => exact hgroups _ _ hi
  | @merge i kind parts hi hkind hedges hparts ih =>
      refine Flow.reduced_merge ?_ fun f hf => ?_
      · rw [ne_eq, List.map_eq_nil_iff]
        exact parts_ne_nil hfed hi hkind hedges
      · obtain ⟨t, ht, rfl⟩ := List.mem_map.1 hf
        exact (ih t ht).prolong _

end RecipeChart
