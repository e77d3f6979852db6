/-
Every check has an outcome. As long as no group of ingredients is empty, a
check of fragments does not fail inside: it finds problems, and then there
is neither an order nor a tree, or it finds none, and then there are both.
The order ends at the terminal; the tree passes the check of trees and has
no chains.
-/
import RecipeChart.Proofs.StepTree.Reduction
import RecipeChart.Proofs.Verdict

namespace RecipeChart

open FlowGraph RecipeChart.Digraph

variable {α : Type} [DecidableEq α] {fs : List (Fragment α)}

-- ============================================================= outcome

/-- A check of fragments without empty groups has a verdict. It gives an
order and a tree exactly when it finds nothing, and otherwise refuses the
tree with all problems. The order ends at the terminal. The tree passes its
check; its root has one path, and every node below has either ingredients
or at least two paths. -/
theorem checkFragments_outcome (fs : List (Fragment α))
    (hgroups : ∀ f ∈ fs, ∀ group, f.start = .group group → group.ingredients ≠ []) :
    ∃ v, checkFragments fs = .ok v
      ∧ (v.tree.isSome = true ↔ v.diagnostics = [])
      ∧ (v.analysis.order.isSome = true ↔ v.diagnostics = [])
      ∧ (∀ problems, v.intoTree = .error problems
          ↔ v.diagnostics ≠ [] ∧ problems = v.diagnostics)
      ∧ (∀ order, v.analysis.order = some order → order.getLast? = some terminalId)
      ∧ ∀ t, v.tree = some t → v.intoTree = .ok t ∧ t.check = .ok ()
          ∧ ∃ top, t.paths = [top] ∧ ∀ n ∈ top.walk,
            (n.paths = [] ∧ n.ingredients ≠ []) ∨ (n.ingredients = [] ∧ 2 ≤ n.paths.length) := by
  by_cases hsound : Sound fs
  · obtain ⟨f, roots, hbuilds, hok, hcheck⟩ := verdict_of_sound hsound hgroups
    obtain ⟨hperm, hforward⟩ := hsound.order_spec
    have hlast := (wellFormed_graphOf fs).getLast?_eq_terminal (sound_iff.1 hsound).1.complete
      hperm hforward
    have hreduced : f.Reduced :=
      hbuilds.reduced hsound.fed fun i group hi => hsound.ingredients_ne_nil hgroups hi
    refine ⟨_, hcheck, ⟨fun _ => rfl, fun _ => rfl⟩, ⟨fun _ => rfl, fun _ => rfl⟩,
      fun problems => ⟨fun h => (nomatch h), fun h => absurd rfl h.1⟩, fun order horder => ?_,
      fun t ht => ?_⟩
    · cases horder
      exact hlast
    · cases ht
      exact ⟨rfl, hok, f.finish, rfl, (StepTree.reduced_iff_walk _).1 hreduced.finish⟩
  · obtain ⟨found, hfound, hcheck⟩ := verdict_of_not_sound hsound
    refine ⟨_, hcheck, ⟨fun h => (nomatch h), fun h => absurd h hfound⟩,
      ⟨fun h => (nomatch h), fun h => absurd h hfound⟩, fun problems => ?_,
      fun order horder => (nomatch horder), fun t ht => (nomatch ht)⟩
    constructor
    · intro h
      cases h
      exact ⟨hfound, rfl⟩
    · intro ⟨_, hproblems⟩
      rw [hproblems]
      rfl

/-- The pancakes have an order and a tree. -/
theorem checkFragments_outcome_pancakes :
    (∀ f ∈ pancakes, ∀ group, f.start = .group group → group.ingredients ≠ [])
      ∧ ∃ v, checkFragments pancakes = .ok v ∧ v.analysis.order.isSome = true
        ∧ ∃ t, v.tree = some t ∧ t.check = .ok () ∧ ∃ top, t.paths = [top] ∧ ∀ n ∈ top.walk,
          (n.paths = [] ∧ n.ingredients ≠ []) ∨ (n.ingredients = [] ∧ 2 ≤ n.paths.length) := by
  have hgroups : ∀ f ∈ pancakes, ∀ group, f.start = .group group → group.ingredients ≠ [] := by
    simp [pancakes]
  obtain ⟨v, hv, htree, horder, -, -, hpasses⟩ := checkFragments_outcome pancakes hgroups
  obtain ⟨v', hv', hclean⟩ := map_eq_ok_iff.1 diagnostics_pancakes
  cases hv.symm.trans hv'
  obtain ⟨t, ht⟩ := Option.isSome_iff_exists.1 (htree.2 hclean)
  obtain ⟨-, hok, htop⟩ := hpasses t ht
  exact ⟨hgroups, v, hv, horder.2 hclean, t, ht, hok, htop⟩

end RecipeChart
