/-
Ways through a tree. A way climbs from a leaf to the root and is the list
of the nodes that it passes; there is one for each leaf, and they stand in
the order of the leaves. What is met on a way is the ingredients of its
leaf and, in the order of the climb, the actions of all its nodes.

A flow is a tree that is not finished, so the same is said of flows: more
actions are met at the end of every way, and flows that merge bring their
ways together.
-/
import Mathlib.Data.List.Chain
import RecipeChart.Proofs.StepTree.Fitting
import RecipeChart.StepTree.Assembly

namespace RecipeChart

variable {α : Type}

namespace StepTree

-- ================================================================ ways

mutual

/-- The ways from the leaves to the root. -/
def ways : StepTree α → List (List (StepTree α))
  | .node actions ingredients size maxDepth [] => [[.node actions ingredients size maxDepth []]]
  | .node actions ingredients size maxDepth (t :: ts) =>
    (waysAll (t :: ts)).map (· ++ [.node actions ingredients size maxDepth (t :: ts)])

def waysAll : List (StepTree α) → List (List (StepTree α))
  | [] => []
  | t :: ts => ways t ++ waysAll ts

end

/-- The ingredients at the start of a way, and the actions along it. -/
def met (way : List (StepTree α)) : List (Ingredient α) × List (Action α) :=
  ((way.head?.map ingredients).getD [], way.flatMap actions)

/-- What is met on the ways of the tree. -/
def climbs (t : StepTree α) : List (List (Ingredient α) × List (Action α)) := t.ways.map met

/-- More actions are met. -/
def further (more : List (Action α)) (c : List (Ingredient α) × List (Action α)) :
    List (Ingredient α) × List (Action α) :=
  (c.1, c.2 ++ more)

@[simp] theorem further_nil : further ([] : List (Action α)) = id := by
  funext c
  rw [further, List.append_nil]
  rfl

/-- What is met after more is met after both. -/
theorem further_further (as bs : List (Action α)) :
    further bs ∘ further as = further (as ++ bs) := by
  funext c
  simp only [Function.comp_apply, further, List.append_assoc]

/-- The ways of several trees are those of the first, then those of the
next. -/
theorem waysAll_eq (ts : List (StepTree α)) : waysAll ts = ts.flatMap ways := by
  induction ts with
  | nil => rfl
  | cons t ts ih => rw [waysAll, ih, List.flatMap_cons]

/-- A way passes at least its leaf. -/
theorem ne_nil_of_mem_ways {t : StepTree α} {way : List (StepTree α)} (h : way ∈ t.ways) :
    way ≠ [] := by
  match t with
  | .node actions ingredients size maxDepth [] =>
      rw [ways, List.mem_singleton] at h
      rw [h]
      exact List.cons_ne_nil _ _
  | .node actions ingredients size maxDepth (t :: ts) =>
      rw [ways, List.mem_map] at h
      obtain ⟨lower, -, rfl⟩ := h
      exact List.append_ne_nil_of_right_ne_nil _ (List.cons_ne_nil _ _)

/-- A leaf has one way, which passes it alone. -/
theorem ways_of_paths_nil {t : StepTree α} (h : t.paths = []) : t.ways = [[t]] := by
  cases t with
  | node actions ingredients size maxDepth paths =>
      rw [show paths = [] from h]
      rfl

/-- The ways of any other node are those of its paths, and each passes the
node last. -/
theorem ways_of_paths_ne_nil {t : StepTree α} (h : t.paths ≠ []) :
    t.ways = (t.paths.flatMap ways).map (· ++ [t]) := by
  cases t with
  | node actions ingredients size maxDepth paths =>
      cases paths with
      | nil => exact absurd rfl h
      | cons t ts =>
          rw [ways, waysAll_eq]
          rfl

/-- Each node of a way is a path of the next, and the last is the root. -/
theorem chain_of_mem_ways {t : StepTree α} {way : List (StepTree α)} (h : way ∈ t.ways) :
    way.IsChain (fun below above => below ∈ above.paths) ∧ way.getLast? = some t := by
  induction t using induct generalizing way with
  | node actions ingredients size maxDepth paths ih =>
      by_cases hpaths : paths = []
      · rw [ways_of_paths_nil (t := .node actions ingredients size maxDepth paths) hpaths,
          List.mem_singleton] at h
        rw [h]
        exact ⟨.singleton _, rfl⟩
      · rw [ways_of_paths_ne_nil (t := .node actions ingredients size maxDepth paths) hpaths,
          List.mem_map] at h
        obtain ⟨lower, hlower, rfl⟩ := h
        obtain ⟨p, hp, hlower⟩ := List.mem_flatMap.1 hlower
        obtain ⟨hchain, hlast⟩ := ih p hp hlower
        refine ⟨List.isChain_append.2 ⟨hchain, .singleton _, fun x hx y hy => ?_⟩, ?_⟩
        · rw [hlast] at hx
          cases hx
          cases hy
          exact hp
        · simp

/-- There is one way for each leaf, which it sets out from. -/
theorem heads_ways (t : StepTree α) :
    t.ways.map List.head? = (t.walk.filter isLeaf).map some := by
  induction t using induct with
  | node actions ingredients size maxDepth paths ih =>
      rw [walk_node]
      by_cases hpaths : paths = []
      · rw [ways_of_paths_nil (t := .node actions ingredients size maxDepth paths) hpaths, hpaths]
        rfl
      · have hinner : (node actions ingredients size maxDepth paths).isLeaf = false :=
          Bool.eq_false_iff.2 fun hleaf => hpaths (List.isEmpty_iff.1 hleaf)
        rw [ways_of_paths_ne_nil (t := .node actions ingredients size maxDepth paths) hpaths,
          List.map_map, List.filter_cons_of_neg (by simp [hinner])]
        show (paths.flatMap ways).map _ = ((paths.flatMap walk).filter isLeaf).map some
        rw [List.filter_flatMap, List.map_flatMap, List.map_flatMap]
        refine List.flatMap_congr fun p hp => ?_
        rw [← ih p hp]
        refine List.map_congr_left fun way hway => ?_
        cases way with
        | nil => exact absurd rfl (ne_nil_of_mem_ways hway)
        | cons first rest => rfl

/-- The climbs set out from the leaves, in their order. -/
theorem map_fst_climbs (t : StepTree α) :
    t.climbs.map Prod.fst = (t.walk.filter isLeaf).map ingredients := by
  have hheads := congrArg (List.map fun o : Option (StepTree α) => (o.map ingredients).getD [])
    (heads_ways t)
  rw [List.map_map, List.map_map] at hheads
  rw [climbs, List.map_map]
  exact hheads

/-- On the way from a leaf its own ingredients and actions are met. -/
theorem climbs_of_paths_nil {t : StepTree α} (h : t.paths = []) :
    t.climbs = [(t.ingredients, t.actions)] := by
  rw [climbs, ways_of_paths_nil h, List.map_singleton, met]
  simp

/-- Above its paths, a node adds its actions to all ways. -/
theorem climbs_of_paths_ne_nil {t : StepTree α} (h : t.paths ≠ []) :
    t.climbs = (t.paths.flatMap climbs).map (further t.actions) := by
  rw [climbs, ways_of_paths_ne_nil h, List.map_map]
  show _ = (t.paths.flatMap fun p => p.ways.map met).map (further t.actions)
  rw [← List.map_flatMap, List.map_map]
  refine List.map_congr_left fun way hway => ?_
  obtain ⟨p, -, hp⟩ := List.mem_flatMap.1 hway
  cases way with
  | nil => exact absurd rfl (ne_nil_of_mem_ways hp)
  | cons first rest => simp [met, further]

/-- On the way from a leaf that is made its ingredients and actions are
met. -/
theorem climbs_leaf (actions : List (Action α)) (ingredients : List (Ingredient α)) :
    (leaf actions ingredients).climbs = [(ingredients, actions)] :=
  climbs_of_paths_nil rfl

/-- On the ways of a branch its actions are met last. -/
theorem climbs_branch (actions : List (Action α)) {trees : List (StepTree α)} (h : trees ≠ []) :
    (branch actions trees).climbs = (trees.flatMap climbs).map (further actions) :=
  climbs_of_paths_ne_nil h

/-- The root adds nothing to the ways of the tree below it. -/
theorem climbs_root (top : StepTree α) : (root top).climbs = top.climbs := by
  have hroot : (root top).climbs = ([top].flatMap climbs).map (further []) :=
    climbs_of_paths_ne_nil (List.cons_ne_nil _ _)
  rw [hroot, further_nil, List.map_id, List.flatMap_singleton]

-- ============================================================= fitting

/-- A leaf that is made of something fits. -/
theorem fits_leaf (actions : List (Action α)) {ingredients : List (Ingredient α)}
    (h : ingredients ≠ []) : (leaf actions ingredients).Fits := by
  refine .node ?_ fun p hp => absurd hp List.not_mem_nil
  rw [checkNode_eq_ok_iff]
  refine ⟨?_, rfl, ?_⟩
  · cases ingredients with
    | nil => exact absurd rfl h
    | cons i is => rfl
  · exact (Int.add_zero _).symm

/-- A branch over trees that fit does so too. -/
theorem fits_branch (actions : List (Action α)) {trees : List (StepTree α)} (h : trees ≠ [])
    (hfits : ∀ t ∈ trees, t.Fits) : (branch actions trees).Fits := by
  refine .node ?_ hfits
  rw [checkNode_eq_ok_iff]
  cases trees with
  | nil => exact absurd rfl h
  | cons t ts => exact ⟨rfl, rfl, rfl⟩

/-- A root over a tree that fits passes the check. -/
theorem check_root {top : StepTree α} (h : top.Fits) : (root top).check = .ok () := by
  rw [check_eq_ok_iff]
  refine ⟨rfl, ⟨?_, ?_⟩, fun p hp => ?_⟩
  · exact (Int.add_zero _).symm
  · exact (Int.zero_add _).symm
  · rw [List.mem_singleton.1 hp]
    exact h

end StepTree

-- =============================================================== flows

namespace Flow

open StepTree

/-- Is there something below the flow, ingredients or at least two trees
that fit? -/
def Fits (f : Flow α) : Prop :=
  match f.below with
  | .group ingredients => ingredients ≠ []
  | .branches trees => 2 ≤ trees.length ∧ ∀ t ∈ trees, t.Fits

/-- A flow with something below it finishes as a tree that fits. -/
theorem fits_finish {f : Flow α} (h : f.Fits) : f.finish.Fits := by
  unfold Fits at h
  unfold finish
  cases hbelow : f.below with
  | group ingredients =>
      rw [hbelow] at h
      exact fits_leaf f.actions h
  | branches trees =>
      rw [hbelow] at h
      have hne : trees ≠ [] := by
        intro hnil
        rw [hnil] at h
        simp at h
      exact fits_branch f.actions hne h.2

/-- More actions change nothing of what is below a flow. -/
theorem Fits.prolong {f : Flow α} (h : f.Fits) (actions : List (Action α)) :
    (f.prolong actions).Fits := h

/-- Other than one flow merge into branches without an action of their
own. -/
theorem merge_eq {fs : List (Flow α)} (h : fs.length ≠ 1) :
    merge fs = ⟨[], .branches (fs.map finish)⟩ := by
  match fs with
  | [] => rfl
  | [f] => exact absurd rfl h
  | _ :: _ :: _ => rfl

/-- Flows that fit merge into one. -/
theorem fits_merge {fs : List (Flow α)} (hne : fs ≠ []) (h : ∀ f ∈ fs, f.Fits) :
    (merge fs).Fits := by
  match fs with
  | [] => exact absurd rfl hne
  | [f] => exact h f List.mem_cons_self
  | f :: f' :: rest =>
      refine ⟨?_, fun t ht => ?_⟩
      · rw [List.length_map, List.length_cons, List.length_cons]
        omega
      · obtain ⟨f'', hf'', rfl⟩ := List.mem_map.1 ht
        exact fits_finish (h f'' hf'')

theorem prolong_nil (f : Flow α) : f.prolong [] = f := by
  rw [prolong, List.append_nil]

/-- A flow is prolonged by one run of actions after another. -/
theorem prolong_prolong (f : Flow α) (as bs : List (Action α)) :
    (f.prolong as).prolong bs = f.prolong (as ++ bs) := by
  rw [prolong, prolong, prolong, List.append_assoc]

/-- What a flow is prolonged by is met at the end of every way. -/
theorem climbs_prolong (f : Flow α) (actions : List (Action α)) :
    (f.prolong actions).finish.climbs = f.finish.climbs.map (further actions) := by
  unfold finish prolong
  cases hbelow : f.below with
  | group ingredients =>
      rw [climbs_leaf, climbs_leaf]
      rfl
  | branches trees =>
      by_cases hne : trees = []
      · subst hne
        show (branch (f.actions ++ actions) []).climbs = (branch f.actions []).climbs.map _
        rw [climbs_of_paths_nil rfl, climbs_of_paths_nil rfl]
        rfl
      · rw [climbs_branch _ hne, climbs_branch _ hne, List.map_map, further_further]

/-- Flows that merge have their ways side by side. -/
theorem climbs_merge {fs : List (Flow α)} (hne : fs ≠ []) :
    (merge fs).finish.climbs = fs.flatMap fun f => f.finish.climbs := by
  match fs with
  | [] => exact absurd rfl hne
  | [f] =>
      rw [List.flatMap_singleton]
      rfl
  | f :: f' :: rest =>
      have hmerged : (merge (f :: f' :: rest)).finish.climbs
          = (((f :: f' :: rest).map finish).flatMap climbs).map (further []) :=
        climbs_branch [] (List.cons_ne_nil _ _)
      rw [hmerged, further_nil, List.map_id, List.flatMap_map]

end Flow

end RecipeChart
