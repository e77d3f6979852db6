/-
The cells of a table are what the rules are made of. Rows are put together
by moves that keep all cells: a row for each ingredient of a node, the rows
of its paths below one another, and the steps of a node at the end of a row
of somebody else. So the cells show the ingredients and the steps of all
nodes and the finish, each once, whatever the tree records of its numbers.

With what the tree has of the rules, this leads from the rules to the
table: nothing is lost on the way and nothing is doubled.
-/
import Mathlib.Algebra.GroupWithZero.Nat
import RecipeChart.Proofs.StepTree.Conservation
import RecipeChart.Proofs.Table.Tiling

namespace RecipeChart

open scoped List

variable {α β : Type}

-- =============================================================== goods

namespace StepTree

/-- The ingredients of all nodes of the tree. -/
def goods (t : StepTree α) : List (Ingredient α) := t.walk.flatMap ingredients

/-- The goods of a tree are its own ingredients and the goods of its
paths. -/
theorem goods_eq (t : StepTree α) : t.goods = t.ingredients ++ t.paths.flatMap goods := by
  obtain ⟨actions, ingredients, size, maxDepth, paths⟩ := t
  rw [goods, walk_node, List.flatMap_cons, List.flatMap_assoc]
  rfl

/-- Only the leaves of a tree that fits have ingredients. -/
theorem Fits.goods_eq {t : StepTree α} (h : t.Fits) : t.goods = t.leafIngredients := by
  induction h with
  | @node t hnode hpaths ih =>
      obtain ⟨hshape, -, -⟩ := checkNode_eq_ok_iff.1 hnode
      rw [StepTree.goods_eq]
      by_cases hp : t.paths = []
      · rw [leafIngredients_of_paths_nil hp, hp]
        exact List.append_nil _
      · have hitems : t.ingredients = [] := by
          have hne : t.paths.isEmpty = false := by simp [hp]
          simpa [isNodeShaped, hne] using hshape
        rw [leafIngredients_of_paths_ne_nil hp, hitems]
        exact List.flatMap_congr ih

/-- In an accepted tree they are those of the leaves, as no other node has
any. -/
theorem goods_of_check {t : StepTree α} (h : t.check = .ok ()) : t.goods = t.leafIngredients := by
  obtain ⟨depth, top, rfl, htop, -⟩ := root_of_check h
  have hne : (node [] [] top.size depth [top]).paths ≠ [] := List.cons_ne_nil top []
  rw [goods_eq, leafIngredients_of_paths_ne_nil hne]
  show [top].flatMap goods = [top].flatMap leafIngredients
  rw [List.flatMap_singleton, List.flatMap_singleton, htop.goods_eq]

-- ============================================================ renaming

variable {ε : Type} {f : α → Except ε β}

/-- Lists that are renamed one by one are renamed together. -/
theorem mapM_flatMap_eq_ok {γ δ ζ η : Type} {r : γ → Except ε δ} {F : γ → List ζ} {G : δ → List η}
    {s : ζ → Except ε η} {xs : List γ} {ys : List δ}
    (h : List.Forall₂ (fun x y => r x = .ok y) xs ys)
    (hparts : ∀ x ∈ xs, ∀ y, r x = .ok y → (F x).mapM s = .ok (G y)) :
    (xs.flatMap F).mapM s = .ok (ys.flatMap G) := by
  rw [mapM_eq_ok_iff]
  induction h with
  | nil => exact .nil
  | @cons x y xs ys hxy _ ih =>
      rw [List.forall_mem_cons] at hparts
      rw [List.flatMap_cons, List.flatMap_cons]
      exact List.rel_append (mapM_eq_ok_iff.1 (hparts.1 y hxy)) (ih hparts.2)

/-- What is resolved in two parts is resolved as a whole. -/
theorem mapM_append_eq_ok {γ δ : Type} {s : γ → Except ε δ} {xs xs' : List γ} {ys ys' : List δ}
    (h : xs.mapM s = .ok ys) (h' : xs'.mapM s = .ok ys') :
    (xs ++ xs').mapM s = .ok (ys ++ ys') := by
  rw [mapM_eq_ok_iff] at h h' ⊢
  exact List.rel_append h h'

/-- The nodes of a renamed tree have the actions and the ingredients of the
tree, renamed. -/
theorem parts_of_traverse {t : StepTree α} : ∀ {u : StepTree β}, t.traverse f = .ok u →
    t.work.mapM (Action.traverse f) = .ok u.work
      ∧ t.goods.mapM (Ingredient.traverse f) = .ok u.goods := by
  induction t using induct with
  | node actions items size maxDepth paths ih =>
      intro u hu
      obtain ⟨-, -, ha, hi, hps⟩ := traverse_eq_ok_iff.1 hu
      rw [work_eq, goods_eq, u.work_eq, u.goods_eq]
      constructor
      · exact mapM_append_eq_ok ha (mapM_flatMap_eq_ok hps fun p hp q hq => (ih p hp hq).1)
      · exact mapM_append_eq_ok hi (mapM_flatMap_eq_ok hps fun p hp q hq => (ih p hp hq).2)

/-- A tree can be renamed if all its actions and ingredients can. -/
theorem exists_traverse {t : StepTree α} (hwork : ∀ a ∈ t.work, ∃ b, a.traverse f = .ok b)
    (hgoods : ∀ i ∈ t.goods, ∃ j, i.traverse f = .ok j) : ∃ u, t.traverse f = .ok u := by
  induction t using induct with
  | node actions items size maxDepth paths ih =>
      rw [work_eq, List.forall_mem_append] at hwork
      rw [goods_eq, List.forall_mem_append] at hgoods
      obtain ⟨bs, hbs⟩ := exists_mapM_eq_ok hwork.1
      obtain ⟨js, hjs⟩ := exists_mapM_eq_ok hgoods.1
      have hpaths : ∀ p ∈ paths, ∃ q, p.traverse f = .ok q := by
        intro p hp
        refine ih p hp (fun a ha => hwork.2 a ?_) fun i hi => hgoods.2 i ?_
        · exact List.mem_flatMap.2 ⟨p, hp, ha⟩
        · exact List.mem_flatMap.2 ⟨p, hp, hi⟩
      obtain ⟨qs, hqs⟩ := exists_mapM_eq_ok hpaths
      exact ⟨.node bs js size maxDepth qs,
        traverse_eq_ok_iff.2 ⟨rfl, rfl, hbs, hjs, mapM_eq_ok_iff.1 hqs⟩⟩

/-- A tree of ingredients and actions that can be renamed is renamed to one
of the renamed. -/
theorem exists_traverse_perm {t : StepTree α} {goods : List (Ingredient α)} {work : List (Action α)}
    {goods' : List (Ingredient β)} {work' : List (Action β)} (hgoods : t.goods.Perm goods)
    (hwork : t.work.Perm work) (hgoods' : goods.mapM (Ingredient.traverse f) = .ok goods')
    (hwork' : work.mapM (Action.traverse f) = .ok work') :
    ∃ u, t.traverse f = .ok u ∧ u.goods.Perm goods' ∧ u.work.Perm work' := by
  obtain ⟨js, hjs, hitems⟩ := mapM_perm hgoods hgoods'
  obtain ⟨bs, hbs, hactions⟩ := mapM_perm hwork hwork'
  obtain ⟨u, hu⟩ : ∃ u, t.traverse f = .ok u := by
    refine exists_traverse (fun a ha => ?_) fun i hi => ?_
    · obtain ⟨b, -, hb⟩ := counterpart_of_mem_left (mapM_eq_ok_iff.1 hbs) ha
      exact ⟨b, hb⟩
    · obtain ⟨j, -, hj⟩ := counterpart_of_mem_left (mapM_eq_ok_iff.1 hjs) hi
      exact ⟨j, hj⟩
  obtain ⟨hwork', hgoods'⟩ := parts_of_traverse hu
  cases hbs.symm.trans hwork'
  cases hjs.symm.trans hgoods'
  exact ⟨u, hu, hitems, hactions⟩

end StepTree

-- ================================================================ rows

namespace Table

/-- What the cells of the rows show. -/
def contents (rows : List (List (Cell α))) : List (CellContent α) := rows.flatten.map (·.content)

/-- What rows show, they show one after another. -/
@[simp]
theorem contents_append (rows rows' : List (List (Cell α))) :
    contents (rows ++ rows') = contents rows ++ contents rows' := by
  rw [contents, List.flatten_append, List.map_append]
  rfl

/-- The rows of ingredients show the ingredients. -/
@[simp]
theorem contents_ingredientRows (width : Int) (items : List (Ingredient α)) :
    contents (ingredientRows width items) = items.map .ingredient := by
  rw [contents, ingredientRows, ← List.flatMap_def, List.map_flatMap]
  exact List.flatMap_pure_eq_map _ _

/-- The cells of steps show the steps. -/
theorem map_content_stepCells (t : StepTree α) :
    (stepCells t).map (·.content) = t.actions.map .step := by
  rw [stepCells, List.map_map]
  rfl

/-- Cells at the end of the first row are shown beside the others. -/
theorem contents_endFirst {cells : List (Cell α)} {rows ended : List (List (Cell α))}
    (h : endFirst cells rows = .ok ended) :
    (contents ended).Perm (cells.map (·.content) ++ contents rows) := by
  cases rows with
  | nil => cases h
  | cons row rows =>
      cases h
      simp only [contents, List.flatten_cons, List.map_append, List.append_assoc]
      exact List.perm_append_comm_assoc _ _ _

/-- What the rows of a node show: the cells that end them, the ingredients
of all nodes, and the steps of the nodes below. -/
def Showing (t : StepTree α) : Prop :=
  ∀ columns ending rows, rowsOf columns ending t = .ok rows →
    (contents rows).Perm (ending.map (·.content)
      ++ (t.goods.map .ingredient ++ (t.paths.flatMap StepTree.work).map .step))

/-- Ended by its own steps, a node shows the steps of all nodes. -/
theorem Showing.contents_stepCells {t : StepTree α} (h : Showing t) {columns : Int}
    {rows : List (List (Cell α))} (hrows : rowsOf columns (stepCells t) t = .ok rows) :
    (contents rows).Perm (t.goods.map .ingredient ++ t.work.map .step) := by
  have hall := h columns _ rows hrows
  rw [map_content_stepCells] at hall
  rw [t.work_eq, List.map_append]
  exact hall.trans (List.perm_append_comm_assoc _ _ _)

/-- The rows of several nodes show all that is in them. -/
theorem contents_rowsOfAll {ts : List (StepTree α)} (hts : ∀ t ∈ ts, Showing t) {columns : Int}
    {rows : List (List (Cell α))} (h : rowsOfAll columns ts = .ok rows) :
    (contents rows).Perm ((ts.flatMap StepTree.goods).map .ingredient
      ++ (ts.flatMap StepTree.work).map .step) := by
  induction ts generalizing rows with
  | nil =>
      rw [rowsOfAll] at h
      cases h
      exact .refl _
  | cons t ts ih =>
      rw [List.forall_mem_cons] at hts
      rw [rowsOfAll] at h
      obtain ⟨rest, hrest, h⟩ := bind_eq_ok_iff.1 h
      obtain ⟨first, hfirst, h⟩ := bind_eq_ok_iff.1 h
      cases h
      simp only [contents_append, List.flatMap_cons, List.map_append]
      exact ((hts.1.contents_stepCells hfirst).append (ih hts.2 hrest)).trans
        (perm_append_exchange _ _ _ _)

/-- Whatever a tree records, its rows show all that is in it, each once. -/
theorem contents_rowsOf (t : StepTree α) : Showing t := by
  induction t using StepTree.induct with
  | node actions items size maxDepth paths ih =>
      intro columns ending rows h
      rw [rowsOf] at h
      rw [StepTree.goods_eq, List.map_append, List.append_assoc]
      show (contents rows).Perm (ending.map (·.content) ++ (items.map .ingredient
        ++ ((paths.flatMap StepTree.goods).map .ingredient
          ++ (paths.flatMap StepTree.work).map .step)))
      by_cases hp : paths.isEmpty = true
      · rw [if_pos hp] at h
        simpa [List.isEmpty_iff.1 hp] using contents_endFirst h
      · rw [if_neg hp] at h
        obtain ⟨below, hbelow, h⟩ := bind_eq_ok_iff.1 h
        obtain ⟨ended, hended, h⟩ := bind_eq_ok_iff.1 h
        cases h
        have hall := (contents_endFirst hended).trans
          ((contents_rowsOfAll ih hbelow).append_left _)
        rw [contents_append, contents_ingredientRows]
        exact (hall.append_left _).trans (List.perm_append_comm_assoc _ _ _)

-- ============================================================ the table

/-- The table of an accepted tree shows its ingredients, its steps and one
finish. -/
theorem contents_ofTree {t : StepTree α} (h : t.check = .ok ()) :
    ∃ table, Table.ofTree t = .ok table
      ∧ (contents table.rows).Perm (t.goods.map .ingredient ++ t.work.map .step ++ [.done]) := by
  obtain ⟨hmade, -⟩ := Layout.laidOut_of_check h
  refine ⟨_, by rw [ofTree_eq, hmade]; rfl, ?_⟩
  have hrows := contents_rowsOf t _ _ _ hmade
  obtain ⟨depth, top, rfl, -, -⟩ := StepTree.root_of_check h
  rw [StepTree.work_eq]
  exact hrows.trans List.perm_append_comm

end Table

/-- What goes in is what comes out. In a recipe without empty groups that
is free of problems, the nodes of the tree have the steps of the rules, and
its leaves the groups, each once; the size of the tree is the number of the
ingredients. When a registry knows the texts, the cells of the table show
the ingredients, the steps and one finish, each once. -/
theorem nothing_lost_or_doubled {fs : List (Fragment Handle)}
    (hgroups : ∀ f ∈ fs, ∀ group, f.start = .group group → group.ingredients ≠ []) :
    ∃ v, checkFragments fs = .ok v ∧ (v.diagnostics = [] → ∃ t, v.tree = some t
      ∧ (t.walk.flatMap StepTree.actions).Perm (fs.flatMap Fragment.steps)
      ∧ ((t.walk.filter StepTree.isLeaf).map StepTree.ingredients).Perm
          ((fs.filterMap Fragment.group?).map (·.ingredients))
      ∧ t.size = (((fs.filterMap Fragment.group?).map (·.ingredients.length)).sum : Nat)
      ∧ ∀ (r : Registry) (items : List (Ingredient String)) (steps : List (Action String)),
        ((fs.filterMap Fragment.group?).flatMap (·.ingredients)).mapM
            (Ingredient.traverse r.resolve) = .ok items →
          (fs.flatMap Fragment.steps).mapM (Action.traverse r.resolve) = .ok steps →
          ∃ u table, t.traverse r.resolve = .ok u ∧ Table.ofTree u = .ok table
            ∧ (table.rows.flatten.map (·.content)).Perm
              (items.map .ingredient ++ steps.map .step ++ [.done])) := by
  by_cases hsound : Sound fs
  · obtain ⟨f, roots, hbuilds, hcheck, hv⟩ := verdict_of_sound hsound hgroups
    obtain ⟨t, ht, hassemble⟩ := assembled_of_check hv hsound
    cases ht
    have hwork := hsound.work_tree hassemble
    have hleaves := hsound.leaves_perm hbuilds
    have hgoods := hleaves.flatten
    rw [← List.flatMap_def] at hgoods
    refine ⟨_, hv, fun _ => ⟨_, rfl, hwork, hleaves, ?_, fun r items steps hitems hsteps => ?_⟩⟩
    · rw [StepTree.size_of_check hcheck, StepTree.leafIngredients, hgoods.length_eq,
        List.length_flatten, List.map_map]
      rfl
    · rw [← StepTree.leafIngredients, ← StepTree.goods_of_check hcheck,
        ← List.flatMap_def] at hgoods
      obtain ⟨u, hu, hitems', hsteps'⟩ := StepTree.exists_traverse_perm hgoods hwork hitems hsteps
      obtain ⟨table, htable, hcontents⟩ :=
        Table.contents_ofTree (StepTree.check_of_traverse hcheck hu)
      refine ⟨u, table, hu, htable, hcontents.trans ?_⟩
      exact ((hitems'.map _).append (hsteps'.map _)).append_right _
  · obtain ⟨v, hv, hne⟩ := check_of_not_sound hsound
    exact ⟨v, hv, fun hclean => absurd hclean hne⟩

/-- A registry that knows the texts of the fragments below. -/
def pancakeTexts : Registry where
  strings := ["egg", "2", "beat", "bowl", "flour", "milk", "stir", "mix", "salt", "fry"]

/-- Eggs are beaten, flour and milk are stirred, and both are mixed and
fried together: a step for one group, and steps for all. -/
def mintedPancakes : List (Fragment Handle) :=
  [⟨.group ⟨[⟨⟨0⟩, some ⟨1⟩⟩], none⟩, [.step ⟨⟨⟨2⟩, []⟩, none⟩], some (.join ⟨⟨3⟩, none⟩)⟩,
    ⟨.group ⟨[⟨⟨4⟩, none⟩, ⟨⟨5⟩, none⟩], none⟩, [.step ⟨⟨⟨6⟩, []⟩, none⟩],
      some (.join ⟨⟨3⟩, none⟩)⟩,
    ⟨.join ⟨⟨3⟩, none⟩, [.step ⟨⟨⟨7⟩, [⟨⟨8⟩, none⟩]⟩, none⟩, .step ⟨⟨⟨9⟩, []⟩, none⟩],
      some (.done none)⟩]

theorem diagnostics_mintedPancakes :
    Verdict.diagnostics <$> checkFragments mintedPancakes = .ok [] :=
  diagnostics_eq_nil (by simp [mintedPancakes]) (by decide +kernel) (by decide +kernel)
    (by decide +kernel) (by decide +kernel)

/-- The table of the pancakes has three cells of ingredients, four of steps
and the finish. -/
theorem nothing_lost_or_doubled_pancakes :
    (∀ f ∈ mintedPancakes, ∀ group, f.start = .group group → group.ingredients ≠ [])
      ∧ ∃ v, checkFragments mintedPancakes = .ok v ∧ v.diagnostics = [] ∧ ∃ t, v.tree = some t
        ∧ t.size = 3 ∧ ∃ u table, t.traverse pancakeTexts.resolve = .ok u
          ∧ Table.ofTree u = .ok table
          ∧ (table.rows.flatten.map (·.content)).Perm
            [.ingredient ⟨"egg", some "2"⟩, .ingredient ⟨"flour", none⟩, .ingredient ⟨"milk", none⟩,
              .step ⟨"beat", []⟩, .step ⟨"stir", []⟩, .step ⟨"mix", [⟨"salt", none⟩]⟩,
              .step ⟨"fry", []⟩, .done] := by
  have hgroups : ∀ f ∈ mintedPancakes, ∀ group, f.start = .group group →
      group.ingredients ≠ [] := by
    simp [mintedPancakes]
  obtain ⟨v, hv, hall⟩ := nothing_lost_or_doubled hgroups
  obtain ⟨w, hw, hclean⟩ := map_eq_ok_iff.1 diagnostics_mintedPancakes
  cases hv.symm.trans hw
  obtain ⟨t, ht, -, -, hsize, htable⟩ := hall hclean
  obtain ⟨u, table, hu, hmade, hcells⟩ := htable pancakeTexts _ _ rfl rfl
  exact ⟨hgroups, v, hv, hclean, t, ht, hsize, u, table, hu, hmade, hcells⟩

end RecipeChart
