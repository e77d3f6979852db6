/-
Trees that fit. A tree fits when each of its nodes passes the local check:
it has ingredients or paths and not both, and records the size and the
depth that its parts make due. The check of a whole tree walks a flat list
of nodes; here it is unrolled along the tree, so that what holds of a tree
that was accepted is proved by induction from the paths to the node.
-/
import RecipeChart.Proofs.Traversal
import RecipeChart.StepTree.Check

namespace RecipeChart.StepTree

variable {α : Type}

-- =========================================================== induction

/-- What passes from the paths to their node holds of every tree. -/
@[elab_as_elim]
theorem induct {motive : StepTree α → Prop}
    (node : ∀ actions ingredients size maxDepth paths, (∀ p ∈ paths, motive p) →
      motive (.node actions ingredients size maxDepth paths)) (t : StepTree α) : motive t := by
  refine @StepTree.rec α motive (fun ts => ∀ p ∈ ts, motive p)
    node (fun p hp => nomatch hp) (fun t ts ht hts p hp => ?_) t
  rcases List.mem_cons.1 hp with rfl | hp
  · exact ht
  · exact hts p hp

/-- The walk sets out from the node itself. -/
theorem walk_eq_cons (t : StepTree α) : t.walk = t :: t.paths.flatMap walk := by
  cases t with
  | node actions ingredients size maxDepth paths => exact walk_node _ _ _ _ paths

/-- A tree is one of its nodes. -/
theorem mem_walk_self (t : StepTree α) : t ∈ t.walk := by
  rw [walk_eq_cons]
  exact List.mem_cons_self

-- ============================================================= numbers

/-- A maximum taken along a list is no less than where it set out, nor
than anything it met. -/
private theorem le_foldl_max (ns : List Int) :
    ∀ m : Int, m ≤ ns.foldl max m ∧ ∀ n ∈ ns, n ≤ ns.foldl max m := by
  induction ns with
  | nil => intro m; exact ⟨Int.le_refl m, fun n hn => absurd hn List.not_mem_nil⟩
  | cons k ns ih =>
      intro m
      obtain ⟨hle, hmem⟩ := ih (max m k)
      rw [List.foldl_cons]
      refine ⟨Int.le_trans (Int.le_max_left m k) hle, fun n hn => ?_⟩
      rcases List.mem_cons.1 hn with rfl | hn
      · exact Int.le_trans (Int.le_max_right m n) hle
      · exact hmem n hn

/-- No number of several exceeds the greatest. -/
theorem le_greatest {n : Int} {ns : List Int} (h : n ∈ ns) : n ≤ greatest ns := by
  cases ns with
  | nil => cases h
  | cons m ns =>
      rw [greatest]
      rcases List.mem_cons.1 h with rfl | h
      · exact (le_foldl_max ns n).1
      · exact (le_foldl_max ns m).2 n h

/-- Numbers that are not negative have no negative total. -/
theorem total_nonneg {ns : List Int} (h : ∀ n ∈ ns, 0 ≤ n) : 0 ≤ total ns := by
  induction ns with
  | nil => exact Int.le_refl 0
  | cons n ns ih =>
      have hn := h n List.mem_cons_self
      have hrest := ih fun k hk => h k (List.mem_cons_of_mem n hk)
      rw [total]
      omega

/-- Numbers that are all at least one add up to at least one, unless there
are none. -/
theorem one_le_total {ns : List Int} (hne : ns ≠ []) (h : ∀ n ∈ ns, 1 ≤ n) :
    1 ≤ total ns := by
  cases ns with
  | nil => exact absurd rfl hne
  | cons n ns =>
      have hn := h n List.mem_cons_self
      have hrest : 0 ≤ total ns := total_nonneg fun k hk => by
        have := h k (List.mem_cons_of_mem n hk)
        omega
      rw [total]
      omega

/-- Lengths add up. -/
theorem total_map_length {β γ : Type} {key : β → Int} {F : β → List γ} {items : List β}
    (h : ∀ b ∈ items, key b = (F b).length) :
    total (items.map key) = (items.flatMap F).length := by
  induction items with
  | nil => rfl
  | cons b items ih =>
      rw [List.forall_mem_cons] at h
      rw [List.map_cons, total, h.1, ih h.2, List.flatMap_cons, List.length_append, Int.natCast_add]

-- ============================================================== leaves

/-- The ingredients of the leaves, in their order. -/
def leafIngredients (t : StepTree α) : List (Ingredient α) :=
  (t.walk.filter isLeaf).flatMap ingredients

/-- The ingredients of a leaf are its own. -/
theorem leafIngredients_of_paths_nil {t : StepTree α} (h : t.paths = []) :
    t.leafIngredients = t.ingredients := by
  obtain ⟨actions, items, size, maxDepth, paths⟩ := t
  rw [show paths = [] from h, leafIngredients, walk_node]
  exact List.append_nil items

/-- The leaf ingredients of any other node are those of its paths. -/
theorem leafIngredients_of_paths_ne_nil {t : StepTree α} (h : t.paths ≠ []) :
    t.leafIngredients = t.paths.flatMap leafIngredients := by
  obtain ⟨actions, items, size, maxDepth, paths⟩ := t
  have hinner : ¬ (node actions items size maxDepth paths).isLeaf = true :=
    fun hleaf => h (List.isEmpty_iff.1 hleaf)
  rw [leafIngredients, walk_node, List.filter_cons_of_neg hinner, List.filter_flatMap,
    List.flatMap_assoc]
  rfl

-- ============================================================= fitting

/-- A tree fits when its node passes the check and its paths fit. -/
inductive Fits : StepTree α → Prop
  | node {t : StepTree α} (hnode : t.checkNode = .ok ()) (hpaths : ∀ p ∈ t.paths, p.Fits) :
      t.Fits

/-- A tree fits exactly when every node of its walk passes the check. -/
theorem fits_iff_walk (t : StepTree α) : t.Fits ↔ ∀ n ∈ t.walk, n.checkNode = .ok () := by
  induction t using induct with
  | node a i s d ps ih =>
      rw [walk_node, List.forall_mem_cons]
      constructor
      · intro hchecks
        obtain ⟨hnode, hpaths⟩ := hchecks
        refine ⟨hnode, fun n hn => ?_⟩
        obtain ⟨p, hp, hn⟩ := List.mem_flatMap.1 hn
        exact (ih p hp).1 (hpaths p hp) n hn
      · intro hchecks
        obtain ⟨hnode, hbelow⟩ := hchecks
        refine .node hnode fun p hp => (ih p hp).2 fun n hn => ?_
        exact hbelow n (List.mem_flatMap.2 ⟨p, hp, hn⟩)

/-- The numbers of a node pass exactly when they are the ones due. -/
theorem checkNumbers_eq_ok_iff {t : StepTree α} :
    t.checkNumbers = .ok () ↔ t.size = t.dueSize ∧ t.maxDepth = t.dueDepth := by
  unfold checkNumbers
  split
  · next h => exact ⟨fun hc => (nomatch hc), fun hc => absurd hc.1 h⟩
  · next h =>
      split
      · next h' => exact ⟨fun hc => (nomatch hc), fun hc => absurd hc.2 h'⟩
      · next h' => exact ⟨fun _ => ⟨Decidable.not_not.1 h, Decidable.not_not.1 h'⟩, fun _ => rfl⟩

/-- A node passes exactly when it has the shape of a node and records what
is due. -/
theorem checkNode_eq_ok_iff {t : StepTree α} :
    t.checkNode = .ok () ↔
      t.isNodeShaped = true ∧ t.size = t.dueSize ∧ t.maxDepth = t.dueDepth := by
  unfold checkNode
  split
  · next h => rw [checkNumbers_eq_ok_iff]; exact ⟨fun hc => ⟨h, hc⟩, fun hc => hc.2⟩
  · next h => exact ⟨fun hc => (nomatch hc), fun hc => absurd hc.1 h⟩

/-- A root has one path and nothing of its own. -/
theorem isRootShaped_iff {root : StepTree α} :
    root.isRootShaped = true ↔ ∃ size maxDepth top, root = .node [] [] size maxDepth [top] := by
  constructor
  · intro h
    match root, h with
    | .node [] [] size maxDepth [top], _ => exact ⟨size, maxDepth, top, rfl⟩
  · intro hchecks
    obtain ⟨size, maxDepth, top, rfl⟩ := hchecks
    rfl

/-- A tree is accepted exactly when its root is bare over one path and
records what is due, and what is below the root fits. -/
theorem check_eq_ok_iff {root : StepTree α} :
    root.check = .ok () ↔
      root.isRootShaped = true ∧ (root.size = root.dueSize ∧ root.maxDepth = root.dueDepth)
        ∧ ∀ p ∈ root.paths, p.Fits := by
  unfold check
  split
  · next h =>
      rw [bind_eq_ok_iff]
      constructor
      · intro hchecks
        obtain ⟨_, hroot, hbelow⟩ := hchecks
        refine ⟨h, checkNumbers_eq_ok_iff.1 hroot, fun p hp => (fits_iff_walk p).2 fun n hn => ?_⟩
        rw [walkAll_eq] at hbelow
        exact forM_eq_ok_iff.1 hbelow n (List.mem_flatMap.2 ⟨p, hp, hn⟩)
      · intro hchecks
        obtain ⟨-, hroot, hpaths⟩ := hchecks
        refine ⟨(), checkNumbers_eq_ok_iff.2 hroot, ?_⟩
        rw [walkAll_eq, forM_eq_ok_iff]
        intro n hn
        obtain ⟨p, hp, hn⟩ := List.mem_flatMap.1 hn
        exact (fits_iff_walk p).1 (hpaths p hp) n hn
  · next h => exact ⟨fun hc => (nomatch hc), fun hc => absurd hc.1 h⟩

namespace Fits

/-- A tree that fits has ingredients below it. -/
theorem one_le_size {t : StepTree α} (h : t.Fits) : 1 ≤ t.size := by
  induction h with
  | @node t hnode hpaths ih =>
      obtain ⟨hshape, hsize, -⟩ := checkNode_eq_ok_iff.1 hnode
      rw [hsize, dueSize]
      unfold isNodeShaped isLeaf at *
      cases hp : t.paths with
      | nil =>
          rw [hp] at hshape
          have hi : t.ingredients ≠ [] := by simpa using hshape
          have := List.length_pos_iff.2 hi
          simp only [List.isEmpty_nil, if_true]
          omega
      | cons p ps =>
          simp only [List.isEmpty_cons, Bool.false_eq_true, if_false]
          refine one_le_total (by simp) fun n hn => ?_
          obtain ⟨q, hq, rfl⟩ := List.mem_map.1 hn
          exact ih q (by rw [hp]; exact hq)

/-- The way from a path down is no longer than the depth less the actions
of the node. -/
theorem length_add_le {t p : StepTree α} (h : t.Fits) (hp : p ∈ t.paths) :
    t.actions.length + p.maxDepth ≤ t.maxDepth := by
  obtain ⟨hnode, -⟩ := h
  obtain ⟨-, -, hdepth⟩ := checkNode_eq_ok_iff.1 hnode
  have := le_greatest (List.mem_map_of_mem (f := maxDepth) hp)
  rw [hdepth, dueDepth]
  omega

/-- A node is at least as deep as its actions are many. -/
theorem length_le {t : StepTree α} (h : t.Fits) : (t.actions.length : Int) ≤ t.maxDepth := by
  induction h with
  | @node t hnode hpaths ih =>
      cases hp : t.paths with
      | nil =>
          obtain ⟨-, -, hdepth⟩ := checkNode_eq_ok_iff.1 hnode
          rw [hdepth, dueDepth, hp]
          simp [greatest]
      | cons p ps =>
          have hmem : p ∈ t.paths := by rw [hp]; exact List.mem_cons_self
          have := length_add_le (.node hnode hpaths) hmem
          have := ih p hmem
          omega

/-- The size of a tree that fits is the number of the ingredients of its
leaves. -/
theorem size_eq {t : StepTree α} (h : t.Fits) : t.size = t.leafIngredients.length := by
  induction h with
  | @node t hnode hpaths ih =>
      obtain ⟨-, hsize, -⟩ := checkNode_eq_ok_iff.1 hnode
      rw [hsize, dueSize, isLeaf]
      by_cases hp : t.paths = []
      · rw [leafIngredients_of_paths_nil hp, hp]
        rfl
      · rw [leafIngredients_of_paths_ne_nil hp, if_neg (by rwa [List.isEmpty_iff])]
        exact total_map_length ih

end Fits

/-- An accepted tree is a bare root over one tree that fits, and records its
numbers. -/
theorem root_of_check {root : StepTree α} (h : root.check = .ok ()) :
    ∃ (depth : Nat) (top : StepTree α), root = .node [] [] top.size depth [top]
      ∧ top.Fits ∧ top.maxDepth = depth := by
  obtain ⟨hshape, ⟨hsize, hdepth⟩, hpaths⟩ := check_eq_ok_iff.1 h
  obtain ⟨size, maxDepth, top, rfl⟩ := isRootShaped_iff.1 hshape
  have htop : top.Fits := hpaths top List.mem_cons_self
  have hactions := htop.length_le
  have hsize : size = top.size + 0 := hsize
  have hdepth : maxDepth = 0 + top.maxDepth := hdepth
  obtain ⟨depth, hnat⟩ := Int.eq_ofNat_of_zero_le (a := top.maxDepth) (by omega)
  exact ⟨depth, top, by rw [hsize, hdepth, Int.add_zero, Int.zero_add, hnat], htop, hnat⟩

/-- The size of an accepted tree is the number of the ingredients of its
leaves. -/
theorem size_of_check {root : StepTree α} (h : root.check = .ok ()) :
    root.size = root.leafIngredients.length := by
  obtain ⟨depth, top, rfl, htop, -⟩ := root_of_check h
  have hne : (node [] [] top.size depth [top]).paths ≠ [] := List.cons_ne_nil top []
  rw [leafIngredients_of_paths_ne_nil hne]
  show top.size = ([top].flatMap leafIngredients).length
  rw [List.flatMap_singleton, htop.size_eq]

-- ============================================================ renaming

variable {β ε : Type} {f : α → Except ε β}

private theorem isEmpty_eq_of_length {γ δ : Type} {xs : List γ} {ys : List δ}
    (h : xs.length = ys.length) : xs.isEmpty = ys.isEmpty :=
  isEmpty_congr (by rw [← List.length_eq_zero_iff, ← List.length_eq_zero_iff, h])

/-- Several trees are renamed one by one. -/
theorem traverseAll_eq_mapM (ts : List (StepTree α)) :
    traverseAll f ts = ts.mapM (traverse f) := by
  induction ts with
  | nil => rfl
  | cons t ts ih => rw [traverseAll, List.mapM_cons, ih]

/-- A tree is renamed by renaming its actions, its ingredients and its
paths. -/
theorem traverse_eq_ok_iff {t : StepTree α} {u : StepTree β} :
    t.traverse f = .ok u ↔ u.size = t.size ∧ u.maxDepth = t.maxDepth
      ∧ t.actions.mapM (Action.traverse f) = .ok u.actions
      ∧ t.ingredients.mapM (Ingredient.traverse f) = .ok u.ingredients
      ∧ List.Forall₂ (fun p q => p.traverse f = .ok q) t.paths u.paths := by
  obtain ⟨a, i, s, d, ps⟩ := t
  obtain ⟨a', i', s', d', ps'⟩ := u
  rw [traverse, traverseAll_eq_mapM]
  constructor
  · intro h
    obtain ⟨_, ha, h⟩ := bind_eq_ok_iff.1 h
    obtain ⟨_, hi, h⟩ := bind_eq_ok_iff.1 h
    obtain ⟨_, hps, h⟩ := bind_eq_ok_iff.1 h
    cases h
    exact ⟨rfl, rfl, ha, hi, mapM_eq_ok_iff.1 hps⟩
  · intro ⟨hsize, hdepth, ha, hi, hps⟩
    cases hsize
    cases hdepth
    exact bind_eq_ok_iff.2 ⟨_, ha, bind_eq_ok_iff.2 ⟨_, hi,
      bind_eq_ok_iff.2 ⟨_, mapM_eq_ok_iff.2 hps, rfl⟩⟩⟩

/-- A renamed tree has the numbers of the tree, as many actions and
ingredients, and its paths renamed. -/
theorem shape_of_traverse {t : StepTree α} {u : StepTree β} (h : t.traverse f = .ok u) :
    u.size = t.size ∧ u.maxDepth = t.maxDepth ∧ u.actions.length = t.actions.length
      ∧ u.ingredients.length = t.ingredients.length
      ∧ List.Forall₂ (fun p q => p.traverse f = .ok q) t.paths u.paths := by
  obtain ⟨hsize, hdepth, ha, hi, hps⟩ := traverse_eq_ok_iff.1 h
  exact ⟨hsize, hdepth, length_of_mapM_eq_ok ha, length_of_mapM_eq_ok hi, hps⟩

/-- A renamed tree lies as deep inside one another. -/
theorem nesting_of_traverse {t : StepTree α} :
    ∀ {u : StepTree β}, t.traverse f = .ok u → u.nesting = t.nesting := by
  induction t using induct with
  | node actions ingredients size maxDepth paths ih =>
      intro u hu
      obtain ⟨actions', ingredients', size', maxDepth', paths'⟩ := u
      obtain ⟨-, -, -, -, hps⟩ := traverse_eq_ok_iff.1 hu
      replace hps : List.Forall₂ (fun p q => p.traverse f = .ok q) paths paths' := hps
      have hall : nestingAll paths' = nestingAll paths := by
        clear hu
        induction hps with
        | nil => rfl
        | @cons p q ps qs hpq _ ihps =>
            rw [List.forall_mem_cons] at ih
            rw [nestingAll, nestingAll, ih.1 hpq, ihps ih.2]
      rw [nesting, nesting, hall]

/-- The numbers due do not depend on the names. -/
theorem due_of_traverse {t : StepTree α} {u : StepTree β} (h : t.traverse f = .ok u) :
    u.dueSize = t.dueSize ∧ u.dueDepth = t.dueDepth := by
  obtain ⟨-, -, hactions, hingredients, hpaths⟩ := shape_of_traverse h
  have hsizes : u.paths.map size = t.paths.map size :=
    (map_eq_of_forall₂ hpaths fun _ _ h => (shape_of_traverse h).1.symm).symm
  have hdepths : u.paths.map maxDepth = t.paths.map maxDepth :=
    (map_eq_of_forall₂ hpaths fun _ _ h => (shape_of_traverse h).2.1.symm).symm
  have hleaf : u.isLeaf = t.isLeaf := by
    unfold isLeaf
    rw [isEmpty_eq_of_length hpaths.length_eq]
  unfold dueSize dueDepth
  rw [hleaf, hingredients, hsizes, hactions, hdepths]
  exact ⟨rfl, rfl⟩

/-- A renamed tree fits if the tree does. -/
theorem Fits.traverse {t : StepTree α} (h : t.Fits) :
    ∀ {u : StepTree β}, t.traverse f = .ok u → u.Fits := by
  induction h with
  | @node t hnode hpaths ih =>
      intro u hu
      obtain ⟨hsize, hdepth, -, hingredients, hps⟩ := shape_of_traverse hu
      obtain ⟨hdueSize, hdueDepth⟩ := due_of_traverse hu
      obtain ⟨hshape, hs, hd⟩ := checkNode_eq_ok_iff.1 hnode
      refine .node (checkNode_eq_ok_iff.2 ⟨?_, ?_, ?_⟩) fun q hq => ?_
      · unfold isNodeShaped at hshape ⊢
        rw [isEmpty_eq_of_length hingredients, isEmpty_eq_of_length hps.length_eq.symm]
        exact hshape
      · rw [hsize, hdueSize, hs]
      · rw [hdepth, hdueDepth, hd]
      · obtain ⟨p, hp, hpq⟩ := counterpart_of_mem_right hps hq
        exact ih p hp hpq

/-- A renamed tree is accepted if the tree is. -/
theorem check_of_traverse {t : StepTree α} {u : StepTree β} (h : t.check = .ok ())
    (hu : t.traverse f = .ok u) : u.check = .ok () := by
  obtain ⟨hsize, hdepth, hactions, hingredients, hps⟩ := shape_of_traverse hu
  obtain ⟨hdueSize, hdueDepth⟩ := due_of_traverse hu
  obtain ⟨hshape, ⟨hs, hd⟩, hpaths⟩ := check_eq_ok_iff.1 h
  refine check_eq_ok_iff.2 ⟨?_, ⟨?_, ?_⟩, fun q hq => ?_⟩
  · unfold isRootShaped at hshape ⊢
    rw [isEmpty_eq_of_length hactions, isEmpty_eq_of_length hingredients, hps.length_eq.symm]
    exact hshape
  · rw [hsize, hdueSize, hs]
  · rw [hdepth, hdueDepth, hd]
  · obtain ⟨p, hp, hpq⟩ := counterpart_of_mem_right hps hq
    exact (hpaths p hp).traverse hpq

end RecipeChart.StepTree
