/-
The check of a tree, told from the outside. The check never counts: it
compares a node with what its paths record, parents first, so a number that
is wrong in a parent and wrong in its child could seem to fit. It cannot.
Where every node records what its paths make due, the numbers at the leaves
are counted, and each number above them is then the one that is counted
below; where every node records what is counted, the same numbers are due.
Both go by one induction from the paths to the node, whose step is that
what is due over counted paths is what is counted (`dueSize_eq`,
`isGreatest_dueDepth`).

The complaint of a check that fails is told node by node along the walk: it
is that of the first node with one, and says what the node records and what
its paths make due.
-/
import Mathlib.Algebra.Ring.Int.Defs
import Mathlib.Order.Bounds.Basic
import RecipeChart.Proofs.StepTree.Ways

namespace RecipeChart.StepTree

variable {α : Type}

-- ============================================================ counting

/-- The numbers of actions met on the ways up to the node, its own
included. -/
def wayLengths (t : StepTree α) : Set Int :=
  {n | ∃ way ∈ t.ways, n = (way.flatMap actions).length}

/-- Does the node record what is counted: the ingredients of the leaves
below it, and the actions on the longest way up from one of them? -/
structure Counts (t : StepTree α) : Prop where
  size : t.size = t.leafIngredients.length
  depth : IsGreatest t.wayLengths t.maxDepth

/-- The one way up to a leaf is as long as the leaf has actions. -/
theorem mem_wayLengths_of_paths_nil {t : StepTree α} (h : t.paths = []) {n : Int} :
    n ∈ t.wayLengths ↔ n = t.actions.length := by
  have hways := ways_of_paths_nil h
  simp [wayLengths, hways]

/-- A way up to a node leads through one of its paths. -/
theorem mem_wayLengths_of_paths_ne_nil {t : StepTree α} (h : t.paths ≠ []) {n : Int} :
    n ∈ t.wayLengths ↔ ∃ p ∈ t.paths, ∃ k ∈ p.wayLengths, n = t.actions.length + k := by
  have hways := ways_of_paths_ne_nil h
  constructor
  · intro ⟨way, hway, hn⟩
    rw [hways] at hway
    obtain ⟨lower, hlower, rfl⟩ := List.mem_map.1 hway
    obtain ⟨p, hp, hlower⟩ := List.mem_flatMap.1 hlower
    refine ⟨p, hp, _, ⟨lower, hlower, rfl⟩, ?_⟩
    rw [hn, List.flatMap_append, List.flatMap_singleton, List.length_append]
    omega
  · intro ⟨p, hp, k, ⟨lower, hlower, hk⟩, hn⟩
    have hlower' : lower ∈ t.paths.flatMap ways := List.mem_flatMap.2 ⟨p, hp, hlower⟩
    refine ⟨lower ++ [t], ?_, ?_⟩
    · rw [hways]
      exact List.mem_map_of_mem hlower'
    rw [hn, hk, List.flatMap_append, List.flatMap_singleton, List.length_append]
    omega

/-- A maximum taken along a list is where it set out or something it
met. -/
private theorem foldl_max_mem (ns : List Int) (m : Int) : ns.foldl max m ∈ m :: ns := by
  induction ns generalizing m with
  | nil => exact List.mem_singleton_self m
  | cons k ns ih =>
      rw [List.foldl_cons]
      rcases List.mem_cons.1 (ih (max m k)) with hmax | hmem
      · rw [hmax]
        rcases Int.le_total m k with hle | hle
        · rw [Int.max_eq_right hle]
          exact List.mem_cons_of_mem m List.mem_cons_self
        · rw [Int.max_eq_left hle]
          exact List.mem_cons_self
      · exact List.mem_cons_of_mem m (List.mem_cons_of_mem k hmem)

/-- The greatest of several numbers is one of them. -/
theorem greatest_mem {ns : List Int} (h : ns ≠ []) : greatest ns ∈ ns := by
  cases ns with
  | nil => exact absurd rfl h
  | cons n ns => exact foldl_max_mem ns n

/-- Over counted paths the size that is due is counted. -/
theorem dueSize_eq {t : StepTree α} (h : ∀ p ∈ t.paths, p.Counts) :
    t.dueSize = t.leafIngredients.length := by
  rw [dueSize, isLeaf]
  by_cases hp : t.paths = []
  · rw [leafIngredients_of_paths_nil hp, hp]
    rfl
  · rw [leafIngredients_of_paths_ne_nil hp, if_neg (by rwa [List.isEmpty_iff])]
    exact total_map_length fun p hp => (h p hp).size

/-- The depth that is due is the one by way of the deepest path. -/
theorem isGreatest_depths {t : StepTree α} (h : t.paths ≠ []) :
    IsGreatest {k | ∃ p ∈ t.paths, k = t.actions.length + p.maxDepth} t.dueDepth := by
  unfold dueDepth
  constructor
  · have hmem := greatest_mem (mt List.map_eq_nil_iff.1 h : t.paths.map maxDepth ≠ [])
    obtain ⟨p, hmem, hdeepest⟩ := List.mem_map.1 hmem
    exact ⟨p, hmem, by rw [hdeepest]⟩
  · rintro k ⟨p, hmem, rfl⟩
    have := le_greatest (List.mem_map_of_mem (f := maxDepth) hmem)
    omega

/-- Over counted paths the depth that is due is counted. -/
theorem isGreatest_dueDepth {t : StepTree α} (h : ∀ p ∈ t.paths, p.Counts) :
    IsGreatest t.wayLengths t.dueDepth := by
  by_cases hp : t.paths = []
  · have hdepth : t.dueDepth = t.actions.length := by
      rw [dueDepth, hp]
      exact Int.add_zero _
    rw [hdepth]
    refine ⟨(mem_wayLengths_of_paths_nil hp).2 rfl, fun n hn => ?_⟩
    exact Int.le_of_eq ((mem_wayLengths_of_paths_nil hp).1 hn)
  · obtain ⟨⟨p, hmem, hdue⟩, hupper⟩ := isGreatest_depths hp
    constructor
    · exact (mem_wayLengths_of_paths_ne_nil hp).2 ⟨p, hmem, _, (h p hmem).depth.1, hdue⟩
    · intro n hn
      obtain ⟨p, hmem, k, hk, rfl⟩ := (mem_wayLengths_of_paths_ne_nil hp).1 hn
      have hbound : k ≤ p.maxDepth := (h p hmem).depth.2 hk
      have := hupper ⟨p, hmem, rfl⟩
      omega

/-- A node over counted paths records what is due exactly when it records
what is counted. -/
theorem counts_iff_due {t : StepTree α} (h : ∀ p ∈ t.paths, p.Counts) :
    t.Counts ↔ t.size = t.dueSize ∧ t.maxDepth = t.dueDepth := by
  have hdepth := isGreatest_dueDepth h
  rw [dueSize_eq h]
  constructor
  · intro hcounts
    exact ⟨hcounts.size, hcounts.depth.unique hdepth⟩
  · intro ⟨hsize, hdue⟩
    exact ⟨hsize, hdue ▸ hdepth⟩

/-- All nodes record what is due exactly when all record what is counted. -/
theorem forall_counts_iff_due (t : StepTree α) :
    (∀ n ∈ t.walk, n.Counts) ↔ ∀ n ∈ t.walk, n.size = n.dueSize ∧ n.maxDepth = n.dueDepth := by
  induction t using induct with
  | node actions ingredients size maxDepth paths ih =>
      have hbelow : (∀ n ∈ paths.flatMap walk, n.Counts)
          ↔ ∀ n ∈ paths.flatMap walk, n.size = n.dueSize ∧ n.maxDepth = n.dueDepth := by
        rw [List.forall_mem_flatMap, List.forall_mem_flatMap]
        exact forall₂_congr ih
      rw [walk_node, List.forall_mem_cons, List.forall_mem_cons, ← hbelow]
      refine and_congr_left fun hcounts => counts_iff_due fun p hp => ?_
      exact hcounts p (List.mem_flatMap.2 ⟨p, hp, mem_walk_self p⟩)

-- =========================================================== complaints

/-- Is it what the node should record as its size, going by its paths? -/
def IsDueSize (t : StepTree α) (n : Int) : Prop :=
  (t.paths = [] ∧ n = t.ingredients.length) ∨ (t.paths ≠ [] ∧ n = (t.paths.map size).sum)

/-- Is it what the node should record as its depth, going by its paths? -/
def IsDueDepth (t : StepTree α) (n : Int) : Prop :=
  (t.paths = [] ∧ n = t.actions.length)
    ∨ IsGreatest {k | ∃ p ∈ t.paths, k = t.actions.length + p.maxDepth} n

/-- Has the node no actions, no ingredients and one path? -/
def IsBare (t : StepTree α) : Prop :=
  t.actions = [] ∧ t.ingredients = [] ∧ t.paths.length = 1

/-- What is wrong with the numbers of the node, in words: its size, or its
depth while its size is right. -/
inductive NumberComplaint (t : StepTree α) : String → Prop where
  | size {due : Int} (hdue : t.IsDueSize due) (hne : t.size ≠ due) :
      NumberComplaint t s!"node size {t.size} should be {due}"
  | depth {due : Int} (hsize : t.IsDueSize t.size) (hdue : t.IsDueDepth due)
      (hne : t.maxDepth ≠ due) :
      NumberComplaint t s!"node max_depth {t.maxDepth} should be {due}"

/-- What is wrong with a node that is not the root, in words: its shape, or
its numbers while its shape is right. -/
inductive NodeComplaint (t : StepTree α) : String → Prop where
  | shape (h : t.ingredients = [] ↔ t.paths = []) :
      NodeComplaint t "a node must have either ingredients or paths"
  | numbers {m : String} (hshape : t.ingredients = [] ↔ t.paths ≠ [])
      (h : t.NumberComplaint m) : NodeComplaint t m

/-- What is wrong first in the tree, in words, a node coming before what is
below it and its paths in their order. -/
inductive FirstComplaint (root : StepTree α) : String → Prop where
  | shape (h : ¬ root.IsBare) :
      FirstComplaint root "root must have no actions, no ingredients and exactly one path"
  | root {m : String} (hshape : root.IsBare) (h : root.NumberComplaint m) : FirstComplaint root m
  | below {m : String} {pre post : List (StepTree α)} {n : StepTree α} (hshape : root.IsBare)
      (hroot : ∀ m', ¬ root.NumberComplaint m')
      (hwalk : root.paths.flatMap walk = pre ++ n :: post)
      (hpre : ∀ earlier ∈ pre, ∀ m', ¬ earlier.NodeComplaint m') (h : n.NodeComplaint m) :
      FirstComplaint root m

/-- The total is the sum. -/
theorem total_eq_sum (ns : List Int) : total ns = ns.sum := by
  induction ns with
  | nil => rfl
  | cons n ns ih => rw [total, List.sum_cons, ih]

/-- The size that is due is the one that is computed. -/
theorem isDueSize_iff {t : StepTree α} {n : Int} : t.IsDueSize n ↔ n = t.dueSize := by
  unfold IsDueSize dueSize isLeaf
  rw [total_eq_sum]
  by_cases hp : t.paths = []
  · simp [hp]
  · simp [hp]

/-- So is the depth that is due. -/
theorem isDueDepth_iff {t : StepTree α} {n : Int} : t.IsDueDepth n ↔ n = t.dueDepth := by
  unfold IsDueDepth
  by_cases hp : t.paths = []
  · simp [hp, dueDepth, greatest, IsGreatest]
  · constructor
    · intro h
      exact (h.resolve_left fun hnil => hp hnil.1).unique (isGreatest_depths hp)
    · rintro rfl
      exact .inr (isGreatest_depths hp)

/-- The test of a root asks whether it is bare. -/
theorem isRootShaped_eq_true_iff {t : StepTree α} : t.isRootShaped = true ↔ t.IsBare := by
  unfold isRootShaped IsBare
  simp [and_assoc]

/-- The test of a node asks that it has ingredients or paths, and not
both. -/
theorem isNodeShaped_eq_true_iff {t : StepTree α} :
    t.isNodeShaped = true ↔ (t.ingredients = [] ↔ t.paths ≠ []) := by
  unfold isNodeShaped
  cases t.ingredients <;> cases t.paths <;> simp

/-- A node fails it if it has both or neither. -/
theorem not_isNodeShaped_iff {t : StepTree α} :
    ¬ t.isNodeShaped = true ↔ (t.ingredients = [] ↔ t.paths = []) := by
  rw [isNodeShaped_eq_true_iff]
  tauto

/-- The check of the numbers fails with what is wrong with them. -/
theorem numberComplaint_iff {t : StepTree α} {m : String} :
    t.NumberComplaint m ↔ ∃ e, t.checkNumbers = .error e ∧ e.message = m := by
  unfold checkNumbers
  constructor
  · intro h
    cases h with
    | size hdue hne =>
        rw [isDueSize_iff] at hdue
        subst hdue
        exact ⟨_, if_pos hne, rfl⟩
    | depth hsize hdue hne =>
        rw [isDueSize_iff] at hsize
        rw [isDueDepth_iff] at hdue
        subst hdue
        rw [if_neg (not_not.2 hsize), if_pos hne]
        exact ⟨_, rfl, rfl⟩
  · rintro ⟨e, hcheck, rfl⟩
    split at hcheck
    · next hsize =>
        cases hcheck
        exact .size (isDueSize_iff.2 rfl) hsize
    · next hsize =>
        split at hcheck
        · next hdepth =>
            cases hcheck
            exact .depth (isDueSize_iff.2 (not_not.1 hsize)) (isDueDepth_iff.2 rfl) hdepth
        · cases hcheck

/-- The check of a node fails with what is wrong with it. -/
theorem nodeComplaint_iff {t : StepTree α} {m : String} :
    t.NodeComplaint m ↔ ∃ e, t.checkNode = .error e ∧ e.message = m := by
  unfold checkNode
  constructor
  · intro h
    cases h with
    | shape h =>
        rw [if_neg (not_isNodeShaped_iff.2 h)]
        exact ⟨_, rfl, rfl⟩
    | numbers hshape h =>
        rw [if_pos (isNodeShaped_eq_true_iff.2 hshape)]
        exact numberComplaint_iff.1 h
  · rintro ⟨e, hcheck, rfl⟩
    split at hcheck
    · next hshape =>
        exact .numbers (isNodeShaped_eq_true_iff.1 hshape) (numberComplaint_iff.2 ⟨e, hcheck, rfl⟩)
    · next hshape =>
        cases hcheck
        exact .shape (not_isNodeShaped_iff.1 hshape)

/-- What passes is what nothing is wrong with. -/
theorem forall_not_complaint_iff {c : Except Fault Unit} {Complaint : String → Prop}
    (h : ∀ {m}, Complaint m ↔ ∃ e, c = .error e ∧ e.message = m) :
    (∀ m, ¬ Complaint m) ↔ c = .ok () := by
  cases c with
  | ok u => exact ⟨fun _ => rfl, fun _ m hm => by obtain ⟨e, he, -⟩ := h.1 hm; cases he⟩
  | error e => exact ⟨fun hnone => absurd (h.2 ⟨e, rfl, rfl⟩) (hnone _), fun he => by cases he⟩

/-- The check of a tree fails with what is wrong in it first. -/
theorem firstComplaint_iff {root : StepTree α} {m : String} :
    root.FirstComplaint m ↔ ∃ e, root.check = .error e ∧ e.message = m := by
  unfold check
  rw [walkAll_eq]
  constructor
  · intro h
    -- The check goes on in the order of the complaints: the shape of the root, its
    -- numbers, and then node by node.
    cases h with
    | shape h =>
        rw [if_neg (mt isRootShaped_eq_true_iff.1 h)]
        exact ⟨_, rfl, rfl⟩
    | root hshape h =>
        rw [if_pos (isRootShaped_eq_true_iff.2 hshape)]
        obtain ⟨e, hcheck, hm⟩ := numberComplaint_iff.1 h
        rw [hcheck]
        exact ⟨e, rfl, hm⟩
    | @below _ pre post n hshape hroot hwalk hpre h =>
        rw [if_pos (isRootShaped_eq_true_iff.2 hshape)]
        rw [(forall_not_complaint_iff numberComplaint_iff).1 hroot]
        obtain ⟨e, hcheck, hm⟩ := nodeComplaint_iff.1 h
        refine ⟨e, forM_eq_error_iff.2 ⟨pre, n, post, hwalk, fun earlier hmem => ?_, hcheck⟩, hm⟩
        exact (forall_not_complaint_iff nodeComplaint_iff).1 (hpre earlier hmem)
  · rintro ⟨e, hcheck, rfl⟩
    split at hcheck
    · next hshape =>
        rw [isRootShaped_eq_true_iff] at hshape
        cases hnumbers : root.checkNumbers with
        | error e' =>
            rw [hnumbers] at hcheck
            cases hcheck
            exact .root hshape (numberComplaint_iff.2 ⟨e, hnumbers, rfl⟩)
        | ok u =>
            rw [hnumbers] at hcheck
            obtain ⟨pre, n, post, hwalk, hpre, hn⟩ := forM_eq_error_iff.1 hcheck
            refine .below hshape ((forall_not_complaint_iff numberComplaint_iff).2 hnumbers) hwalk
              (fun earlier hmem => ?_) (nodeComplaint_iff.2 ⟨e, hn, rfl⟩)
            exact (forall_not_complaint_iff nodeComplaint_iff).2 (hpre earlier hmem)
    · next hshape =>
        cases hcheck
        exact .shape (mt isRootShaped_eq_true_iff.2 hshape)

-- ============================================================= the check

/-- The check, which compares each node with its paths alone, tells the truth
about the whole tree. It accepts a tree exactly when the root is bare over
one path, every other node has ingredients or paths and not both, and every
node records the number of the ingredients of the leaves below it and of the
actions on the longest way up to it. It fails with what is wrong with the
first node with which something is wrong, going by what its paths record. -/
theorem check_exact (root : StepTree α) :
    (root.check = .ok ()
        ↔ root.IsBare ∧ (∀ n ∈ root.paths.flatMap walk, n.ingredients = [] ↔ n.paths ≠ [])
          ∧ ∀ n ∈ root.walk, n.size = n.leafIngredients.length
            ∧ IsGreatest n.wayLengths n.maxDepth)
      ∧ ∀ m, (∃ e, root.check = .error e ∧ e.message = m) ↔ root.FirstComplaint m := by
  refine ⟨?_, fun m => firstComplaint_iff.symm⟩
  have hcounts : (∀ n ∈ root.walk, n.size = n.leafIngredients.length
      ∧ IsGreatest n.wayLengths n.maxDepth) ↔ ∀ n ∈ root.walk, n.Counts :=
    forall₂_congr fun n _ => ⟨fun h => ⟨h.1, h.2⟩, fun h => ⟨h.size, h.depth⟩⟩
  rw [hcounts, forall_counts_iff_due, check_eq_ok_iff, isRootShaped_eq_true_iff, walk_eq_cons,
    List.forall_mem_cons]
  have hfits : (∀ p ∈ root.paths, p.Fits) ↔ ∀ n ∈ root.paths.flatMap walk,
      (n.ingredients = [] ↔ n.paths ≠ []) ∧ n.size = n.dueSize ∧ n.maxDepth = n.dueDepth := by
    rw [List.forall_mem_flatMap]
    refine forall₂_congr fun p _ => ?_
    rw [fits_iff_walk]
    refine forall₂_congr fun n _ => ?_
    rw [checkNode_eq_ok_iff, isNodeShaped_eq_true_iff]
  rw [hfits, forall₂_and]
  tauto

/-- A root that agrees with a wrong leaf does not hide it. -/
example : (node [] [] 2 0 [node [] [⟨"egg", none⟩] 2 0 []]).check
    = .error (.wrongSize 2 1) := rfl

end RecipeChart.StepTree
