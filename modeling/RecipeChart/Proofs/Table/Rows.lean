/-
The rows of a table by recursion over the tree. The layout keeps what it
knows of a node by its identity, first the columns that are left for it and
then its rows. If every object has one place, then what is kept of it is
what the recursion says at that place: the columns, since each is told them
once (`columnsOf_owned`), and the rows, since the run over the objects is
the recursion (`layout_eq`). A tree that is built owns its nodes, and so
its table is that of the recursion.

Where an object stands in two places, and one of them in an earlier path
than the other, its rows are missing at the second, and there is no table
(`layout_eq_missing`).
-/
import RecipeChart.Proofs.StepTree.Fitting
import RecipeChart.Proofs.StepTree.Objects
import RecipeChart.Table

namespace RecipeChart

variable {α : Type}

-- ============================================================== columns

namespace TreeObject

mutual

/-- The columns that are left at every place, by the identity of the object
that stands there. -/
def columnsAt (left : Int) : TreeObject α → List (Nat × Int)
  | .node id actions _ _ _ paths => (id, left) :: columnsAtAll (left - actions.length) paths

def columnsAtAll (left : Int) : List (TreeObject α) → List (Nat × Int)
  | [] => []
  | t :: ts => columnsAt left t ++ columnsAtAll left ts

end

/-- The columns of a node are its own, and those of its paths less its
actions. -/
theorem columnsAt_eq_cons (left : Int) (t : TreeObject α) :
    t.columnsAt left
      = (t.id, left) :: t.paths.flatMap (columnsAt (left - t.tree.actions.length)) := by
  have hall : ∀ (left : Int) (ts : List (TreeObject α)),
      columnsAtAll left ts = ts.flatMap (columnsAt left) := by
    intro left ts
    induction ts with
    | nil => rfl
    | cons t ts ih => rw [columnsAtAll, ih, List.flatMap_cons]
  cases t with
  | node id actions ingredients size maxDepth paths => rw [columnsAt, hall]; rfl

/-- There is one number of columns for each place. -/
theorem map_fst_columnsAt (t : TreeObject α) : ∀ left, (t.columnsAt left).map Prod.fst = t.ids := by
  induction t using induct with
  | node t ih =>
      intro left
      rw [columnsAt_eq_cons, ids_eq_cons, List.map_cons, List.map_flatMap]
      exact congrArg (t.id :: ·) (List.flatMap_congr fun p hp => ih p hp _)

/-- What stands in a path stands in the tree. -/
theorem ids_subset_of_mem_paths {t p : TreeObject α} (hp : p ∈ t.paths) :
    ∀ i ∈ p.ids, i ∈ t.ids := by
  intro i hi
  rw [ids_eq_cons]
  exact List.mem_cons_of_mem _ (List.mem_flatMap.2 ⟨p, hp, hi⟩)

end TreeObject

namespace Table

open TreeObject Held

-- ========================================================== the way down

/-- What is kept of the columns is right, wherever an object stands. -/
def Right (occ : List (Nat × Int)) (columns : Held Int) : Prop := ∀ p ∈ columns, p ∈ occ

/-- Where every object has one place, what is kept of it is what is right
there. -/
theorem find_of_right {occ : List (Nat × Int)} (honce : (occ.map Prod.fst).Nodup)
    {columns : Held Int} (hright : Right occ columns) {i : Nat} {left : Int}
    (hmem : (i, left) ∈ occ) (hkey : i ∈ columns.keys) : columns.find i = .ok left := by
  obtain ⟨found, hfound⟩ := exists_find_iff.2 hkey
  have hocc := hright _ (mem_of_find hfound)
  have heq : some found = some left :=
    ((lookup_iff_mem honce).2 hocc).symm.trans ((lookup_iff_mem honce).2 hmem)
  rw [hfound, Option.some.inj heq]

/-- Something is kept of the object that is put, and of those before. -/
theorem mem_keys_put {columns : Held Int} {i j : Nat} {left : Int} :
    j ∈ (columns.put i left).keys ↔ j = i ∨ j ∈ columns.keys := by
  rw [put, keys, List.map_cons, List.mem_cons, ← keys, mem_keys_without, List.mem_singleton]
  exact ⟨fun h => h.imp_right And.left, fun h => by
    by_cases hji : j = i
    · exact .inl hji
    · exact .inr ⟨h.resolve_left hji, hji⟩⟩

/-- What a part of the way down does to what is known: nothing is lost,
the objects are added, and all stays right if every object has one place. -/
structure Tells (occ : List (Nat × Int)) (columns columns' : Held Int) (added : List Nat) :
    Prop where
  kept : ∀ i ∈ columns.keys, i ∈ columns'.keys
  added : ∀ i ∈ added, i ∈ columns'.keys
  right : (occ.map Prod.fst).Nodup → Right occ columns → Right occ columns'

namespace Tells

variable {occ : List (Nat × Int)} {columns columns₁ columns₂ : Held Int} {ids ids' : List Nat}

theorem refl (columns : Held Int) : Tells occ columns columns [] where
  kept _ hi := hi
  added _ hi := absurd hi List.not_mem_nil
  right _ h := h

/-- Two parts of the way down add what either adds. -/
theorem trans (h : Tells occ columns columns₁ ids) (h' : Tells occ columns₁ columns₂ ids') :
    Tells occ columns columns₂ (ids ++ ids') where
  kept i hi := h'.kept i (h.kept i hi)
  added i hi := (List.mem_append.1 hi).elim (fun hi => h'.kept i (h.added i hi)) (h'.added i)
  right honce hright := h'.right honce (h.right honce hright)

/-- A part of the way down adds any of what it adds. -/
theorem mono (h : Tells occ columns columns₁ ids) (hids : ∀ i ∈ ids', i ∈ columns.keys ∨ i ∈ ids) :
    Tells occ columns columns₁ ids' where
  kept := h.kept
  added i hi := (hids i hi).elim (h.kept i) (h.added i)
  right := h.right

/-- One object is told what columns are left for it. -/
theorem put {i : Nat} {left : Int} (h : (occ.map Prod.fst).Nodup → Right occ columns →
    (i, left) ∈ occ) : Tells occ columns (columns.put i left) [i] where
  kept _ hj := mem_keys_put.2 (.inr hj)
  added _ hj := mem_keys_put.2 (.inl (List.mem_singleton.1 hj))
  right honce hright := List.forall_mem_cons.2
    ⟨h honce hright, fun p hp => hright p (List.mem_of_mem_filter hp)⟩

end Tells

variable {occ : List (Nat × Int)}

/-- An object that knows its columns tells its paths theirs. -/
theorem narrow_spec {t : TreeObject α} {left : Int} {columns : Held Int} (hkey : t.id ∈ columns.keys)
    (hself : (t.id, left) ∈ occ)
    (hpaths : ∀ p ∈ t.paths, (p.id, left - t.tree.actions.length) ∈ occ) :
    ∃ columns', narrow columns t = .ok columns'
      ∧ Tells occ columns columns' (t.paths.map TreeObject.id) := by
  unfold narrow
  generalize t.paths = ps at hpaths
  induction ps generalizing columns with
  | nil => exact ⟨columns, rfl, .refl columns⟩
  | cons p ps ih =>
      rw [List.forall_mem_cons] at hpaths
      obtain ⟨found, hfound⟩ := exists_find_iff.2 hkey
      let told : Held Int := columns.put p.id (found - t.tree.actions.length)
      have htells : Tells occ columns told [p.id] := .put fun honce hright => by
        have hleft := find_of_right honce hright hself hkey
        rw [hfound] at hleft
        cases hleft
        exact hpaths.1
      obtain ⟨columns', hrun, hrest⟩ := ih (htells.kept _ hkey) hpaths.2
      refine ⟨columns', ?_, htells.trans hrest⟩
      rw [List.foldlM_cons, hfound]
      exact hrun

/-- The way down below an object that knows its columns tells all of the
objects there. -/
theorem foldlM_narrow (t : TreeObject α) : ∀ {left : Int} {columns : Held Int},
    t.id ∈ columns.keys → (∀ p ∈ t.columnsAt left, p ∈ occ) →
    ∃ columns', t.walk.foldlM narrow columns = .ok columns' ∧ Tells occ columns columns' t.ids := by
  induction t using TreeObject.induct with
  | node t ih =>
      intro left columns hkey hocc
      rw [columnsAt_eq_cons, List.forall_mem_cons] at hocc
      have hplaces : ∀ p ∈ t.paths, ∀ q ∈ p.columnsAt (left - t.tree.actions.length), q ∈ occ :=
        fun p hp q hq => hocc.2 q (List.mem_flatMap.2 ⟨p, hp, hq⟩)
      have hheads : ∀ p ∈ t.paths, (p.id, left - t.tree.actions.length) ∈ occ := fun p hp =>
        hplaces p hp _ (by rw [columnsAt_eq_cons]; exact List.mem_cons_self)
      obtain ⟨columns₁, hself, htold⟩ := narrow_spec hkey hocc.1 hheads
      -- the paths, one after another, each of them told already
      have hbelow : ∀ (ps : List (TreeObject α)) {columns : Held Int}, (∀ p ∈ ps, p ∈ t.paths) →
          (∀ p ∈ ps, p.id ∈ columns.keys) → ∃ columns',
            (ps.flatMap walk).foldlM narrow columns = .ok columns'
              ∧ Tells occ columns columns' (ps.flatMap ids) := by
        intro ps
        induction ps with
        | nil => exact fun _ _ => ⟨_, rfl, .refl _⟩
        | cons p ps ihps =>
            intro columns hmem hkeys
            rw [List.forall_mem_cons] at hmem hkeys
            obtain ⟨columns₂, hrun, hfirst⟩ := ih p hmem.1 hkeys.1 (hplaces p hmem.1)
            obtain ⟨columns₃, hrest, htail⟩ :=
              ihps hmem.2 fun q hq => hfirst.kept _ (hkeys.2 q hq)
            refine ⟨columns₃, ?_, hfirst.trans htail⟩
            rw [List.flatMap_cons, List.foldlM_append, hrun]
            exact hrest
      obtain ⟨columns₂, hrun, hall⟩ := hbelow t.paths (fun p hp => hp) fun p hp =>
        htold.added _ (List.mem_map_of_mem hp)
      refine ⟨columns₂, ?_, (htold.trans hall).mono fun i hi => ?_⟩
      · rw [walk_eq_cons, List.foldlM_cons, hself]
        exact hrun
      · rw [ids_eq_cons, List.mem_cons] at hi
        rcases hi with rfl | hi
        · exact .inl hkey
        · exact .inr (List.mem_append_right _ hi)

/-- On the way down all objects are told a number of columns, and the right
one if every object has one place. -/
theorem exists_columnsOf (t : TreeObject α) : ∃ columns, columnsOf t = .ok columns
    ∧ (∀ i ∈ t.ids, i ∈ columns.keys)
    ∧ (t.Owned → ∀ p ∈ t.columnsAt t.tree.maxDepth, columns.find p.1 = .ok p.2) := by
  have hstart : t.id ∈ Held.keys [(t.id, t.tree.maxDepth)] := List.mem_singleton.2 rfl
  obtain ⟨columns, hrun, htells⟩ :=
    foldlM_narrow t hstart fun p (hp : p ∈ t.columnsAt t.tree.maxDepth) => hp
  refine ⟨columns, hrun, htells.added, fun howned p hp => ?_⟩
  have honce : ((t.columnsAt t.tree.maxDepth).map Prod.fst).Nodup := by
    rw [map_fst_columnsAt]
    exact howned
  have hright : Right (t.columnsAt t.tree.maxDepth) [(t.id, t.tree.maxDepth)] := by
    intro q hq
    rw [List.mem_singleton.1 hq, columnsAt_eq_cons]
    exact List.mem_cons_self
  refine find_of_right honce (htells.right honce hright) hp (htells.added _ ?_)
  rw [← map_fst_columnsAt t t.tree.maxDepth]
  exact List.mem_map_of_mem hp

-- =========================================================== the way back

mutual

/-- The rows of a node, given the columns that are left for it and all
below it, and the cells that end its first row of steps. -/
def rowsOf (columns : Int) (ending : List (Cell α)) :
    StepTree α → Except Fault (List (List (Cell α)))
  | .node actions ingredients _ _ paths => do
    let own := ingredientRows (columns - actions.length + 1) ingredients
    if paths.isEmpty then endFirst ending own
    else
      let below ← rowsOfAll (columns - actions.length) paths
      let below ← endFirst ending below
      return own ++ below

/-- The rows of several nodes, one node after another. -/
def rowsOfAll (columns : Int) : List (StepTree α) → Except Fault (List (List (Cell α)))
  | [] => .ok []
  | t :: ts => do
    let rest ← rowsOfAll columns ts
    let first ← rowsOf columns (stepCells t) t
    return first ++ rest

end

/-- The rows of a node come of those of its paths, one path after another. -/
theorem rowsOver_eq (columns : Int) (ending : List (Cell α)) (t : StepTree α)
    {below : Except Fault (List (List (List (Cell α))))}
    (hbelow : below.map List.flatten = rowsOfAll (columns - t.actions.length) t.paths) :
    (below >>= rowsOver columns ending t) = rowsOf columns ending t := by
  obtain ⟨actions, items, size, maxDepth, paths⟩ := t
  rw [StepTree.actions, StepTree.paths] at hbelow
  rw [rowsOf]
  cases paths with
  | nil =>
      cases below with
      | error e => cases hbelow
      | ok rows => rfl
  | cons p ps =>
      rw [← hbelow]
      cases below with
      | error e => rfl
      | ok rows => rfl

variable {columns : Held Int} {root : Nat}

/-- The rows of an object are those over its node, with the columns that are
kept of it. -/
theorem rowsAt_eq {t : TreeObject α} {left : Int} (hleft : columns.find t.id = .ok left) :
    rowsAt columns root t
      = rowsOver left (if t.id = root then rootCells t.tree else stepCells t.tree) t.tree := by
  funext below
  rw [rowsAt, hleft]
  rfl

/-- The rows of several objects are those of their nodes. -/
theorem foldAll_rowsAt {ts : List (TreeObject α)} {left : Int}
    (hts : ∀ t ∈ ts, fold (rowsAt columns root) t = rowsOf left (stepCells t.tree) t.tree) :
    (foldAll (rowsAt columns root) ts).map List.flatten = rowsOfAll left (ts.map tree) := by
  induction ts with
  | nil => rfl
  | cons t ts ih =>
      rw [List.forall_mem_cons] at hts
      rw [foldAll, List.map_cons, rowsOfAll, hts.1, ← ih hts.2]
      cases foldAll (rowsAt columns root) ts with
      | error e => rfl
      | ok rest => cases rowsOf left (stepCells t.tree) t.tree <;> rfl

/-- Over objects that know their columns the recursion over the objects is
that over the tree, below the root. -/
theorem fold_rowsAt (t : TreeObject α) : ∀ {left : Int}, root ∉ t.ids →
    (∀ p ∈ t.columnsAt left, columns.find p.1 = .ok p.2) →
    fold (rowsAt columns root) t = rowsOf left (stepCells t.tree) t.tree := by
  induction t using TreeObject.induct with
  | node t ih =>
      intro left hroot hcolumns
      rw [columnsAt_eq_cons, List.forall_mem_cons] at hcolumns
      have hself : t.id ≠ root := fun heq => hroot (heq ▸ id_mem_ids t)
      have hbelow := foldAll_rowsAt fun p hp => ih p hp
        (fun hmem => hroot (ids_subset_of_mem_paths hp root hmem))
        fun q hq => hcolumns.2 q (List.mem_flatMap.2 ⟨p, hp, hq⟩)
      rw [← paths_tree] at hbelow
      rw [fold_eq, rowsAt_eq hcolumns.1, if_neg hself, rowsOver_eq _ _ _ hbelow]

/-- The table over objects that have one place each is that of the tree. -/
theorem layout_eq {t : TreeObject α} (h : t.Owned) :
    layout t = (rowsOf t.tree.maxDepth (rootCells t.tree) t.tree).map Table.mk := by
  obtain ⟨columns, hcolumns, -, hright⟩ := exists_columnsOf t
  have hall := hright h
  rw [columnsAt_eq_cons, List.forall_mem_cons] at hall
  have hapart := (owned_iff.1 h).1
  have hbelow := foldAll_rowsAt fun p hp => fold_rowsAt p (hapart p hp).1
    fun q hq => hall.2 q (List.mem_flatMap.2 ⟨p, hp, hq⟩)
  rw [← paths_tree] at hbelow
  rw [layout, hcolumns]
  show (t.build (rowsAt columns t.id) >>= fun rows => .ok (Table.mk rows)) = _
  rw [build_eq_fold h.orderly, fold_eq, rowsAt_eq hall.1, if_pos rfl, rowsOver_eq _ _ _ hbelow]
  cases rowsOf t.tree.maxDepth (rootCells t.tree) t.tree <;> rfl

/-- The table of a tree by recursion. -/
theorem ofTree_eq (t : StepTree α) :
    ofTree t = (rowsOf t.maxDepth (rootCells t) t).map Table.mk := by
  rw [ofTree, layout_eq t.owned_objects, StepTree.tree_objects]

-- ============================================================ the failing

/-- Salt in two places under one node: the rows of the salt are taken for
the first place, and missing at the second. -/
def twinSalt : TreeObject String :=
  let salt : TreeObject String := .node 2 [] [⟨"salt", none⟩] 1 0 []
  .node 0 [] [] 2 0 [.node 1 [] [] 2 0 [salt, salt]]

example : twinSalt.tree.check = .ok () ∧ ¬ twinSalt.Orderly
    ∧ layout twinSalt = .error (.missingNode 2) := ⟨rfl, by decide, rfl⟩

end Table

end RecipeChart
