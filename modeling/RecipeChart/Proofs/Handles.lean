/-
The handles that a value names its texts by, in the order in which a
traversal comes to them. A traversal succeeds exactly when its effect does
at every one of them, so a value resolves in a registry that has handed
out all its handles, and in no other.

For the parts of a recipe, of a graph and of a finding that is one law,
and one proof: a traversal puts its steps one after another, and whether
a later step succeeds does not depend on what an earlier one gave.
-/
import RecipeChart.Diagnostic
import RecipeChart.FlowGraph.Rename
import RecipeChart.Proofs.StepTree.Fitting

namespace RecipeChart

-- ============================================================== recipes

def Ingredient.handles (i : Ingredient Handle) : List Handle := i.name :: i.amount.toList

def Action.handles (a : Action Handle) : List Handle :=
  a.description :: a.seasonings.flatMap Ingredient.handles

def Group.handles (g : Group Handle) : List Handle := g.ingredients.flatMap Ingredient.handles

def Start.handles : Start Handle → List Handle
  | .group g => g.handles
  | .join ref => [ref.name]

def Element.handles : Element Handle → List Handle
  | .step s => s.action.handles
  | .join ref => [ref.name]

def Finish.handles : Finish Handle → List Handle
  | .join ref => [ref.name]
  | .done _ => []

def Fragment.handles (f : Fragment Handle) : List Handle :=
  f.start.handles ++ f.body.flatMap Element.handles ++ f.finish.toList.flatMap Finish.handles

def Recipe.handles (r : Recipe Handle) : List Handle :=
  r.name :: r.fragments.flatMap Fragment.handles

-- =============================================================== graphs

def VertexKind.handles : VertexKind Handle → List Handle
  | .terminal => []
  | .join name => [name]
  | .root group => group.handles

/-- The handles of what stands at the vertices, of the actions along the
edges, and of the table of joins. -/
def FlowGraph.handles (g : FlowGraph Handle) : List Handle :=
  g.vertices.flatMap (·.kind.handles) ++ g.edges.flatMap (·.actions.flatMap Action.handles)
    ++ g.joins.map Prod.fst

def Diagnostic.handles : Diagnostic Handle → List Handle
  | .missingContinuation name _ => [name]
  | .duplicateContinuation name _ => [name]
  | .unknownJoin name _ => [name]
  | .orphan group _ => group.handles
  | .dangling start actions _ => start.handles ++ actions.flatMap Action.handles
  | .cycle name loop _ => name.toList ++ loop.flatMap Option.toList
  | .disconnected group _ => group.handles
  | .emptyRecipe _ => []

-- ================================================================ trees

namespace StepTree

/-- The handles of every node of the tree. -/
def handles (t : StepTree Handle) : List Handle :=
  t.walk.flatMap fun n =>
    n.actions.flatMap Action.handles ++ n.ingredients.flatMap Ingredient.handles

/-- The handles of a node are those of its actions, of its ingredients, and
of all below it. -/
theorem handles_node (actions : List (Action Handle)) (ingredients : List (Ingredient Handle))
    (size maxDepth : Int) (paths : List (StepTree Handle)) :
    (node actions ingredients size maxDepth paths).handles
      = actions.flatMap Action.handles ++ ingredients.flatMap Ingredient.handles
        ++ paths.flatMap handles := by
  rw [handles, walk_node, List.flatMap_cons, List.flatMap_assoc]
  rfl

end StepTree

-- ============================================================ renaming

section Renaming

variable {β ε : Type} {f : Handle → Except ε β}

/-- An ingredient is resolved exactly when its name and its amount are. The
same is said of every value that is made of others, part by part. -/
theorem Ingredient.exists_traverse_iff {i : Ingredient Handle} :
    (∃ i', i.traverse f = .ok i') ↔ ∀ h ∈ i.handles, ∃ b, f h = .ok b := by
  simp only [traverse, handles, exists_bind_eq_ok_iff, exists_pure_eq_ok_iff,
    exists_option_mapM_eq_ok_iff, and_true, exists_and_right, List.forall_mem_cons]

theorem Action.exists_traverse_iff {a : Action Handle} :
    (∃ a', a.traverse f = .ok a') ↔ ∀ h ∈ a.handles, ∃ b, f h = .ok b := by
  simp only [traverse, handles, exists_bind_eq_ok_iff, exists_pure_eq_ok_iff,
    exists_mapM_eq_ok_iff, Ingredient.exists_traverse_iff, and_true, exists_and_right,
    List.forall_mem_cons, List.forall_mem_flatMap]

theorem Group.exists_traverse_iff {g : Group Handle} :
    (∃ g', g.traverse f = .ok g') ↔ ∀ h ∈ g.handles, ∃ b, f h = .ok b := by
  simp only [traverse, handles, exists_bind_eq_ok_iff, exists_pure_eq_ok_iff,
    exists_mapM_eq_ok_iff, Ingredient.exists_traverse_iff, and_true, List.forall_mem_flatMap]

theorem JoinRef.exists_traverse_iff {ref : JoinRef Handle} :
    (∃ ref', ref.traverse f = .ok ref') ↔ ∃ b, f ref.name = .ok b := by
  simp only [traverse, exists_bind_eq_ok_iff, exists_pure_eq_ok_iff, and_true]

theorem Start.exists_traverse_iff {s : Start Handle} :
    (∃ s', s.traverse f = .ok s') ↔ ∀ h ∈ s.handles, ∃ b, f h = .ok b := by
  cases s <;> simp only [traverse, handles, exists_map_eq_ok_iff, Group.exists_traverse_iff,
    JoinRef.exists_traverse_iff, List.forall_mem_singleton]

theorem Element.exists_traverse_iff {x : Element Handle} :
    (∃ x', x.traverse f = .ok x') ↔ ∀ h ∈ x.handles, ∃ b, f h = .ok b := by
  cases x <;> simp only [traverse, handles, Step.traverse, exists_map_eq_ok_iff,
    exists_bind_eq_ok_iff, exists_pure_eq_ok_iff, and_true, Action.exists_traverse_iff,
    JoinRef.exists_traverse_iff, List.forall_mem_singleton]

theorem Finish.exists_traverse_iff {t : Finish Handle} :
    (∃ t', t.traverse f = .ok t') ↔ ∀ h ∈ t.handles, ∃ b, f h = .ok b := by
  cases t <;> simp only [traverse, handles, exists_map_eq_ok_iff, exists_pure_eq_ok_iff,
    JoinRef.exists_traverse_iff, List.forall_mem_singleton, List.not_mem_nil, false_implies,
    implies_true]

theorem Fragment.exists_traverse_iff {g : Fragment Handle} :
    (∃ g', g.traverse f = .ok g') ↔ ∀ h ∈ g.handles, ∃ b, f h = .ok b := by
  simp only [traverse, handles, exists_bind_eq_ok_iff, exists_pure_eq_ok_iff,
    exists_mapM_eq_ok_iff, exists_option_mapM_eq_ok_iff, Start.exists_traverse_iff,
    Element.exists_traverse_iff, Finish.exists_traverse_iff, and_true, exists_and_right,
    List.forall_mem_append, List.forall_mem_flatMap, and_assoc]

theorem Recipe.exists_traverse_iff {r : Recipe Handle} :
    (∃ r', r.traverse f = .ok r') ↔ ∀ h ∈ r.handles, ∃ b, f h = .ok b := by
  simp only [traverse, handles, exists_bind_eq_ok_iff, exists_pure_eq_ok_iff,
    exists_mapM_eq_ok_iff, Fragment.exists_traverse_iff, and_true, exists_and_right,
    List.forall_mem_cons, List.forall_mem_flatMap]

theorem VertexKind.exists_traverse_iff {kind : VertexKind Handle} :
    (∃ kind', kind.traverse f = .ok kind') ↔ ∀ h ∈ kind.handles, ∃ b, f h = .ok b := by
  cases kind <;> simp only [traverse, handles, exists_bind_eq_ok_iff, exists_pure_eq_ok_iff,
    Group.exists_traverse_iff, and_true, List.forall_mem_singleton, List.not_mem_nil, false_implies,
    implies_true]

/-- A graph is resolved exactly when its vertices, the actions along its
edges and its table of joins are. -/
theorem FlowGraph.exists_traverse_iff {g : FlowGraph Handle} :
    (∃ g', g.traverse f = .ok g') ↔ ∀ h ∈ g.handles, ∃ b, f h = .ok b := by
  simp only [traverse, handles, Vertex.traverse, Edge.traverse, exists_bind_eq_ok_iff,
    exists_pure_eq_ok_iff, exists_mapM_eq_ok_iff, VertexKind.exists_traverse_iff,
    Action.exists_traverse_iff, and_true, exists_and_right, List.forall_mem_append,
    List.forall_mem_flatMap, List.forall_mem_map, and_assoc]

/-- A finding is resolved exactly when all that it names is. -/
theorem Diagnostic.exists_traverse_iff {x : Diagnostic Handle} :
    (∃ x', x.traverse f = .ok x') ↔ ∀ h ∈ x.handles, ∃ b, f h = .ok b := by
  cases x <;> simp only [traverse, handles, exists_bind_eq_ok_iff, exists_pure_eq_ok_iff,
    exists_mapM_eq_ok_iff, exists_option_mapM_eq_ok_iff, Group.exists_traverse_iff,
    Start.exists_traverse_iff, Action.exists_traverse_iff, and_true, exists_and_right,
    List.forall_mem_append, List.forall_mem_flatMap, List.forall_mem_singleton,
    List.not_mem_nil, false_implies, implies_true]

/-- A tree is resolved exactly when the handles of all its nodes are. -/
theorem StepTree.exists_traverse_iff {t : StepTree Handle} :
    (∃ u, t.traverse f = .ok u) ↔ ∀ h ∈ t.handles, ∃ b, f h = .ok b := by
  induction t using induct with
  | node actions ingredients size maxDepth paths ih =>
      have hpaths : (∃ us, traverseAll f paths = .ok us)
          ↔ ∀ p ∈ paths, ∀ h ∈ p.handles, ∃ b, f h = .ok b := by
        rw [traverseAll_eq_mapM, exists_mapM_eq_ok_iff]
        exact forall₂_congr ih
      simp only [traverse, handles_node, exists_bind_eq_ok_iff, exists_pure_eq_ok_iff,
        exists_mapM_eq_ok_iff, Action.exists_traverse_iff, Ingredient.exists_traverse_iff, hpaths,
        and_true, exists_and_right, List.forall_mem_append, List.forall_mem_flatMap, and_assoc]

end Renaming

end RecipeChart
