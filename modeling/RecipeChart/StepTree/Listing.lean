/-
The listing of a tree of steps: two lines of numbers for every node, then
its actions, its ingredients and its paths, where it has any. Paths are
items of a list, indented by two, the first line of each marked by a
hyphen.
-/
import RecipeChart.Recipe.Listing
import RecipeChart.StepTree

namespace RecipeChart.StepTree

/-- The lines of a node before its paths; `lead` goes before the first
of them and `indent` before the others. -/
def ownLines (indent lead : String) (t : StepTree String) : List String :=
  [lead ++ s!"size: {t.size}", indent ++ s!"max_depth: {t.maxDepth}"]
  ++ (if t.actions.isEmpty then []
      else [indent ++ "actions: [" ++ actionsText ", " t.actions ++ "]"])
  ++ (if t.ingredients.isEmpty then []
      else [indent ++ "ingredients: [" ++ ", ".intercalate (t.ingredients.map Ingredient.text)
        ++ "]"])
  ++ (if t.isLeaf then [] else [indent ++ "paths:"])

mutual

/-- The lines of a node and of all below it. -/
def lines (indent lead : String) : StepTree String → List String
  | .node actions ingredients size maxDepth paths =>
    ownLines indent lead (.node actions ingredients size maxDepth paths)
      ++ pathLines indent paths

/-- The lines of the paths of a node that has this indent. -/
def pathLines (indent : String) : List (StepTree String) → List String
  | [] => []
  | t :: ts => lines (indent ++ "  ") (indent ++ "- ") t ++ pathLines indent ts

end

theorem pathLines_eq (indent : String) (ts : List (StepTree String)) :
    pathLines indent ts = ts.flatMap (lines (indent ++ "  ") (indent ++ "- ")) := by
  induction ts with
  | nil => rfl
  | cons t ts ih => rw [pathLines, List.flatMap_cons, ih]

/-- The listing of the tree. -/
def listing (t : StepTree String) : String := "\n".intercalate (t.lines "" "")

end RecipeChart.StepTree
