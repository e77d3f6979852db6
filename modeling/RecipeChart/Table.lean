/-
The table of a recipe. Every ingredient has a row of its own. A step is a
cell that reaches down over the rows of all ingredients that go into it,
and the finish `<>` reaches over the whole table, so that a row read from
left to right follows its ingredient through the recipe.

The cells of a step stand in the first of the rows they reach over; the
rows below have no cell there. An ingredient that takes fewer steps than
the longest way has the wider cell, which makes all rows of one width.

The nodes are gone over twice: from the root on, to tell each how many
columns are left for it, and back again, to put the rows of each together
from the rows of its paths. Both go by the identity of the nodes.
-/
import RecipeChart.Fault
import RecipeChart.Recipe.Listing
import RecipeChart.StepTree.Objects

namespace RecipeChart

-- =============================================================== cells

/-- What a cell shows. -/
inductive CellContent (α : Type) where
  | ingredient (ingredient : Ingredient α)
  | step (action : Action α)
  | done
  deriving Repr, DecidableEq

/-- A cell and how many columns and rows it covers. -/
structure Cell (α : Type) where
  content : CellContent α
  colspan : Int
  rowspan : Int
  deriving Repr, DecidableEq

/-- The rows from top to bottom; in each the cells that begin in it, from
left to right. -/
structure Table (α : Type) where
  rows : List (List (Cell α))
  deriving Repr, DecidableEq

namespace Table

variable {α : Type}

-- ============================================================== layout

/-- The cells of the actions of a node: each covers one column, and as
many rows as the node has ingredients below it. -/
def stepCells (t : StepTree α) : List (Cell α) :=
  t.actions.map fun a => ⟨.step a, 1, t.size⟩

/-- What stands at the end of the first row of a root: the finish, or the
steps of a root that is a leaf. -/
def rootCells (t : StepTree α) : List (Cell α) :=
  if t.isLeaf then stepCells t else [⟨.done, 1, t.size⟩]

/-- A row for each ingredient, its cell so many columns wide. -/
def ingredientRows (width : Int) (items : List (Ingredient α)) : List (List (Cell α)) :=
  items.map fun i => [⟨.ingredient i, width, 1⟩]

/-- The rows, the cells put at the end of the first one. Without a row
there is no place for them. -/
def endFirst (cells : List (Cell α)) :
    List (List (Cell α)) → Except Fault (List (List (Cell α)))
  | [] => .error .rowlessLeaf
  | row :: rows => .ok ((row ++ cells) :: rows)

/-- The rows of a node over the rows of its paths, given the columns that
are left for it and all below it, and the cells that end its first row of
steps: the first row of a leaf, or the first row of the first path. -/
def rowsOver (columns : Int) (ending : List (Cell α)) (t : StepTree α)
    (below : List (List (List (Cell α)))) : Except Fault (List (List (Cell α))) := do
  let own := ingredientRows (columns - t.actions.length + 1) t.ingredients
  if t.isLeaf then endFirst ending own
  else
    let below ← endFirst ending below.flatten
    return own ++ below

/-- One object comes up: its paths are told what columns its actions leave
for them. -/
def narrow (columns : Held Int) (t : TreeObject α) : Except Fault (Held Int) :=
  t.paths.foldlM (fun columns p => do
    let left ← columns.find t.id
    return columns.put p.id (left - t.tree.actions.length)) columns

/-- The columns that are left for each of the objects. -/
def columnsOf (root : TreeObject α) : Except Fault (Held Int) :=
  root.walk.foldlM narrow [(root.id, root.tree.maxDepth)]

/-- The rows of one of the objects, given the columns that are left for
each. The root ends as a root does, and any other object in its steps. -/
def rowsAt (columns : Held Int) (root : Nat) (t : TreeObject α)
    (below : List (List (List (Cell α)))) : Except Fault (List (List (Cell α))) := do
  let left ← columns.find t.id
  rowsOver left (if t.id = root then rootCells t.tree else stepCells t.tree) t.tree below

/-- The table over the objects of a tree. -/
def layout (root : TreeObject α) : Except Fault (Table α) := do
  let columns ← columnsOf root
  let rows ← root.build (rowsAt columns root.id)
  return ⟨rows⟩

/-- The table of a tree. -/
def ofTree (t : StepTree α) : Except Fault (Table α) := layout t.objects

end Table

-- ============================================================= listing

/-- An action in a listing: its description, and the seasonings after an
ampersand. -/
def Action.brief (a : Action String) : String :=
  match a.seasonings with
  | [] => a.description
  | items => a.description ++ " & " ++ ",".intercalate (items.map Ingredient.text)

/-- What a cell shows, in a listing. -/
def CellContent.text : CellContent String → String
  | .ingredient i => i.text
  | .step a => a.brief
  | .done => "<>"

/-- A cell in a listing, its two spans before what it shows. -/
def Cell.text (c : Cell String) : String :=
  s!" ({c.colspan}, {c.rowspan}, " ++ c.content.text ++ ")"

/-- The listing of a table, a row to a line. -/
def Table.listing (t : Table String) : String :=
  "\n".intercalate (t.rows.map fun row => String.join (row.map Cell.text)) ++ "\n"

end RecipeChart
