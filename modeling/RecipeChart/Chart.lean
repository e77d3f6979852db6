/-
The chart of a recipe: its title and its tree of steps, to be handed on as
JSON. In full detail every field is there. In brief, a field that says
nothing is left out: an absent amount, and an empty list. A chart is handed
on only if its nodes do not lie too deep inside one another.

The nodes of a chart are made one after another, each after all below it,
and are kept by their identity until the node above takes them.
-/
import RecipeChart.Json
import RecipeChart.StepTree.Objects

namespace RecipeChart

/-- A title and a tree of steps. -/
structure Chart where
  title : String
  tree : StepTree String

namespace Chart

-- ============================================================= assembly

/-- The node of a chart over its paths. -/
def nodeOver (t : TreeObject String) (below : List (StepTree String)) :
    Except Fault (StepTree String) :=
  .ok (.node t.tree.actions t.tree.ingredients t.tree.size t.tree.maxDepth below)

/-- The chart with the title, over the objects of a tree. -/
def assemble (title : String) (root : TreeObject String) : Except Fault Chart := do
  let tree ← root.build nodeOver
  return ⟨title, tree⟩

/-- The chart of a tree. -/
def ofTree (title : String) (t : StepTree String) : Except Fault Chart := assemble title t.objects

-- ============================================================== detail

/-- Which fields a chart is written with. -/
inductive Detail where
  | full
  | brief
  deriving Repr, DecidableEq

/-- The field, unless it says nothing and is to be left out. -/
def Detail.field (d : Detail) (name : String) (value : JsonValue) :
    List (String × JsonValue) :=
  if d = .brief && value.isBlank then [] else [(name, value)]

variable (d : Detail)

-- =============================================================== parts

/-- An amount that may be absent. -/
def amountJson : Option String → JsonValue
  | none => .null
  | some amount => .text amount

def ingredientJson (i : Ingredient String) : JsonValue :=
  .ofFields (("name", .text i.name) :: d.field "amount" (amountJson i.amount))

def actionJson (a : Action String) : JsonValue :=
  .ofFields (("name", .text a.description)
    :: d.field "seasonings" (.list (a.seasonings.map (ingredientJson d))))

mutual

/-- A node with all below it. -/
def treeJson : StepTree String → JsonValue
  | .node actions ingredients size maxDepth paths =>
    .ofFields ([("size", .int size), ("max_depth", .int maxDepth)]
      ++ d.field "actions" (.list (actions.map (actionJson d)))
      ++ d.field "ingredients" (.list (ingredients.map (ingredientJson d)))
      ++ d.field "paths" (.list (treesJson paths)))

def treesJson : List (StepTree String) → List JsonValue
  | [] => []
  | t :: ts => treeJson t :: treesJson ts

end

theorem treesJson_eq (ts : List (StepTree String)) : treesJson d ts = ts.map (treeJson d) := by
  induction ts with
  | nil => rfl
  | cons t ts ih => rw [treesJson, List.map_cons, ih]

def json (c : Chart) : JsonValue :=
  .ofFields [("title", .text c.title), ("tree", treeJson d c.tree)]

/-- The chart as JSON text. -/
def text (c : Chart) (s : JsonValue.Style) : String := (c.json d).written s

-- =============================================================== depth

/-- The most nodes inside one another in a chart that is handed on. -/
def mostNested : Nat := 254

/-- Why a chart is not handed on: its nodes lie too deep inside one
another. -/
structure DepthError where
  deriving Repr, DecidableEq

def DepthError.message (_ : DepthError) : String :=
  "Error serializing to JSON: ValueError: Maximum serialization depth exceeded"

/-- The text of the chart, if the chart can be handed on. -/
def exported (c : Chart) (s : JsonValue.Style) : Except DepthError String :=
  if c.tree.nesting ≤ mostNested then .ok (c.text d s) else .error {}

/-- The chart as a dictionary that is written out: in brief and on one
line, in the characters of ASCII. -/
def dictionary (c : Chart) : Except DepthError String :=
  c.exported .brief { escaping := .ascii, layout := .line }

end Chart

end RecipeChart
