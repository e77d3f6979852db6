/-
Reading a recipe into a registry. The source is read by the grammar, and
then every text of it is handed to the registry, rule by rule: within an
ingredient the name before the amount, within a step the seasonings
before the description, the name of the recipe last. A rule is checked
for a misplaced `<>` once its texts are in, so a source that fails there
has left the texts of the rules up to that one behind. A source that is
not of the grammar leaves nothing behind, and a recipe that was read
leaves the registry frozen. Where a text is refused, what was handed over
before it stays, the ingredients and actions made of it included.
-/
import RecipeChart.Recipe.Grammar
import RecipeChart.Registry

namespace RecipeChart

-- ============================================================== errors

/-- Why a source writes no recipe. -/
inductive SyntaxError where
  /-- Something stands where it cannot stand. -/
  | unexpected (place : Place)
  /-- A `<>` is not the last action of its rule. -/
  | misplacedDone (span : Span)
  deriving Repr, DecidableEq

/-- The part of a recipe that a text belongs to. -/
inductive Part where
  | recipe
  | ingredient
  | step
  | join
  deriving Repr, DecidableEq

/-- Why a recipe was not read. -/
inductive ReadError where
  /-- The source offends against the notation. -/
  | offence (error : SyntaxError)
  /-- The registry refused a text. -/
  | refused (part : Part) (error : ProvenanceError)
  deriving Repr, DecidableEq

-- ============================================================= messages

/-- The width of the text where every tab reaches to the next multiple
of eight. A carriage return or line feed takes the width of one
character and starts the counting of columns anew. -/
def tabbedWidth : (column : Nat) → List Char → Nat
  | _, [] => 0
  | column, c :: rest =>
    if c = '\t' then (8 - column % 8) + tabbedWidth 0 rest
    else if c = '\r' || c = '\n' then 1 + tabbedWidth 0 rest
    else 1 + tabbedWidth (column + 1) rest

/-- How many characters are shown on either side of an offence. -/
def contextWidth : Nat := 40

/-- The line around an offset, and a caret under the offset. -/
def contextAt (source : List Char) (offset : Nat) : String :=
  let near := (source.take offset).drop (offset - contextWidth)
  let before := (near.reverse.takeWhile (· ≠ '\n')).reverse
  let after := ((source.drop offset).take contextWidth).takeWhile (· ≠ '\n')
  String.ofList (before ++ after ++ '\n' :: List.replicate (tabbedWidth 0 before) ' ' ++ ['^'])

namespace SyntaxError

def span : SyntaxError → Span
  | .unexpected place => place.span
  | .misplacedDone span => span

def message (source : List Char) (e : SyntaxError) : String :=
  let what := match e with
    | .unexpected place => "unexpected input in recipe:\n" ++ contextAt source place.offset
    | .misplacedDone _ => "`<>` must be the last step of a rule"
  what ++ s!" (line {e.span.line}, column {e.span.column})"

end SyntaxError

def Part.name : Part → String
  | .recipe => "recipe"
  | .ingredient => "ingredient"
  | .step => "step"
  | .join => "join"

def ReadError.message (source : List Char) : ReadError → String
  | .offence e => e.message source
  | .refused part e =>
    "Error trying to process rule \"" ++ part.name ++ "\":\n\n" ++ e.message

-- ============================================================ interning

/-- A task with a registry that takes the texts of a recipe in. -/
abbrev Interning := Registry.Task ReadError

/-- The task, its failing being blamed on the part. -/
def blame {β : Type} (part : Part) (task : Registry.Task ProvenanceError β) : Interning β :=
  ExceptT.adapt (.refused part) task

namespace Interning

/-- An ingredient, its texts taken in. -/
def ingredient (i : Ingredient String) : Interning (Ingredient Handle) := do
  let (value, _) ← blame .ingredient (Registry.ingredient i.name i.amount)
  return value

def join (j : JoinRef String) : Interning (JoinRef Handle) := do
  let name ← blame .join (Registry.intern j.name)
  return ⟨name, j.span⟩

def step (s : Step String) : Interning (Step Handle) := do
  let seasonings ← s.action.seasonings.mapM ingredient
  let (value, _) ← blame .step (Registry.action s.action.description seasonings)
  return ⟨value, s.span⟩

def start : Start String → Interning (Start Handle)
  | .group g => do
    let items ← g.ingredients.mapM ingredient
    return .group ⟨items, g.span⟩
  | .join j => .join <$> join j

def action : RuleAction String → Interning (RuleAction Handle)
  | .step s => .step <$> step s
  | .join j => .join <$> join j
  | .done span => return .done span

def rule (r : Rule String) : Interning (Rule Handle) := do
  let start ← start r.start
  let actions ← r.actions.mapM action
  return ⟨start, actions⟩

/-- The fragment of a rule, if no `<>` in it is misplaced. -/
def fragmentOf (r : Rule String) : Interning (Fragment Handle) := do
  let taken ← rule r
  match taken.fragment? with
  | .ok fragment => return fragment
  | .error span => throw (.offence (.misplacedDone span))

end Interning

-- ============================================================== reading

/-- The recipe that a source writes, its texts in the registry. -/
def Recipe.read (source : List Char) : Interning (Recipe Handle) := do
  match RecipeSource.read source with
  | .error place => throw (.offence (.unexpected place))
  | .ok written =>
    let fragments ← written.rules.mapM Interning.fragmentOf
    let name ← blame .recipe (Registry.intern written.name)
    modify Registry.freeze
    return ⟨name, fragments⟩

end RecipeChart
