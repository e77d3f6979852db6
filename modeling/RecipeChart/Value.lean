/-
Values that can be handed over to be printed. Each of the library's own
kinds is one of them, its texts named by references that have yet to be
resolved; so are lists of values, and data that have no printed form. The
parts of a value may be values of any kind, because a value is printed
without asking whether it makes sense.

What a part is made of does not matter to what it is part of, only how it
reads. So a value is printed as the one of the library's own kind whose
parts have names that read as the parts of the value do.

Two values are the same when they are of one kind and agree in everything
but their places. A place is kept only where it is printed, in problems.
-/
import RecipeChart.Diagnostic
import RecipeChart.StepTree.Listing

namespace RecipeChart

-- ============================================================== values

mutual

/-- Something handed over to be printed. -/
inductive Value where
  | datum (datum : Datum)
  | handle (handle : Handle)
  | ingredient (name : Reference) (amount : Option Reference)
  | group (ingredients : List Value)
  | action (description : Reference) (seasonings : List Value)
  | step (action : Value)
  | join (name : Reference)
  | done
  | fragment (start : Value) (body : List Value) (finish : Option Value)
  | recipe (name : Reference) (rules : List Value)
  | problem (problem : ValueProblem)
  | tree (tree : ValueTree)
  | list (items : List Value)
  | tuple (items : List Value)

/-- A problem with anything at all. -/
inductive ValueProblem where
  | missingContinuation (name : Reference) (span : Option Span)
  | duplicateContinuation (name : Reference) (span : Option Span)
  | unknownJoin (name : Reference) (span : Option Span)
  | orphan (origin : Value) (span : Option Span)
  | dangling (start : Value) (actions : List Value) (span : Option Span)
  | cycle (name : Reference) (loop : List Reference) (span : Option Span)
  | disconnected (origin : Value) (span : Option Span)
  | emptyRecipe (span : Option Span)

/-- A tree of anything at all. -/
inductive ValueTree where
  | node (actions ingredients : List Value) (size maxDepth : Int) (paths : List ValueTree)

end

instance : Inhabited Value := ⟨.done⟩

instance : Inhabited ValueTree := ⟨.node [] [] 0 0 []⟩

/-- Why a value is not printed. -/
inductive PrintError where
  /-- A reference of the value cannot be resolved. -/
  | unresolved (error : ProvenanceError)
  /-- The datum has no printed form. -/
  | unprintable (datum : Datum)
  /-- A report was asked for on something that is no problem. -/
  | notProblem (shown : String)
  deriving Repr, DecidableEq

def PrintError.message : PrintError → String
  | .unresolved e => e.message
  | .unprintable datum => "don't know how to print " ++ datum.kind
  | .notProblem shown => "not a diagnostic: " ++ shown

namespace Value

-- =============================================================== kinds

mutual

/-- The datum as a value. A list of data is a list of values. -/
def ofDatum : Datum → Value
  | .list items => .list (ofData items)
  | d => .datum d

/-- The data as values. -/
def ofData : Data → List Value
  | .nil => []
  | .cons d ds => ofDatum d :: ofData ds

end

/-- Is the value a problem? -/
def isProblem : Value → Bool
  | .problem _ => true
  | _ => false

def isIngredient : Value → Bool
  | .ingredient .. => true
  | _ => false

-- ============================================================= stand-ins

/-- An ingredient that reads as the text. -/
def namedIngredient (text : String) : Ingredient String := ⟨text, none⟩

def namedAction (text : String) : Action String := ⟨text, []⟩

def namedGroup (text : String) : Group String := ⟨[namedIngredient text], none⟩

@[simp] theorem text_namedIngredient (s : String) : (namedIngredient s).text = s := rfl

@[simp] theorem text_namedAction (s : String) : (namedAction s).text = s := rfl

@[simp] theorem text_namedGroup (s : String) : (namedGroup s).text = s := rfl

-- ============================================================ printing

/-- The result of resolving, for printing. -/
def resolved {β : Type} : Except ProvenanceError β → Except PrintError β
  | .ok b => .ok b
  | .error e => .error (.unresolved e)

/-- How a list of values reads, given how each of them reads. Problems
make a report, ingredients stand side by side, anything else stands in
brackets. -/
def listText (items : List Value) (texts : List String) : String :=
  if items.isEmpty then "[]"
  else if items.all isProblem then Diagnostic.reportOf texts
  else if items.all isIngredient then ingredientsText (texts.map namedIngredient)
  else "[" ++ ", ".intercalate texts ++ "]"

variable (r : Registry)

mutual

/-- How the value reads when printed. -/
def text : Value → Except PrintError String
  | .datum d => .error (.unprintable d)
  | .handle h => resolved (r.resolve h)
  | .ingredient name amount =>
    resolved (Ingredient.text <$> (Ingredient.mk name amount).traverse r.resolveReference)
  | .group ingredients => do
    let texts ← textAll ingredients
    return ingredientsText (texts.map namedIngredient)
  | .action description seasonings => do
    let description ← resolved (r.resolveReference description)
    let texts ← textAll seasonings
    return (Action.mk description (texts.map namedIngredient)).text
  | .step made => text made
  | .join name => joinText <$> resolved (r.resolveReference name)
  | .done => .ok (Finish.done none).text
  | .fragment start body finish => do
    let start ← text start
    let body ← textAll body
    let finish ← textIfAny finish
    return ruleText (start :: body ++ finish)
  | .recipe name rules => do
    let name ← resolved (r.resolveReference name)
    let rules ← textAll rules
    return recipeText name rules
  | .problem p => do
    let p ← readable p
    resolved p.text
  | .tree t => StepTree.listing <$> readableTree t
  | .list items => listText items <$> textAll items
  | .tuple items => listText items <$> textAll items

def textAll : List Value → Except PrintError (List String)
  | [] => .ok []
  | v :: vs => do
    let t ← text v
    let ts ← textAll vs
    return t :: ts

def textIfAny : Option Value → Except PrintError (List String)
  | none => .ok []
  | some v => do
    let t ← text v
    return [t]

/-- The problem, each part of it named by how it reads. -/
def readable : ValueProblem → Except PrintError (Diagnostic String)
  | .missingContinuation name span => do
    let name ← resolved (r.resolveReference name)
    return .missingContinuation name span
  | .duplicateContinuation name span => do
    let name ← resolved (r.resolveReference name)
    return .duplicateContinuation name span
  | .unknownJoin name span => do
    let name ← resolved (r.resolveReference name)
    return .unknownJoin name span
  | .orphan origin span => do
    let origin ← text origin
    return .orphan (namedGroup origin) span
  | .dangling start actions span => do
    let start ← text start
    let actions ← textAll actions
    return .dangling (.group (namedGroup start)) (actions.map namedAction) span
  | .cycle name loop span => do
    let name ← resolved (r.resolveReference name)
    let loop ← resolved (loop.mapM r.resolveReference)
    return .cycle (some name) (loop.map some) span
  | .disconnected origin span => do
    let origin ← text origin
    return .disconnected (namedGroup origin) span
  | .emptyRecipe span => .ok (.emptyRecipe span)

/-- The tree, each part of its nodes named by how it reads. -/
def readableTree : ValueTree → Except PrintError (StepTree String)
  | .node actions ingredients size maxDepth paths => do
    let actions ← textAll actions
    let ingredients ← textAll ingredients
    let paths ← readableTrees paths
    return .node (actions.map namedAction) (ingredients.map namedIngredient) size maxDepth paths

def readableTrees : List ValueTree → Except PrintError (List (StepTree String))
  | [] => .ok []
  | t :: ts => do
    let t ← readableTree t
    let ts ← readableTrees ts
    return t :: ts

end

-- ============================================================= reports

/-- The items of a tuple as a refusal shows them. A single one is followed
by a comma, which tells the tuple from what merely stands in brackets. -/
def tupleText : List String → String
  | [item] => item ++ ","
  | items => ", ".intercalate items

mutual

/-- The value as a refusal shows it: a datum as data are shown, anything
else by the name of its kind. -/
def shown : Value → String
  | .datum d => d.shown
  | .list items => "[" ++ ", ".intercalate (shownAll items) ++ "]"
  | .tuple items => "(" ++ tupleText (shownAll items) ++ ")"
  | .handle _ => "a handle"
  | .ingredient .. => "an ingredient"
  | .group _ => "a group"
  | .action .. => "an action"
  | .step _ => "a step"
  | .join _ => "a join"
  | .done => "a finish"
  | .fragment .. => "a fragment"
  | .recipe .. => "a recipe"
  | .problem _ => "a problem"
  | .tree _ => "a tree"

/-- The values as a refusal shows them. -/
def shownAll : List Value → List String
  | [] => []
  | v :: vs => shown v :: shownAll vs

end

/-- The sentence of a problem; nothing else has one. -/
def sentence (v : Value) : Except PrintError String :=
  if v.isProblem then text r v else .error (.notProblem v.shown)

/-- The report on problems that are handed over as values. -/
def report (problems : List Value) : Except PrintError String :=
  Diagnostic.reportOf <$> problems.mapM (sentence r)

-- ============================================================ equality

def sameReferences : List Reference → List Reference → Bool
  | [], [] => true
  | n :: ns, n' :: ns' => n.same n' && sameReferences ns ns'
  | _, _ => false

mutual

/-- Are the values the same but for their places? -/
def same : Value → Value → Bool
  | .datum d, .datum d' => d.same d'
  | .handle h, .handle h' => h = h'
  | .ingredient name amount, .ingredient name' amount' =>
    name.same name' && sameReferences amount.toList amount'.toList
  | .group items, .group items' => sameAll items items'
  | .action name items, .action name' items' => name.same name' && sameAll items items'
  | .step made, .step made' => same made made'
  | .join name, .join name' => name.same name'
  | .done, .done => true
  | .fragment start body finish, .fragment start' body' finish' =>
    same start start' && sameAll body body' && sameIfAny finish finish'
  | .recipe name rules, .recipe name' rules' => name.same name' && sameAll rules rules'
  | .problem p, .problem p' => sameProblem p p'
  | .tree t, .tree t' => sameTree t t'
  | .list items, .list items' => sameAll items items'
  | .tuple items, .tuple items' => sameAll items items'
  | _, _ => false

def sameAll : List Value → List Value → Bool
  | [], [] => true
  | v :: vs, v' :: vs' => same v v' && sameAll vs vs'
  | _, _ => false

def sameIfAny : Option Value → Option Value → Bool
  | none, none => true
  | some v, some v' => same v v'
  | _, _ => false

def sameProblem : ValueProblem → ValueProblem → Bool
  | .missingContinuation name _, .missingContinuation name' _ => name.same name'
  | .duplicateContinuation name _, .duplicateContinuation name' _ => name.same name'
  | .unknownJoin name _, .unknownJoin name' _ => name.same name'
  | .orphan origin _, .orphan origin' _ => same origin origin'
  | .dangling start actions _, .dangling start' actions' _ =>
    same start start' && sameAll actions actions'
  | .cycle name loop _, .cycle name' loop' _ => name.same name' && sameReferences loop loop'
  | .disconnected origin _, .disconnected origin' _ => same origin origin'
  | .emptyRecipe _, .emptyRecipe _ => true
  | _, _ => false

def sameTree : ValueTree → ValueTree → Bool
  | .node actions items size depth paths, .node actions' items' size' depth' paths' =>
    sameAll actions actions' && sameAll items items' && size = size' && depth = depth'
      && sameTrees paths paths'

def sameTrees : List ValueTree → List ValueTree → Bool
  | [], [] => true
  | t :: ts, t' :: ts' => sameTree t t' && sameTrees ts ts'
  | _, _ => false

end

end Value

end RecipeChart
