/-
A session with a registry: one operation after another, each answered,
each going on from the registry the one before left behind, whether or not
that one failed. Seasonings are named either by the number of a canonical ingredient or given
outright, in which case nothing is checked about their handles.
-/
import RecipeChart.Registry
import RecipeChart.Recipe.Rename
import RecipeChart.Recipe.Listing

namespace RecipeChart.Registry

-- ========================================================= operations

/-- How an operation names an ingredient. -/
inductive Item where
  | canonical (number : Nat)
  | given (ingredient : Ingredient Handle)
  deriving Repr, DecidableEq

/-- An operation on a registry. -/
inductive Op where
  | intern (text : String)
  | resolve (reference : Reference)
  | contains (text : String)
  | freeze
  | ingredient (name : String) (amount : Option String)
  | action (description : String) (seasonings : List Item)
  | unique (items : List Item)
  | print (number : Nat)
  deriving Repr, DecidableEq

/-- What an operation gives back. -/
inductive Answer where
  | handle (handle : Handle)
  | text (text : String)
  | truth (value : Bool)
  | ingredient (value : Ingredient Handle) (number : Nat)
  | action (value : Action Handle) (number : Nat)
  | ingredients (items : List (Ingredient Handle))
  | printed (plain : String) (wrapped : String)
  | nothing
  deriving Repr, DecidableEq

-- ============================================================ printing

/-- A canonical value as it reads when printed. -/
def canonicalText (r : Registry) : Canonical Handle → Except ProvenanceError String
  | .ingredient i => Ingredient.text <$> i.traverse r.resolve
  | .action a => Action.text <$> a.traverse r.resolve

/-- The ingredient that the item names, if it names one. -/
def item? (r : Registry) : Item → Option (Ingredient Handle)
  | .given i => some i
  | .canonical k =>
    match r.canonicals[k]? with
    | some (.ingredient i) => some i
    | _ => none

-- =========================================================== the steps

/-- The answer to an operation. -/
def answer : Op → Task ProvenanceError Answer
  | .intern text => return .handle (← intern text)
  | .resolve reference => do
    let r ← get
    return .text (← r.resolveReference reference)
  | .contains text => return .truth ((← get).contains text)
  | .freeze => do
    modify freeze
    return .truth true
  | .ingredient name amount => do
    let (value, k) ← ingredient name amount
    return .ingredient value k
  | .action description seasonings => do
    let r ← get
    let (value, k) ← action description (seasonings.filterMap r.item?)
    return .action value k
  | .unique items => do
    let r ← get
    return .ingredients (RecipeChart.unique (items.filterMap r.item?))
  | .print k => do
    let r ← get
    match r.canonicals[k]? with
    | none => return .nothing
    | some value =>
      let text ← r.canonicalText value
      return .printed text ("Printable(" ++ Text.quoted text ++ ")")

/-- One operation: its answer, or why it failed, and the registry that
it leaves. -/
def step (r : Registry) (op : Op) : Except ProvenanceError Answer × Registry := answer op r

/-- All answers of a session, each with the registry after it. -/
def session (r : Registry) : List Op → List (Except ProvenanceError Answer × Registry)
  | [] => []
  | op :: ops => r.step op :: (r.step op).2.session ops

end RecipeChart.Registry
