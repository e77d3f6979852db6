/-
The parts of a recipe. Every type is generic in how a text is named: by
the text itself, by a handle into a registry, or by anything else that
can be compared. Two recipes are the same when they agree in everything
but their spans, so a span is a field that laws speak of apart.

A recipe is a list of fragments, one per rule. A fragment starts at a
group of ingredients or at a join point, runs through steps and joins,
and ends at a join, at the finish `<>`, or, when its rule is broken,
nowhere. The types leave no room for any other shape.
-/
import RecipeChart.Span

namespace RecipeChart

-- ======================================================== ingredients

/-- Something that goes into the dish, with or without an amount. -/
structure Ingredient (α : Type) where
  name : α
  amount : Option α := none
  deriving Repr, DecidableEq

/-- A step of work, with what is added along the way. -/
structure Action (α : Type) where
  description : α
  seasonings : List (Ingredient α) := []
  deriving Repr, DecidableEq

/-- The ingredients that a rule starts from. -/
structure Group (α : Type) where
  ingredients : List (Ingredient α)
  span : Option Span := none
  deriving Repr, DecidableEq

-- =========================================================== elements

/-- A mention of a named join point. -/
structure JoinRef (α : Type) where
  name : α
  span : Option Span := none
  deriving Repr, DecidableEq

/-- A mention of an action. -/
structure Step (α : Type) where
  action : Action α
  span : Option Span := none
  deriving Repr, DecidableEq

/-- What a fragment, or a run of its steps, sets out from. -/
inductive Start (α : Type) where
  | group (group : Group α)
  | join (ref : JoinRef α)
  deriving Repr, DecidableEq

/-- What a fragment passes through. -/
inductive Element (α : Type) where
  | step (step : Step α)
  | join (ref : JoinRef α)
  deriving Repr, DecidableEq

/-- What a fragment arrives at. -/
inductive Finish (α : Type) where
  | join (ref : JoinRef α)
  | done (span : Option Span)
  deriving Repr, DecidableEq

-- ========================================================== fragments

/-- One rule of a recipe. There is no finish when the rule stops at a
step. -/
structure Fragment (α : Type) where
  start : Start α
  body : List (Element α) := []
  finish : Option (Finish α) := none
  deriving Repr, DecidableEq

/-- A named list of fragments, in source order. -/
structure Recipe (α : Type) where
  name : α
  fragments : List (Fragment α) := []
  deriving Repr, DecidableEq

variable {α : Type}

/-- The items without repeats, each where it stands first. -/
def unique [DecidableEq α] (items : List α) : List α := items.eraseDups

/-- The action of this description and these seasonings, less repeats. -/
def Action.ofSeasonings [DecidableEq α] (description : α) (seasonings : List (Ingredient α)) :
    Action α :=
  ⟨description, unique seasonings⟩

def Start.span : Start α → Option Span
  | .group g => g.span
  | .join r => r.span

/-- A fragment stands where its start stands. -/
def Fragment.span (f : Fragment α) : Option Span := f.start.span

/-- Does the fragment set out from a join point? -/
def Fragment.startsAtJoin (f : Fragment α) : Bool :=
  match f.start with
  | .join _ => true
  | .group _ => false

def Element.isJoin : Element α → Bool
  | .join _ => true
  | .step _ => false

end RecipeChart
