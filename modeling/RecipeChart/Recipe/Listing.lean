/-
How a recipe and its parts read when they are printed. The printed form
of a recipe is its source in one fixed layout: a rule per line, arrows
between the elements, amounts in brackets. A value that names its texts
by handles is resolved first.
-/
import RecipeChart.Recipe

namespace RecipeChart

/-- An ingredient: its name, after the amount in brackets if there is
one. -/
def Ingredient.text (i : Ingredient String) : String :=
  match i.amount with
  | none => i.name
  | some amount => "[" ++ amount ++ "] " ++ i.name

/-- Ingredients side by side. -/
def ingredientsText (items : List (Ingredient String)) : String :=
  " + ".intercalate (items.map Ingredient.text)

/-- An action: its description, and the seasonings after an ampersand. -/
def Action.text (a : Action String) : String :=
  match a.seasonings with
  | [] => a.description
  | items => a.description ++ " & " ++ ingredientsText items

/-- Actions one after another. -/
def actionsText (separator : String) (actions : List (Action String)) : String :=
  separator.intercalate (actions.map Action.text)

def Group.text (g : Group String) : String := ingredientsText g.ingredients

/-- The name of a join point after its mark. -/
def joinText (name : String) : String := "$" ++ name

def JoinRef.text (r : JoinRef String) : String := joinText r.name

def Step.text (s : Step String) : String := s.action.text

/-- What a fragment starts from. -/
def Start.text : Start String → String
  | .group g => g.text
  | .join r => r.text

def Element.text : Element String → String
  | .step s => s.text
  | .join r => r.text

def Finish.text : Finish String → String
  | .join r => r.text
  | .done _ => "<>"

/-- The rule that leads through the parts in their order. -/
def ruleText (parts : List String) : String := " -> ".intercalate parts ++ ";"

/-- The recipe of this name and these rules, a rule to a line. -/
def recipeText (name : String) (rules : List String) : String :=
  "\n".intercalate ([name ++ " \x7b"] ++ rules.map ("  " ++ ·) ++ ["\x7d"])

def Fragment.text (f : Fragment String) : String :=
  ruleText (f.start.text :: f.body.map Element.text ++ f.finish.toList.map Finish.text)

/-- A recipe as a source that writes it. -/
def Recipe.text (r : Recipe String) : String :=
  recipeText r.name (r.fragments.map Fragment.text)

end RecipeChart
