/-
Changing how the texts of a value are named. One traversal per type runs
an effect at every text, in the order in which the text would be read
out: a name before its amount, a description before its seasonings, a
start before the body before the finish. Resolving handles is such a
traversal, whose effect may fail.
-/
import RecipeChart.Recipe

namespace RecipeChart

variable {m : Type → Type} [Monad m] {α β : Type} (f : α → m β)

/-- The ingredient, its texts renamed. -/
def Ingredient.traverse (i : Ingredient α) : m (Ingredient β) := do
  let name ← f i.name
  let amount ← i.amount.mapM f
  return ⟨name, amount⟩

def Action.traverse (a : Action α) : m (Action β) := do
  let description ← f a.description
  let seasonings ← a.seasonings.mapM (Ingredient.traverse f)
  return ⟨description, seasonings⟩

def Group.traverse (g : Group α) : m (Group β) := do
  let ingredients ← g.ingredients.mapM (Ingredient.traverse f)
  return ⟨ingredients, g.span⟩

def JoinRef.traverse (r : JoinRef α) : m (JoinRef β) := do
  let name ← f r.name
  return ⟨name, r.span⟩

def Step.traverse (s : Step α) : m (Step β) := do
  let action ← s.action.traverse f
  return ⟨action, s.span⟩

def Start.traverse : Start α → m (Start β)
  | .group g => .group <$> g.traverse f
  | .join r => .join <$> r.traverse f

def Element.traverse : Element α → m (Element β)
  | .step s => .step <$> s.traverse f
  | .join r => .join <$> r.traverse f

def Finish.traverse : Finish α → m (Finish β)
  | .join r => .join <$> r.traverse f
  | .done span => return .done span

def Fragment.traverse (g : Fragment α) : m (Fragment β) := do
  let start ← g.start.traverse f
  let body ← g.body.mapM (Element.traverse f)
  let finish ← g.finish.mapM (Finish.traverse f)
  return ⟨start, body, finish⟩

def Recipe.traverse (r : Recipe α) : m (Recipe β) := do
  let name ← f r.name
  let fragments ← r.fragments.mapM (Fragment.traverse f)
  return ⟨name, fragments⟩

end RecipeChart
