/-
A value without its places. Where something was written says nothing on
what it is, so two values are compared after their spans are taken away.
Ingredients and actions have none.
-/
import RecipeChart.Recipe

namespace RecipeChart

variable {α : Type}

/-- The group without its span. -/
def Group.unplaced (g : Group α) : Group α := ⟨g.ingredients, none⟩

def JoinRef.unplaced (r : JoinRef α) : JoinRef α := ⟨r.name, none⟩

def Step.unplaced (s : Step α) : Step α := ⟨s.action, none⟩

def Start.unplaced : Start α → Start α
  | .group g => .group g.unplaced
  | .join r => .join r.unplaced

def Element.unplaced : Element α → Element α
  | .step s => .step s.unplaced
  | .join r => .join r.unplaced

def Finish.unplaced : Finish α → Finish α
  | .join r => .join r.unplaced
  | .done _ => .done none

def Fragment.unplaced (f : Fragment α) : Fragment α :=
  ⟨f.start.unplaced, f.body.map Element.unplaced, f.finish.map Finish.unplaced⟩

def Recipe.unplaced (r : Recipe α) : Recipe α :=
  ⟨r.name, r.fragments.map Fragment.unplaced⟩

end RecipeChart
