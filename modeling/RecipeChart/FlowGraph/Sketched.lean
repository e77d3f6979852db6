/-
Stitching sketches. They are read first, and a part that is out of place
ends the reading. A sketch that went astray is followed like a fragment
and arrives nowhere, so its last run dangles. When that run set out from
ingredients and has met no join, nothing is there to name in the finding,
and the stitching ends without a result.
-/
import RecipeChart.FlowGraph.Stitch
import RecipeChart.Recipe.Sketch

namespace RecipeChart

variable {α : Type}

/-- Why sketches are not stitched. -/
inductive SketchError (α : Type) where
  /-- The part is where it cannot be. -/
  | misplaced (part : SketchPart α)
  /-- A run dangles that has met no join. -/
  | nameless
  deriving Repr, DecidableEq

/-- Does the finding want a join to name and have none? -/
def Diagnostic.isNameless : Diagnostic α → Bool
  | .dangling (.group _) _ _ => true
  | _ => false

/-- The readings of the sketches, or the first part that is out of
place. -/
def Sketch.readAll : List (Sketch α) → Except (SketchError α) (List (Reading α))
  | [] => .ok []
  | s :: ss =>
    match s.read with
    | .ok reading => (reading :: ·) <$> readAll ss
    | .error part => .error (.misplaced part)

variable [DecidableEq α]

/-- One sketch that was read. -/
def Draft.addReading (d : Draft α) : Reading α → Draft α
  | .fragment f => d.add f
  | .astray start body => follow ⟨start, body, none⟩ (d.setOut start)
  | .nothing => d

/-- The graph of the sketches, and what was wrong with them. -/
def FlowGraph.stitchSketches (sketches : List (Sketch α)) :
    Except (SketchError α) (FlowGraph α × List (Diagnostic α)) := do
  let readings ← Sketch.readAll sketches
  let (graph, problems) := (readings.foldl Draft.addReading {}).stitched
  if problems.any Diagnostic.isNameless then throw .nameless
  return (graph, problems)

-- ============================================================= fragments

omit [DecidableEq α] in
/-- Fragments that are sketched read as themselves. -/
theorem Sketch.readAll_map_sketch (fragments : List (Fragment α)) :
    readAll (fragments.map Fragment.sketch) = .ok (fragments.map .fragment) := by
  induction fragments with
  | nil => rfl
  | cons f fragments ih =>
    rw [List.map_cons, readAll, Fragment.read_sketch]
    simp only [ih]
    rfl

/-- To stitch sketches of fragments is to stitch the fragments. -/
theorem Draft.foldl_addReading_fragment (d : Draft α) (fragments : List (Fragment α)) :
    (fragments.map .fragment).foldl addReading d = fragments.foldl add d := by
  rw [List.foldl_map]
  rfl

end RecipeChart
