/-
Names in a fixed order: by code points, each of them once.
-/
namespace RecipeChart.Text

/-- The texts in order, each once. -/
def sorted (texts : List String) : List String :=
  (texts.mergeSort fun a b => a ≤ b).eraseDups

/-- Nothing is lost and nothing added. -/
theorem mem_sorted {x : String} {texts : List String} : x ∈ sorted texts ↔ x ∈ texts := by
  rw [sorted, List.mem_eraseDups, List.mem_mergeSort]

end RecipeChart.Text
