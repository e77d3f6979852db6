/-
Text without terminal styling. A styling sequence is the escape character,
a bracket, parameters and one letter. What is written to a stream is freed
of such sequences; what is written to a file keeps them.
-/
namespace RecipeChart.Text

/-- May the character stand among the parameters of a styling sequence? -/
def isParameter (c : Char) : Bool := c.isDigit || c = ';' || c = '?'

/-- What follows the parameters and the letter that end a styling sequence,
if the sequence has an end. -/
def afterStyle (cs : List Char) : Option (List Char) :=
  match cs.dropWhile isParameter with
  | [] => none
  | c :: rest => if c.isAlpha then some rest else none

/-- Less is left than there was. -/
theorem length_afterStyle {cs rest : List Char} (h : afterStyle cs = some rest) :
    rest.length < cs.length := by
  have shorter := (List.dropWhile_suffix isParameter (l := cs)).length_le
  unfold afterStyle at h
  split at h
  · cases h
  · rename_i c after e
    rw [e, List.length_cons] at shorter
    split at h
    · cases h
      omega
    · cases h

/-- The characters without the styling sequences among them. -/
def unstyled : List Char → List Char
  | [] => []
  | '\x1b' :: '[' :: cs =>
    match _h : afterStyle cs with
    | some rest => unstyled rest
    | none => '\x1b' :: unstyled ('[' :: cs)
  | c :: cs => c :: unstyled cs
termination_by cs => cs.length
decreasing_by
  · have := length_afterStyle _h
    simp only [List.length_cons]
    omega
  · simp
  · simp

/-- A text that holds no escape character keeps all it has. -/
theorem unstyled_eq_self {cs : List Char} (h : '\x1b' ∉ cs) : unstyled cs = cs := by
  induction cs with
  | nil => rw [unstyled]
  | cons c cs ih =>
    have hc : c ≠ '\x1b' := fun e => h (e ▸ List.mem_cons_self)
    have hcs : '\x1b' ∉ cs := fun m => h (List.mem_cons_of_mem c m)
    rw [unstyled, ih hcs]
    rintro r rfl -
    exact hc rfl

end RecipeChart.Text
