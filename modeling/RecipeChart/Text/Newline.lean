/-
Line ends. A text that comes from outside may end its lines in a line
feed, a carriage return or both in that order; inside, a line feed is the
only line end. On its way out a text loses the pairs alone: a carriage
return stays unless a line feed follows it.
-/
namespace RecipeChart.Text

/-- The characters, every line end a line feed. -/
def withLineFeeds : List Char → List Char
  | [] => []
  | '\r' :: '\n' :: rest => '\n' :: withLineFeeds rest
  | '\r' :: rest => '\n' :: withLineFeeds rest
  | c :: rest => c :: withLineFeeds rest

/-- A text of one convention keeps it. -/
theorem withLineFeeds_eq_self {cs : List Char} (h : '\r' ∉ cs) : withLineFeeds cs = cs := by
  induction cs with
  | nil => rfl
  | cons c cs ih =>
    have hc : c ≠ '\r' := fun e => h (e ▸ List.mem_cons_self)
    have hcs : '\r' ∉ cs := fun m => h (List.mem_cons_of_mem c m)
    rw [withLineFeeds, ih hcs]
    · rintro r rfl -
      exact hc rfl
    · rintro rfl
      exact hc rfl

/-- The characters, every pair of a carriage return and a line feed a line
feed. -/
def withoutPairs : List Char → List Char
  | [] => []
  | '\r' :: '\n' :: rest => '\n' :: withoutPairs rest
  | c :: rest => c :: withoutPairs rest

/-- Characters without a carriage return have no pairs to lose. -/
theorem withoutPairs_eq_self {cs : List Char} (h : '\r' ∉ cs) : withoutPairs cs = cs := by
  induction cs with
  | nil => rfl
  | cons c cs ih =>
    have hc : c ≠ '\r' := fun e => h (e ▸ List.mem_cons_self)
    have hcs : '\r' ∉ cs := fun m => h (List.mem_cons_of_mem c m)
    rw [withoutPairs, ih hcs]
    rintro r rfl -
    exact hc rfl

/-- The text, ended by a line feed. -/
def ended (s : String) : String := if s.endsWith "\n" then s else s ++ "\n"

end RecipeChart.Text
