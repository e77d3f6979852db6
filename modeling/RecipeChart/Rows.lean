/-
Rows of a table by their numbers. The rows are counted from zero on; a
negative number counts back from the end, so that the last row is also
number minus one. A number that is no count of a row has no place.
-/
namespace RecipeChart.Rows

variable {β : Type}

/-- The place of the row of this number in a table of so many rows. -/
def place? (size : Nat) : Int → Option Nat
  | .ofNat n => if n < size then some n else none
  | .negSucc n => if n < size then some (size - 1 - n) else none

/-- Only rows of the table have a place. -/
theorem lt_of_place? {size place : Nat} {number : Int} (h : place? size number = some place) :
    place < size := by
  cases number <;> simp only [place?] at h <;> split at h <;> cases h <;> omega

/-- The row of this number. -/
def row? (rows : List β) (number : Int) : Option β :=
  (place? rows.length number).bind fun place => rows[place]?

/-- The table with the row of this number changed, if there is one. -/
def modify (rows : List β) (number : Int) (f : β → β) : List β :=
  match place? rows.length number with
  | some place => rows.modify place f
  | none => rows

-- ===================================================== counted from zero

/-- A count from zero on is the place. -/
@[simp] theorem place?_natCast (size n : Nat) :
    place? size (n : Int) = if n < size then some n else none := rfl

/-- A count from zero on finds the row in its place. -/
@[simp] theorem row?_natCast (rows : List β) (n : Nat) : row? rows (n : Int) = rows[n]? := by
  rw [row?, place?_natCast]
  split
  · rfl
  · rename_i h
    rw [List.getElem?_eq_none (Nat.le_of_not_lt h)]
    rfl

/-- A count from zero on changes the row in its place. -/
@[simp] theorem modify_natCast (rows : List β) (n : Nat) (f : β → β) :
    modify rows (n : Int) f = rows.modify n f := by
  rw [modify, place?_natCast]
  split
  · rename_i h
    split at h <;> cases h
    rfl
  · rename_i h
    split at h
    · cases h
    · rename_i outside
      exact (List.modify_eq_self (Nat.le_of_not_lt outside)).symm

end RecipeChart.Rows
