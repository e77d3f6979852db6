/-
Entries by name. The entries keep the order in which their names first
came: what is put under a name that is there takes the place of what was
there. An environment and a directory are made of entries.
-/
namespace RecipeChart

/-- What is held under each name, in the order of the names. -/
abbrev Entries (β : Type) := List (String × β)

namespace Entries

variable {β : Type}

/-- The entries with this one put under the name. -/
def put (name : String) (held : β) : Entries β → Entries β
  | [] => [(name, held)]
  | e :: es => if e.1 = name then (name, held) :: es else e :: put name held es

/-- What was put is found. -/
theorem lookup_put_self (name : String) (held : β) (es : Entries β) :
    (put name held es).lookup name = some held := by
  induction es with
  | nil => simp [put]
  | cons e es ih =>
    by_cases h : e.1 = name
    · simp [put, h]
    · have hne : (name == e.1) = false := beq_false_of_ne (Ne.symm h)
      rw [put, if_neg h, List.lookup_cons, hne, ih]

/-- Nothing changes under another name. -/
theorem lookup_put_of_ne {name other : String} (h : other ≠ name) (held : β) (es : Entries β) :
    (put name held es).lookup other = es.lookup other := by
  induction es with
  | nil => simp [put, h]
  | cons e es ih =>
    by_cases he : e.1 = name
    · have hne : (other == name) = false := beq_false_of_ne h
      rw [put, if_pos he, List.lookup_cons, List.lookup_cons, he, hne]
    · rw [put, if_neg he, List.lookup_cons, List.lookup_cons, ih]

/-- The names keep their order, and a new one comes last. -/
theorem names_put (name : String) (held : β) (es : Entries β) :
    (put name held es).map (·.1)
      = es.map (·.1) ++ if name ∈ es.map (·.1) then [] else [name] := by
  induction es with
  | nil => simp [put]
  | cons e es ih =>
    by_cases h : e.1 = name
    · simp [put, h]
    · have hne : name ≠ e.1 := Ne.symm h
      simp only [put, if_neg h, List.map_cons, List.cons_append, ih, List.mem_cons, hne, false_or]

end Entries

end RecipeChart
