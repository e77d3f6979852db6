/-
Where something stands in a source: a span names the line and the column
of its first character, both counted from one; a place adds the offset,
counted from zero. Only a line feed ends a line, and a column is a number
of characters. A place is carried along while a source is read, so that
the place of a token is the place after everything before it.
-/
namespace RecipeChart

-- ============================================================== spans

/-- The line and column of a first character. -/
structure Span where
  line : Int
  column : Int
  deriving Repr, DecidableEq

/-- The form in which a message names a span. -/
def Span.text (s : Span) : String := s!"{s.line}:{s.column}"

-- ============================================================= places

/-- A position in a source: how many characters stand before it, and the
line and column it falls on. -/
structure Place where
  offset : Nat
  line : Nat
  column : Nat
  deriving Repr, DecidableEq

namespace Place

/-- The place before the first character. -/
def start : Place := ⟨0, 1, 1⟩

/-- The place one character further on. -/
def next (p : Place) (c : Char) : Place :=
  if c = '\n' then ⟨p.offset + 1, p.line + 1, 1⟩
  else ⟨p.offset + 1, p.line, p.column + 1⟩

/-- The place that is reached from the start by reading the text. -/
def after (read : List Char) : Place := read.foldl next start

/-- The span of what stands at the place. -/
def span (p : Place) : Span := ⟨p.line, p.column⟩

@[simp] theorem after_nil : after [] = start := rfl

@[simp] theorem after_concat (read : List Char) (c : Char) :
    after (read ++ [c]) = (after read).next c := by
  simp [after]

/-- The offset counts what was read. -/
theorem offset_after (read : List Char) : (after read).offset = read.length := by
  have h : ∀ (cs : List Char) (p : Place),
      (cs.foldl next p).offset = p.offset + cs.length := by
    intro cs
    induction cs with
    | nil => intro p; rfl
    | cons c cs ih =>
        intro p
        rw [List.foldl_cons, ih, List.length_cons]
        unfold next
        split <;> simp only [] <;> omega
  simpa [after, start] using h read start

end Place

end RecipeChart
