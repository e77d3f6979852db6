/-
White space, in three senses. A blank is any character with the Unicode
white-space property, the four information separators included: words of
a recipe are trimmed of blanks, and no word starts with one. White space
in the strict sense leaves the separators out: numerals are trimmed of
it. A gap character is one of the five that may stand between two tokens.
Every gap character is a blank, and most blanks are no gap, so a no-break
space outside a word is an error and inside one is kept.
-/
namespace RecipeChart.Text

-- ============================================================ classes

/-- The code points of the white-space property, as inclusive ranges. -/
def blankRanges : List (Nat × Nat) :=
  [(0x09, 0x0D), (0x1C, 0x20), (0x85, 0x85), (0xA0, 0xA0), (0x1680, 0x1680),
   (0x2000, 0x200A), (0x2028, 0x2029), (0x202F, 0x202F), (0x205F, 0x205F),
   (0x3000, 0x3000)]

/-- Is the character white space anywhere in Unicode? -/
def isBlank (c : Char) : Bool :=
  blankRanges.any fun r => r.1 ≤ c.toNat && c.toNat ≤ r.2

/-- Is the character one of the four that separate information? They
are blanks without the white-space property. -/
def isSeparator (c : Char) : Bool := 0x1C ≤ c.toNat && c.toNat ≤ 0x1F

/-- Has the character the white-space property? -/
def isWhiteSpace (c : Char) : Bool := isBlank c && !isSeparator c

/-- May the character stand between two tokens? -/
def isGap (c : Char) : Bool :=
  c = ' ' || c = '\t' || c = '\x0c' || c = '\r' || c = '\n'

/-- A gap character is a blank. -/
theorem isBlank_of_isGap {c : Char} (h : isGap c = true) : isBlank c = true := by
  simp only [isGap, Bool.or_eq_true, decide_eq_true_eq] at h
  rcases h with (((h | h) | h) | h) | h <;> subst h <;> decide

-- =========================================================== trimming

/-- The text without the blanks it ends in. -/
def trimEnd (cs : List Char) : List Char :=
  (cs.reverse.dropWhile isBlank).reverse

/-- The text without the blanks at either end. -/
def trim (cs : List Char) : List Char :=
  trimEnd (cs.dropWhile isBlank)

/-- Is there nothing but blanks in the text? -/
def isAllBlank (s : String) : Bool := s.toList.all isBlank

end RecipeChart.Text
