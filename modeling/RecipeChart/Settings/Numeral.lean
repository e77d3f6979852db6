/-
Numerals in which a setting gives an integer. There may be white space
around a numeral and a plus before it, zeros before its digits, a fraction
of zeros behind them, and single underscores between them. All of that is
taken away in this order, and the rest must be an integer in its plain
form. The zeros stand behind a minus that begins the numeral. A zero may
also come before a minus, because the zeros are taken away without a look
at what follows; then none may come behind it.
-/
import RecipeChart.Text.Blank

namespace RecipeChart.Numeral

-- ======================================================== plain integers

/-- The number that the digits spell, going on from `value`. -/
def spelledBy (value : Nat) (digits : List Char) : Nat :=
  digits.foldl (fun n c => 10 * n + (c.toNat - '0'.toNat)) value

/-- The number in its plain form, digits without a zero before them. -/
def plainNatural : List Char → Option Nat
  | [] => none
  | ['0'] => some 0
  | c :: cs => if c ≠ '0' && (c :: cs).all Char.isDigit then some (spelledBy 0 (c :: cs)) else none

/-- The most digits that a plain integer has. -/
def mostDigits : Nat := 4300

/-- The number in its plain form, if its digits are not too many. -/
def shortNatural (cs : List Char) : Option Nat :=
  if mostDigits < cs.length then none else plainNatural cs

/-- The integer in its plain form, a minus before it or not. -/
def plainInteger : List Char → Option Int
  | '-' :: cs => (shortNatural cs).map fun n => -(n : Int)
  | cs => (shortNatural cs).map fun n => (n : Int)

-- ============================================================ ornaments

/-- The characters without white space at either end. -/
def trimmed (cs : List Char) : List Char :=
  ((cs.dropWhile Text.isWhiteSpace).reverse.dropWhile Text.isWhiteSpace).reverse

/-- The numeral without a plus. No minus may follow one. -/
def withoutPlus : List Char → Option (List Char)
  | '+' :: '-' :: _ => none
  | '+' :: cs => some cs
  | cs => some cs

/-- What counts after zeros and underscores, the last of which is given: a
digit or a minus and what follows it, or that last character where nothing
or a point follows. -/
def afterZeros (last : Char) : List Char → Option (List Char)
  | [] => some [last]
  | c :: cs =>
    if c = '0' || c = '_' then afterZeros c cs
    else if c.isDigit || c = '-' then some (c :: cs)
    else if c = '.' then some (last :: c :: cs)
    else none

/-- The digits without the zeros they begin with. -/
def withoutLeadingZeros : List Char → Option (List Char)
  | [] => none
  | c :: cs =>
    if c = '0' then afterZeros c cs
    else if c.isDigit || c = '-' then some (c :: cs)
    else none

/-- The numeral without the zeros that its digits begin with. -/
def withoutZeros : List Char → Option (List Char)
  | '-' :: cs => ('-' :: ·) <$> withoutLeadingZeros cs
  | cs => withoutLeadingZeros cs

/-- The numeral without a fraction of zeros. -/
def withoutFraction (cs : List Char) : List Char :=
  match cs.dropWhile (· ≠ '.') with
  | '.' :: '0' :: zeros => if zeros.all (· = '0') then cs.takeWhile (· ≠ '.') else cs
  | _ => cs

/-- Does every underscore stand alone, with something on either side? The
flag says that nothing stands before the first character, or an
underscore. -/
def isGrouped (bare : Bool) : List Char → Bool
  | [] => !bare
  | c :: cs => if c = '_' then !bare && isGrouped true cs else isGrouped false cs

/-- The numeral without its underscores, if they group it. -/
def withoutGroups (cs : List Char) : List Char :=
  if isGrouped true cs then cs.filter (· ≠ '_') else cs

/-- The integer that the word spells. -/
def integer? (word : String) : Option Int := do
  let cs ← withoutPlus (trimmed word.toList)
  let cs ← withoutZeros cs
  plainInteger (withoutGroups (withoutFraction cs))

end RecipeChart.Numeral
