/-
Decimal fractions: a sign, and a number over a power of ten. Zero has
either sign. A number has many such forms, so to be the same number is
less than to be the same fraction. The written form is one for each number
and sign: no zeros at its end but a single one after the point; from a
ten-thousandth up, and below ten to the sixteenth, the point stands in its
place, and outside that range behind the first digit, followed by the
power of ten.

Where a fraction is kept in 53 binary digits, a whole number beyond their
reach is kept as the nearest within it.
-/
namespace RecipeChart

/-- The digits, read as one number, over ten to the number of places. -/
structure Decimal where
  negative : Bool := false
  digits : Nat
  places : Nat := 0
  deriving Repr, DecidableEq

namespace Decimal

/-- The integer as a fraction. -/
def ofInt (n : Int) : Decimal := ⟨n < 0, n.natAbs, 0⟩

/-- What is divided by the power of ten. -/
def numerator (d : Decimal) : Int := if d.negative then -(d.digits : Int) else d.digits

/-- What the numerator is divided by. -/
def denominator (d : Decimal) : Nat := Nat.pow 10 d.places

theorem numerator_ofInt (n : Int) : (ofInt n).numerator = n := by
  unfold numerator ofInt
  split <;> rename_i h <;> rw [decide_eq_true_eq] at h <;> dsimp only <;> omega

/-- Are they the same number? -/
def same (a b : Decimal) : Bool :=
  a.numerator * b.denominator = b.numerator * a.denominator

theorem same_refl (a : Decimal) : a.same a = true := decide_eq_true rfl

theorem same_comm (a b : Decimal) : a.same b = b.same a := by
  simp only [same, eq_comm]

-- ============================================================== keeping

/-- The nearest of the numbers that have 53 binary digits and zeros behind
them; halfway between two of them, the one that ends those digits evenly. -/
def withinReach (n : Nat) : Nat :=
  let unit := Nat.pow 2 (n.log2 - 52)
  let doubled := 2 * (n % unit)
  if unit < doubled ∨ unit = doubled ∧ n / unit % 2 = 1 then (n / unit + 1) * unit
  else n / unit * unit

/-- The fraction as it is kept. -/
def kept (d : Decimal) : Decimal :=
  if d.digits % d.denominator = 0 then
    { d with digits := withinReach (d.digits / d.denominator), places := 0 }
  else d

-- ============================================================= writing

/-- The digits without the zeros they end in. -/
def withoutEndZeros (digits : List Char) : List Char :=
  (digits.reverse.dropWhile (· = '0')).reverse

/-- The point and what follows it: the digits, or a zero where there are
none. -/
def fraction (digits : List Char) : List Char :=
  '.' :: if withoutEndZeros digits = [] then ['0'] else withoutEndZeros digits

/-- The digits with the point so many places before their end. -/
def pointed (digits : List Char) (places : Nat) : List Char :=
  let padded := List.replicate (places + 1 - digits.length) '0' ++ digits
  let whole := padded.length - places
  padded.take whole ++ fraction (padded.drop whole)

/-- The power of ten behind a numeral: its sign and two digits or more. -/
def power (exponent : Int) : List Char :=
  let digits := Nat.toDigits 10 exponent.natAbs
  'e' :: (if exponent < 0 then '-' else '+')
    :: (List.replicate (2 - digits.length) '0' ++ digits)

/-- The digits with the point behind the first of them, and the power of
ten that puts it in its place. -/
def scaled (digits : List Char) (exponent : Int) : List Char :=
  match withoutEndZeros digits with
  | [] => []
  | [d] => d :: power exponent
  | d :: ds => d :: '.' :: (ds ++ power exponent)

/-- The number as it is written. -/
def text (d : Decimal) : String :=
  let digits := Nat.toDigits 10 d.digits
  let exponent : Int := digits.length - 1 - d.places
  let written :=
    if d.digits = 0 ∨ -4 ≤ exponent ∧ exponent < 16 then pointed digits d.places
    else scaled digits exponent
  String.ofList (if d.negative then '-' :: written else written)

end Decimal

end RecipeChart
