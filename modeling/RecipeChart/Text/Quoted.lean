/-
Quoted text, the form in which a message shows a text exactly. Single
quotes stand around it, double quotes where that saves escaping: when
the text holds a single quote and no double one. The quote in use and
the backslash are escaped, line feed, carriage return and tab have their
letters, and a character without a visible form is spelled by number in
two, four or eight hexadecimal digits.
-/
import RecipeChart.Text.Visible

namespace RecipeChart.Text

-- ============================================================ numerals

/-- The number in lower-case hexadecimal, padded with zeros to the width. -/
def hexadecimal (width n : Nat) : String :=
  let digits := String.ofList (Nat.toDigits 16 n)
  String.ofList (List.replicate (width - digits.length) '0') ++ digits

/-- A character spelled by number, in the shortest of the three forms. -/
def numbered (c : Char) : String :=
  let n := c.toNat
  if n < 0x100 then "\\x" ++ hexadecimal 2 n
  else if n < 0x10000 then "\\u" ++ hexadecimal 4 n
  else "\\U" ++ hexadecimal 8 n

-- ============================================================= quoting

/-- The quote to put around the text. -/
def quoteFor (s : String) : Char :=
  if s.toList.contains '\'' && !s.toList.contains '"' then '"' else '\''

/-- One character inside the given quotes. -/
def quotedChar (quote c : Char) : String :=
  if c = quote || c = '\\' then "\\" ++ c.toString
  else if c = '\n' then "\\n"
  else if c = '\r' then "\\r"
  else if c = '\t' then "\\t"
  else if isVisible c then c.toString
  else numbered c

/-- The text in quotes. -/
def quoted (s : String) : String :=
  let quote := quoteFor s
  quote.toString ++ String.join (s.toList.map (quotedChar quote)) ++ quote.toString

end RecipeChart.Text
