/-
How a table is written as a page: whether it stands alone, with what
before and after it, and the classes of its parts. The options are read
from named data, in which a flag may be spelled as a word. What is wrong
with such data is the names of the options that do not fit.
-/
import RecipeChart.Datum
import RecipeChart.Text.Sorted

namespace RecipeChart

-- ============================================================= options

/-- What stands before a table that stands alone. -/
def defaultHeader : String :=
  "\n".intercalate
    ["<!DOCTYPE html>", "<html>", "  <body>", "    <style type=\"text/css\">",
     "      body \x7b font-family: \"Fira Sans\", arial; \x7d", "      td \x7b",
     "        padding: 1em;", "      \x7d", "      table, td, tr \x7b",
     "        border: 2px solid;", "        border-spacing: 0px;", "      \x7d",
     "      .ingredient \x7b", "        background-color: #ddd;", "      \x7d",
     "      .done \x7b", "        background-color: #555;", "      \x7d",
     "      .amount \x7b color: #555; \x7d", "      .seasonings \x7b color: #333; \x7d",
     "    </style>", ""]

/-- What stands after a table that stands alone. -/
def defaultFooter : String := "\n  </body>\n</html>\n"

/-- How a table is written as a page. -/
structure HtmlOptions where
  standalone : Bool := false
  header : String := defaultHeader
  footer : String := defaultFooter
  amountClass : String := "amount"
  seasoningsClass : String := "seasonings"
  ingredientClass : String := "ingredient"
  actionClass : String := "action"
  doneClass : String := "done"
  deriving Repr, DecidableEq

-- =============================================================== flags

/-- The words that spell a flag. -/
def flagWords : List (String × Bool) :=
  [("1", true), ("true", true), ("t", true), ("yes", true), ("y", true), ("on", true),
   ("0", false), ("false", false), ("f", false), ("no", false), ("n", false), ("off", false)]

/-- The flag that the word spells, in any case. -/
def readFlag (word : String) : Option Bool := flagWords.lookup word.toLower

/-- The flag that the datum is or spells. -/
def Datum.flag? : Datum → Option Bool
  | .bool b => some b
  | .int 0 => some false
  | .int 1 => some true
  | .real d =>
    if d.same (.ofInt 0) then some false else if d.same (.ofInt 1) then some true else none
  | .text s => readFlag s
  | _ => none

/-- The text that the datum is. -/
def Datum.text? : Datum → Option String
  | .text s => some s
  | _ => none

-- ============================================================= reading

namespace HtmlOptions

/-- The options with the named one set. A name that is none of theirs
changes nothing; there is no result when the datum does not fit. -/
def set? (o : HtmlOptions) (name : String) (d : Datum) : Option HtmlOptions :=
  match name with
  | "standalone" => d.flag?.map fun b => { o with standalone := b }
  | "html_header" => d.text?.map fun s => { o with header := s }
  | "html_footer" => d.text?.map fun s => { o with footer := s }
  | "amount_class" => d.text?.map fun s => { o with amountClass := s }
  | "seasonings_class" => d.text?.map fun s => { o with seasoningsClass := s }
  | "ingredient_class" => d.text?.map fun s => { o with ingredientClass := s }
  | "action_class" => d.text?.map fun s => { o with actionClass := s }
  | "done_class" => d.text?.map fun s => { o with doneClass := s }
  | _ => some o

/-- The options with the named data put in place of what they were, or
the names of the data that do not fit. -/
def override (o : HtmlOptions) (given : List (String × Datum)) :
    Except (List String) HtmlOptions :=
  match given.filter fun g => (o.set? g.1 g.2).isNone with
  | [] => .ok (given.foldl (fun o g => (o.set? g.1 g.2).getD o) o)
  | misfits => .error (Text.sorted (misfits.map (·.1)))

end HtmlOptions

end RecipeChart
