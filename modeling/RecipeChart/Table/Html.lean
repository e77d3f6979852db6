/-
A table written as HTML. A row is a `tr` and a cell a `td` with its
class, its row span and its column span. An amount stands in a `span`
before its ingredient, and the seasonings of a step in a `div` after its
description. A table that stands alone has the header before it and the
footer after it.
-/
import RecipeChart.Markup
import RecipeChart.Table
import RecipeChart.Table.Options

namespace RecipeChart

namespace HtmlOptions

variable (o : HtmlOptions)

/-- The class of a cell. -/
def cellClass : CellContent String → String
  | .ingredient _ => o.ingredientClass
  | .step _ => o.actionClass
  | .done => o.doneClass

/-- An ingredient: its amount set off in an element of its own. -/
def ingredientContents (i : Ingredient String) : List Markup.Content :=
  match i.amount with
  | none => [.text i.name]
  | some amount =>
    [.node (.ofContents "span" [("class", o.amountClass)] [.text amount]),
     .text (" " ++ i.name)]

/-- Seasonings side by side. -/
def seasoningContents (items : List (Ingredient String)) : List Markup.Content :=
  [Markup.Content.text " "].intercalate (items.map o.ingredientContents)

/-- What a cell holds. -/
def cellContents : CellContent String → List Markup.Content
  | .ingredient i => o.ingredientContents i
  | .done => [.text "<>"]
  | .step a =>
    .text a.description ::
      (if a.seasonings.isEmpty then []
       else [.node (.ofContents "div" [("class", o.seasoningsClass)]
         (o.seasoningContents a.seasonings))])

/-- A cell. -/
def cellElement (c : Cell String) : Markup.Node :=
  .ofContents "td"
    [("class", o.cellClass c.content), ("rowspan", toString c.rowspan),
     ("colspan", toString c.colspan)]
    (o.cellContents c.content)

def rowElement (row : List (Cell String)) : Markup.Node :=
  .ofContents "tr" [] (row.map fun c => .node (o.cellElement c))

def tableElement (t : Table String) : Markup.Node :=
  .ofContents "table" [] (t.rows.map fun row => .node (o.rowElement row))

end HtmlOptions

/-- The table as HTML under the options. -/
def Table.html (t : Table String) (o : HtmlOptions) : String :=
  let body := ((o.tableElement t).laidOut 0).written
  if o.standalone then o.header ++ body ++ "\n" ++ o.footer else body ++ "\n"

end RecipeChart
