/-
Settings of the command line, read from environments. Every setting has
a name of its own after a common beginning; the log level may also be set
without it. Of several environments the first that holds a setting
decides. What is wrong with the settings is the names of those that
cannot be read.
-/
import RecipeChart.Settings.Environment
import RecipeChart.Settings.Numeral
import RecipeChart.Table.Options

namespace RecipeChart

-- ============================================================ settings

/-- The settings of the command line. -/
structure Settings where
  logLevel : String := "WARNING"
  jsonIndent : Int := 2
  html : HtmlOptions := {}
  deriving Repr, DecidableEq

namespace Settings

def optionNames : List String :=
  ["standalone", "html_header", "html_footer", "amount_class", "seasonings_class",
   "ingredient_class", "action_class", "done_class"]

/-- The name of a setting in an environment. -/
def environmentName (name : String) : String := "APICIUS_" ++ name.toUpper

/-- The names that set the log level, the first one before the other. -/
def logLevelNames : List String := [environmentName "log_level", "LOG_LEVEL"]

/-- All names that are looked up. -/
def environmentNames : List String :=
  logLevelNames ++ (("json_indent" :: optionNames).map environmentName)

/-- The text that the first of the environments has for the first of the
names. -/
def lookup (sources : List Environment) (names : List String) : Option String :=
  sources.findSome? fun env => names.findSome? env.find?

/-- The options that the environments set. -/
def givenOptions (sources : List Environment) : List (String × Datum) :=
  optionNames.filterMap fun name =>
    (lookup sources [environmentName name]).map fun s => (name, .text s)

/-- The indentation that the environments set, or the usual one. -/
def readIndent (sources : List Environment) : Option Int :=
  match lookup sources [environmentName "json_indent"] with
  | none => some 2
  | some word => Numeral.integer? word

/-- The settings that the environments make, or the names of those that
cannot be read. -/
def read (sources : List Environment) : Except (List String) Settings :=
  let level := (lookup sources logLevelNames).getD "WARNING"
  match readIndent sources, HtmlOptions.override {} (givenOptions sources) with
  | some indent, .ok html => .ok ⟨level, indent, html⟩
  | some _, .error misfits => .error misfits
  | none, .ok _ => .error ["json_indent"]
  | none, .error misfits => .error (Text.sorted ("json_indent" :: misfits))

end Settings

end RecipeChart
