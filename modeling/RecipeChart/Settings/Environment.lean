/-
Environments: names and the texts they stand for. A name may also be
there without a text, and then it stands for nothing, whatever it stood
for before. A name counts the same in upper and lower case when a setting
is looked up, and of the spellings of a name the last one counts.
-/
import RecipeChart.Entries

namespace RecipeChart

/-- Names with their texts, in the order in which they came. -/
abbrev Environment := Entries (Option String)

namespace Environment

/-- The environment in which every name has a text. -/
def ofTexts (texts : List (String × String)) : Environment :=
  texts.map fun e => (e.1, some e.2)

/-- The text of the name as it is spelled. -/
def spelled? (env : Environment) (name : String) : Option String :=
  (env.reverse.lookup name).join

/-- The text of the name in any case. -/
def find? (env : Environment) (name : String) : Option String :=
  (env.reverse.find? fun e => e.1.toLower = name.toLower).bind (·.2)

end Environment

end RecipeChart
