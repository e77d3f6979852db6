/-
The words of a command line. Words before the name of the command are
about the run as a whole; words after it are options and at most two
paths, in any order. An option that takes a value has it after an equals
sign or as the next word, whatever that is. After two hyphens every word
is a path, and of repeated options the last one counts.
-/
import RecipeChart.Datum

namespace RecipeChart.CommandLine

-- ============================================================ commands

/-- What can be asked for. -/
inductive Command where
  | parseTree
  | analysis
  | backwardTree
  | table
  | htmlTable
  | json
  deriving Repr, DecidableEq

def commandNames : List (String × Command) :=
  [("debug-parse-tree", .parseTree), ("debug-analysis", .analysis),
   ("debug-backward-tree", .backwardTree), ("debug-table", .table),
   ("html-table", .htmlTable), ("json", .json)]

/-- Why the words lead to no run: they are wrong, or they ask for help. -/
inductive Stop where
  | usage
  | help
  deriving Repr, DecidableEq

-- ================================================= before the command

/-- Is the word one or more times the short form of the flag for a
verbose run? -/
def isVerbose (word : String) : Bool :=
  word = "--verbose" ||
    match word.toList with
    | '-' :: v :: vs => (v :: vs).all (· = 'v')
    | _ => false

/-- Is the word an option? A lone hyphen is none. -/
def isOption (word : String) : Bool :=
  match word.toList with
  | '-' :: _ :: _ => true
  | _ => false

/-- What the words before the command ask for, and the words from the
command on. -/
structure Opening where
  verbose : Bool
  help : Bool
  rest : List String
  deriving Repr, DecidableEq

/-- Reads the words up to the command. -/
def readOpening : List String → Except Stop Opening
  | [] => .ok ⟨false, false, []⟩
  | word :: rest =>
    if word = "--" then .ok ⟨false, false, rest⟩
    else if isVerbose word then do
      let o ← readOpening rest
      return { o with verbose := true }
    else if word = "--help" then do
      let o ← readOpening rest
      return { o with help := true }
    else if isOption word then .error .usage
    else .ok ⟨false, false, word :: rest⟩

-- ================================================== after the command

/-- What an option does. -/
inductive Effect where
  /-- Sets a field to a flag. -/
  | flag (field : String) (value : Bool)
  /-- Sets a field to the text that is its value. -/
  | text (field : String)
  | help
  deriving Repr, DecidableEq

def options : Command → List (String × Effect)
  | .htmlTable =>
    [("--help", .help), ("--standalone", .flag "standalone" true),
     ("--fragment", .flag "standalone" false), ("--html-header", .text "html_header"),
     ("--html-footer", .text "html_footer"), ("--amount-class", .text "amount_class"),
     ("--seasonings-class", .text "seasonings_class"),
     ("--ingredient-class", .text "ingredient_class"), ("--action-class", .text "action_class"),
     ("--done-class", .text "done_class")]
  | _ => [("--help", .help)]

/-- What the words after the command ask for. -/
structure Wishes where
  given : List (String × Datum) := []
  paths : List String := []
  help : Bool := false
  deriving Repr, DecidableEq

/-- The word up to its first equals sign, and what follows that sign. -/
def splitOption (word : String) : String × Option String :=
  let cs := word.toList
  match cs.dropWhile (· ≠ '=') with
  | [] => (word, none)
  | _ :: value => (String.ofList (cs.takeWhile (· ≠ '=')), some (String.ofList value))

def readWishes (c : Command) : List String → Except Stop Wishes
  | [] => .ok {}
  | word :: rest =>
    if word = "--" then .ok { paths := rest }
    else if isOption word then
      match (options c).lookup (splitOption word).1, (splitOption word).2, rest with
      | some (.flag field value), none, rest => do
        let w ← readWishes c rest
        return { w with given := (field, .bool value) :: w.given }
      | some (.text field), some value, rest => do
        let w ← readWishes c rest
        return { w with given := (field, .text value) :: w.given }
      | some (.text field), none, value :: rest => do
        let w ← readWishes c rest
        return { w with given := (field, .text value) :: w.given }
      | some .help, none, rest => do
        let w ← readWishes c rest
        return { w with help := true }
      | _, _, _ => .error .usage
    else do
      let w ← readWishes c rest
      return { w with paths := word :: w.paths }

end RecipeChart.CommandLine
