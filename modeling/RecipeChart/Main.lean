/-
The program. It reads the settings from the environment and from the file
`.env`, plans the run, and moves texts between the report and the outer
world. All that is decided is decided elsewhere.
-/
import RecipeChart.CommandLine
import RecipeChart.Settings.EnvFile

namespace RecipeChart.Main

/-- The content of a file that may not be there. -/
def content? (path : String) : IO (Option String) := do
  try
    let text ← IO.FS.readFile path
    return some text
  catch _ => return none

/-- The names among these that are set in the environment, in upper or
lower case. -/
def environment (names : List String) : IO Environment := do
  let mut env : Environment := []
  for name in names do
    for spelled in [name, name.toLower] do
      if let some text ← IO.getEnv spelled then env := env ++ [(spelled, some text)]
  return env

/-- All of the standard input. -/
def input : IO String := do
  let stdin ← IO.getStdin
  let mut text := ""
  let mut line ← stdin.getLine
  while line ≠ "" do
    text := text ++ line
    line ← stdin.getLine
  return text

/-- Makes the run and gives back its exit code. -/
def perform (settings : Settings) (words : List String) : IO CommandLine.Ending := do
  match CommandLine.plan settings words with
  | .error ending => return ending
  | .ok i =>
    let source ← match i.input with
      | none => some <$> input
      | some path => content? path
    match source with
    | none => return .usage
    | some source =>
      let report := CommandLine.report i source
      match report.output?, i.output with
      | some text, none => IO.print (CommandLine.streamed text)
      | some text, some path => IO.FS.writeFile path text
      | none, _ => pure ()
      IO.eprint (report.said i (if report.output?.isSome then i.output.toList else []))
      return report.ending

/-- What is said at an ending that has no report. -/
def closing : CommandLine.Ending → String
  | .usage => "Usage: apicius [--verbose] COMMAND [OPTIONS] [INPUT] [OUTPUT]\n"
  | .help => "Usage: apicius [--verbose] COMMAND [OPTIONS] [INPUT] [OUTPUT]\n\nCommands: "
      ++ ", ".intercalate (CommandLine.commandNames.map (·.1)) ++ "\n"
  | .unknownLevel => "unknown log level\n"
  | .unfit e => e.message ++ "\n"
  | .broken message => message ++ "\n"
  | _ => ""

/-- Reads the settings, makes the run and gives back its exit code. -/
def start (words : List String) : IO UInt32 := do
  let env ← environment Settings.environmentNames
  let file := (← content? ".env").map (EnvFile.read env)
  match Settings.read (env :: file.toList) with
  | .error names =>
    IO.eprintln ("settings that cannot be read: " ++ ", ".intercalate names)
    return 1
  | .ok settings =>
    let ending ← perform settings words
    IO.eprint (closing ending)
    return ending.code.toUInt32

end RecipeChart.Main

def main (words : List String) : IO UInt32 := RecipeChart.Main.start words
