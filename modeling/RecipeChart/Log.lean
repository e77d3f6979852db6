/-
The log: what a run has to say about itself. An entry has a level, the
part of the program that speaks, and a text. Only entries that reach a
threshold are shown.
-/
namespace RecipeChart

-- ============================================================== levels

/-- How much an entry matters. -/
inductive LogLevel where
  | debug
  | info
  | warning
  deriving Repr, DecidableEq

def LogLevel.severity : LogLevel → Nat
  | .debug => 10
  | .info => 20
  | .warning => 30

def LogLevel.name : LogLevel → String
  | .debug => "DEBUG"
  | .info => "INFO"
  | .warning => "WARNING"

/-- The thresholds that have a name. -/
def logThresholds : List (String × Nat) :=
  [("NOTSET", 0), ("DEBUG", 10), ("INFO", 20), ("WARN", 30), ("WARNING", 30), ("ERROR", 40),
   ("FATAL", 50), ("CRITICAL", 50)]

/-- The letter in upper case, if that is one of the basic letters; the
dotless i and the long s have their upper case there, too. -/
def upperLetter (c : Char) : Char :=
  if c = '\u0131' then 'I' else if c = '\u017f' then 'S' else c.toUpper

/-- The threshold of the name, in any case. -/
def logThreshold? (name : String) : Option Nat :=
  logThresholds.lookup (String.ofList (name.toList.map upperLetter))

-- ============================================================= entries

/-- Something said about a run. -/
structure LogEntry where
  level : LogLevel
  speaker : String
  text : String
  deriving Repr, DecidableEq

/-- The entry as a line. -/
def LogEntry.line (e : LogEntry) : String :=
  e.level.name ++ " " ++ e.speaker ++ ": " ++ e.text ++ "\n"

/-- The lines of the entries that reach the threshold. -/
def shownLog (threshold : Nat) (entries : List LogEntry) : String :=
  String.join ((entries.filter fun e => threshold ≤ e.level.severity).map LogEntry.line)

end RecipeChart
