/-
The command line. The words of a run make an invocation, the invocation
turns a source into a report, and the report is written where the words
say. Words that are wrong, an unknown log level and a missing file end a
run before a source is read. What is written to a stream is written
without terminal styling, and its lines end in a line feed alone.

A report has a log, a remark on what went wrong, and the result. The log
says how far the source has come: read, stitched, analysed, grown into a
tree.
-/
import RecipeChart.Chart
import RecipeChart.Check
import RecipeChart.CommandLine.Arguments
import RecipeChart.CommandLine.Directory
import RecipeChart.FlowGraph.Listing
import RecipeChart.Log
import RecipeChart.Settings
import RecipeChart.StepTree.Listing
import RecipeChart.Table.Html
import RecipeChart.Text.Newline
import RecipeChart.Text.Unstyled

namespace RecipeChart.CommandLine

-- ============================================================= endings

/-- How a run ends. -/
inductive Ending where
  | done
  /-- The recipe has problems. -/
  | problems
  /-- The source is no recipe. -/
  | offence
  /-- The words are wrong, or name a file that is not there. -/
  | usage
  /-- The words ask for help. -/
  | help
  /-- The settings name a log level that there is none of. -/
  | unknownLevel
  /-- The settings name an indentation that there is none of. -/
  | unfit (error : JsonValue.IndentError)
  /-- A folder stands where a file was meant. -/
  | folder
  /-- The file to write is in a folder that is not there. -/
  | missing
  /-- The file to write is inside another file. -/
  | blocked
  /-- A path has too many bytes. -/
  | overlong
  /-- The file to write has a name that no file can have. -/
  | impossible
  /-- The tree is too deep for a chart. -/
  | tooDeep
  /-- A promise of the library was broken. -/
  | broken (message : String)
  deriving Repr, DecidableEq

/-- The exit code of the ending. -/
def Ending.code : Ending → Nat
  | .done | .help => 0
  | .problems | .unknownLevel | .unfit _ | .folder | .missing | .blocked | .overlong
  | .impossible | .tooDeep | .broken _ => 1
  | .offence | .usage => 2

-- ========================================================== invocation

/-- A run that is to be made: the command, the least severity that is
logged, the paths, and the options of a table. A path that is absent
means the standard streams. -/
structure Invocation where
  command : Command
  threshold : Nat
  input : Option String
  output : Option String
  html : HtmlOptions
  jsonIndent : Int
  deriving Repr, DecidableEq

/-- Why there is no run. -/
def stopped {β : Type} : Except Stop β → Except Ending β
  | .ok b => .ok b
  | .error .usage => .error .usage
  | .error .help => .error .help

/-- The path, unless it is the hyphen that means a standard stream. -/
def path? (word : String) : Option String := if word = "-" then none else some word

/-- The severity from which on entries are logged. -/
def thresholdFor (settings : Settings) (verbose : Bool) : Except Ending Nat :=
  if verbose then .ok LogLevel.debug.severity
  else match logThreshold? settings.logLevel with
    | some n => .ok n
    | none => .error .unknownLevel

/-- The invocation that the words make. The words before the command come
first, then the command, the log level, and the words after it. -/
def plan (settings : Settings) (words : List String) : Except Ending Invocation := do
  let opening ← stopped (readOpening words)
  if opening.help then throw .help
  match opening.rest with
  | [] => throw .usage
  | word :: rest =>
    let some command := commandNames.lookup word | throw .usage
    let threshold ← thresholdFor settings opening.verbose
    let wishes ← stopped (readWishes command rest)
    if wishes.help then throw .help
    if wishes.paths.length > 2 then throw .usage
    let .ok html := settings.html.override wishes.given | throw .usage
    return ⟨command, threshold, wishes.paths[0]? >>= path?, wishes.paths[1]? >>= path?, html,
      settings.jsonIndent⟩

-- ============================================================= reports

/-- What a run makes of a source: entries of the log, a remark, and the
text it was asked for or the ending that takes its place. -/
structure Report where
  log : List LogEntry
  remark : String := ""
  result : Except Ending String

/-- The entry on a source that was read. -/
def readEntry (recipe : Recipe String) (r : Registry) : LogEntry :=
  ⟨.debug, "apicius.grammar", s!"Parsed recipe with {recipe.fragments.length} rule(s), "
    ++ s!"{r.strings.length} interned string(s)"⟩

def stitchedEntry (v : Verdict String) : LogEntry :=
  ⟨.debug, "apicius.structure", s!"Built directed structure: {v.graph.vertices.length} vertices, "
    ++ s!"{v.graph.edges.length} edges, {v.graph.joins.length} join(s), "
    ++ s!"{v.stitching.length} problem(s)"⟩

def analysedEntry (a : Analysis String) : LogEntry :=
  ⟨.debug, "apicius.analyzer", match a.order with
    | some order => s!"Structure analysis ok, build order over {order.length} vertices"
    | none => s!"Structure analysis found {a.diagnostics.length} problem(s)"⟩

def checkedEntries (recipe : Recipe String) (v : Verdict String) : List LogEntry :=
  let name := Text.quoted recipe.name
  match v.tree with
  | some t =>
    [⟨.debug, "apicius.tree",
       s!"Constructed backward tree: size {t.size}, max depth {t.maxDepth}"⟩,
     ⟨.info, "apicius.checks", "Checked recipe " ++ name
       ++ s!": {recipe.fragments.length} rule(s), size {t.size}, max depth {t.maxDepth}"⟩]
  | none =>
    [⟨.warning, "apicius.checks", "Recipe " ++ name
       ++ s!" has {v.diagnostics.length} problem(s): "
       ++ ", ".intercalate (Text.sorted (v.diagnostics.map Diagnostic.code))⟩]

def wroteEntry (path : String) : LogEntry := ⟨.info, "apicius.cli", "Wrote " ++ path⟩

-- ============================================================= results

/-- A result whose failure no recipe that was read can bring about. -/
def promised {ε β : Type} (message : ε → String) : Except ε β → Except Ending β
  | .ok b => .ok b
  | .error e => .error (.broken (message e))

/-- Why a graph has no listing, in words. -/
def listingMessage : ListingError → String
  | .fault f => f.message
  | .nameless e => e.message

/-- The listing of the graph with the report on all problems. -/
def analysisText (v : Verdict String) : Except Ending String := do
  let graph ← promised listingMessage v.graph.listing
  let report ← promised ProvenanceError.message (Diagnostic.report v.diagnostics)
  return graph ++ "\n" ++ report

/-- The text that a command makes of a tree. -/
def treeText (i : Invocation) (title : String) (t : StepTree String) : Except Ending String :=
  match i.command with
  | .backwardTree => .ok t.listing
  | .table => Table.listing <$> promised Fault.message (Table.ofTree t)
  | .htmlTable => (·.html i.html) <$> promised Fault.message (Table.ofTree t)
  | _ => do
    let chart ← promised Fault.message (Chart.ofTree title t)
    match JsonValue.Layout.indented i.jsonIndent with
    | .ok layout => (chart.exported .brief { layout }).mapError fun _ => .tooDeep
    | .error e => .error (.unfit e)

/-- What the invocation makes of a recipe that was checked, and the remark
on its problems if it is refused. -/
def verdictText (i : Invocation) (title : String) (v : Verdict String) :
    String × Except Ending String :=
  if i.command = .analysis then ("", analysisText v)
  else match v.intoTree with
    | .ok t => ("", treeText i title t)
    | .error problems =>
      match Diagnostic.report problems with
      | .ok report => (report ++ "\n", .error .problems)
      | .error e => ("", .error (.broken e.message))

/-- What the invocation makes of a recipe, after the entry on its
reading. -/
def recipeReport (i : Invocation) (recipe : Recipe String) (r : Registry) : Report :=
  if i.command = .parseTree then ⟨[readEntry recipe r], "", .ok recipe.text⟩
  else match recipe.check with
    | .error f => ⟨[readEntry recipe r], "", .error (.broken f.message)⟩
    | .ok v =>
      let (remark, result) := verdictText i recipe.name v
      ⟨[readEntry recipe r, stitchedEntry v, analysedEntry v.analysis]
        ++ checkedEntries recipe v, remark, result⟩

/-- What the invocation makes of a source. -/
def report (i : Invocation) (source : String) : Report :=
  let cs := Text.withLineFeeds source.toList
  match Recipe.read cs .empty with
  | (.error e, _) =>
    ⟨[], "Error when running `apicius`: " ++ e.message cs ++ "\n", .error .offence⟩
  | (.ok recipe, r) =>
    match recipe.traverse r.resolve with
    | .ok recipe => recipeReport i recipe r
    | .error e => ⟨[], "", .error (.broken e.message)⟩

-- ============================================================== writing

/-- The ending of a run that made the report. -/
def Report.ending (p : Report) : Ending :=
  match p.result with
  | .ok _ => .done
  | .error e => e

/-- The text that the run writes, a line feed at its end. -/
def Report.output? (p : Report) : Option String := p.result.toOption.map Text.ended

/-- The text without terminal styling. -/
def plain (text : String) : String := String.ofList (Text.unstyled text.toList)

/-- The text with its lines ended by a line feed alone. -/
def lined (text : String) : String := String.ofList (Text.withoutPairs text.toList)

/-- The text as it is written to a stream. -/
def streamed (text : String) : String := lined (plain text)

/-- What the run says of itself, having written these files: the log down
to the threshold, and the remark. -/
def Report.said (p : Report) (i : Invocation) (wrote : List String) : String :=
  lined (shownLog i.threshold (p.log ++ wrote.map wroteEntry) ++ plain p.remark)

/-- What is left of a run. -/
structure Outcome where
  ending : Ending
  stdout : String := ""
  stderr : String := ""
  files : Directory

/-- The source that the path leads to. -/
def Directory.source (files : Directory) (path : String) : Except Ending String :=
  match files.place path with
  | .file name =>
    match files.lookup name with
    | some content => .ok content
    | none => .error .usage
  | .folder => .error .folder
  | .sink => .ok ""
  | .overlong => .error .overlong
  | .missing | .blocked | .outside | .impossible => .error .usage

/-- The directory with the text written where the path leads. What is
written outside the directory leaves no trace in it. -/
def Directory.write (files : Directory) (path content : String) : Except Ending Directory :=
  match files.place path with
  | .file name => .ok (Entries.put name content files)
  | .folder => .error .folder
  | .missing => .error .missing
  | .blocked => .error .blocked
  | .overlong => .error .overlong
  | .impossible => .error .impossible
  | .outside | .sink => .ok files

/-- What is left when the report is written where the invocation says. -/
def Report.deliver (p : Report) (i : Invocation) (files : Directory) : Outcome :=
  match p.output?, i.output with
  | some text, none => ⟨p.ending, streamed text, p.said i [], files⟩
  | some text, some path =>
    match files.write path text with
    | .ok files => ⟨p.ending, "", p.said i [path], files⟩
    | .error ending => ⟨ending, "", p.said i [], files⟩
  | none, _ => ⟨p.ending, "", p.said i [], files⟩

/-- What the invocation makes of the directory and the standard input. -/
def Invocation.run (i : Invocation) (input : String) (files : Directory) : Outcome :=
  let source : Except Ending String := match i.input with
    | none => .ok input
    | some path => files.source path
  match source with
  | .error ending => { ending, files }
  | .ok source => (report i source).deliver i files

/-- A whole run, from its words on. -/
def run (settings : Settings) (words : List String) (input : String) (files : Directory) :
    Outcome :=
  match plan settings words with
  | .error ending => { ending, files }
  | .ok i => i.run input files

end RecipeChart.CommandLine
