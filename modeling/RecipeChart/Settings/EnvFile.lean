/-
Files that hold an environment: a name, an equals sign and a value to a
line, with `export` before it or not. A value in quotes may go on over
several lines; its escapes are undone. A value without quotes ends with
its line, or at a blank before a number sign, where a comment starts. A
value may refer to a name set before it, or outside, by its name in
braces after a dollar sign, with a default or without. A line that is
none of this is passed over. A name without an equals sign stands for
nothing from there on. A byte order mark may begin the file.
-/
import RecipeChart.Settings.Environment
import RecipeChart.Text.Blank
import RecipeChart.Text.Newline

namespace RecipeChart.EnvFile

-- =============================================================== parts

/-- Is the character a blank that does not end a line? -/
def isSpace (c : Char) : Bool := Text.isBlank c && c ≠ '\n' && c ≠ '\r'

/-- Does the character end a line? -/
def isLineEnd (c : Char) : Bool := c = '\n' || c = '\r'

/-- What follows the word `export` and the blanks after it, or all of it
where that word does not stand. -/
def afterExport (cs : List Char) : List Char :=
  if "export".toList.isPrefixOf cs then
    match cs.drop 6 with
    | c :: rest => if isSpace c then rest.dropWhile isSpace else cs
    | [] => cs
  else cs

/-- A quoted text up to its closing quote, escapes not yet undone, and
what follows. No character after a backslash closes the text. -/
def quoted (quote : Char) : List Char → Option (List Char × List Char)
  | [] => none
  | '\\' :: c :: rest => (quoted quote rest).map fun r => ('\\' :: c :: r.1, r.2)
  | c :: rest =>
    if c = quote then some ([], rest) else (quoted quote rest).map fun r => (c :: r.1, r.2)

/-- The escapes of a single-quoted text. -/
def singleEscapes : List (Char × Char) := [('\\', '\\'), ('\'', '\'')]

/-- The escapes of a double-quoted text. -/
def doubleEscapes : List (Char × Char) :=
  [('\\', '\\'), ('\'', '\''), ('"', '"'), ('a', '\x07'), ('b', '\x08'), ('f', '\x0c'),
   ('n', '\n'), ('r', '\r'), ('t', '\t'), ('v', '\x0b')]

/-- The text with its escapes undone. A backslash before any other
character stands for itself. -/
def unescaped (escapes : List (Char × Char)) : List Char → List Char
  | '\\' :: c :: rest =>
    match escapes.lookup c with
    | some d => d :: unescaped escapes rest
    | none => '\\' :: unescaped escapes (c :: rest)
  | c :: rest => c :: unescaped escapes rest
  | [] => []

/-- A line up to the blanks before a number sign. -/
def beforeComment : List Char → List Char
  | [] => []
  | c :: rest =>
    if isSpace c && (rest.dropWhile Text.isBlank).head? = some '#' then []
    else c :: beforeComment rest

-- ============================================================== values

/-- The value that a line has without quotes, blanks around it apart. -/
def bareValue (line : List Char) : List Char := Text.trim (beforeComment line)

/-- The value after an equals sign, and what follows it. -/
def value (cs : List Char) : Option (List Char × List Char) :=
  match cs.dropWhile isSpace with
  | '\'' :: rest => (quoted '\'' rest).map fun r => (unescaped singleEscapes r.1, r.2)
  | '"' :: rest => (quoted '"' rest).map fun r => (unescaped doubleEscapes r.1, r.2)
  | _ => some (bareValue (cs.takeWhile (!isLineEnd ·)), cs.dropWhile (!isLineEnd ·))

/-- The name at the beginning of a line, if there is one, and what follows
it. There is none before a comment. -/
def name (cs : List Char) : Option (Option (List Char) × List Char) :=
  match cs with
  | '#' :: _ => some (none, cs)
  | '\'' :: rest =>
    match rest.takeWhile (· ≠ '\''), rest.dropWhile (· ≠ '\'') with
    | _ :: _, _ :: after => some (some (rest.takeWhile (· ≠ '\'')), after)
    | _, _ => none
  | cs =>
    let stops := fun c => c = '=' || c = '#' || Text.isBlank c
    match cs.takeWhile (!stops ·) with
    | [] => none
    | found => some (some found, cs.dropWhile (!stops ·))

/-- A name with the value it has, if it has one. -/
abbrev Binding := String × Option String

/-- What was looked for, or the place at which it is missing. -/
def orMissing {β : Type} (cs : List Char) : Option β → Except (List Char) β
  | some b => .ok b
  | none => .error cs

/-- What follows a comment, if one stands here, up to the line end.
Nothing else may stand before the line end. -/
def afterComment (cs : List Char) : Except (List Char) (List Char) :=
  match cs.dropWhile isSpace with
  | '#' :: rest => .ok (rest.dropWhile (!isLineEnd ·))
  | [] => .ok []
  | c :: rest => if isLineEnd c then .ok (c :: rest) else .error cs

/-- The binding at the beginning of the text, which is not blank, and what
follows it; or the place from which on there is none. -/
def binding (cs : List Char) : Except (List Char) (Option Binding × List Char) := do
  let cs := afterExport cs
  let (found, cs) ← orMissing cs (name cs)
  let (held, cs) ← match cs.dropWhile isSpace with
    | '=' :: rest => do
      let (held, cs) ← orMissing rest (value rest)
      pure (some held, cs)
    | cs => pure (none, cs)
  let cs ← afterComment cs
  return (found.map fun n => (String.ofList n, held.map String.ofList), cs)

/-- The bindings of a text, at most `fuel` of them. Where there is none the
rest of the line is passed over. -/
def bindings : (fuel : Nat) → List Char → List Binding
  | 0, _ => []
  | fuel + 1, cs =>
    match cs.dropWhile Text.isBlank with
    | [] => []
    | cs =>
      match binding cs with
      | .ok (found, rest) => found.toList ++ bindings fuel rest
      | .error rest => bindings fuel (rest.dropWhile (!isLineEnd ·))

-- ========================================================== references

/-- A reference after its opening brace: the name, the default if there is
one, and what follows the closing brace. -/
def reference (cs : List Char) : Option (String × String × List Char) :=
  let stops := fun c => c = '\x7d' || c = ':'
  let name := String.ofList (cs.takeWhile (!stops ·))
  match cs.dropWhile (!stops ·) with
  | '\x7d' :: rest => some (name, "", rest)
  | ':' :: '-' :: rest =>
    match rest.dropWhile (· ≠ '\x7d') with
    | _ :: after => some (name, String.ofList (rest.takeWhile (· ≠ '\x7d')), after)
    | [] => none
  | _ => none

/-- The text with its references replaced, at most `fuel` characters and
references of it. -/
def replaced (meaning : String → Option String) : (fuel : Nat) → List Char → String
  | 0, _ => ""
  | _, [] => ""
  | fuel + 1, c :: rest =>
    match c, rest with
    | '$', '\x7b' :: inside =>
      match reference inside with
      | some (name, fallback, after) => (meaning name).getD fallback ++ replaced meaning fuel after
      | none => c.toString ++ replaced meaning fuel rest
    | _, _ => c.toString ++ replaced meaning fuel rest

/-- What a name means to a value: what the file last set it to, or what it
stands for outside. A name that was set to nothing means the empty text. -/
def meaning (outside file : Environment) (name : String) : Option String :=
  match file.lookup name with
  | some held => some (held.getD "")
  | none => outside.spelled? name

/-- The environment with the binding put, its references replaced. -/
def bound (outside file : Environment) (b : Binding) : Environment :=
  Entries.put b.1 (b.2.map fun text => replaced (meaning outside file) text.length text.toList)
    file

-- ================================================================ files

/-- The text without the byte order mark that may begin it. -/
def withoutMark : List Char → List Char
  | '\ufeff' :: cs => cs
  | cs => cs

/-- The environment that the file holds, read inside another one. -/
def read (outside : Environment) (content : String) : Environment :=
  let cs := Text.withLineFeeds (withoutMark content.toList)
  (bindings cs.length cs).foldl (bound outside) []

end RecipeChart.EnvFile
