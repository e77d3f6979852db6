/-
Tokens of the recipe notation. A source is cut from left to right into
pieces, each as long as it can be: gaps, comments up to the end of their
line, and tokens. The first character of a piece decides what it is, so
no two kinds compete for the same text. A word is the one token with an
inside: it runs on over blanks, and over a hyphen or slash unless that
begins an arrow or a comment. Where no piece can be read the scan stops,
and what was cut before still counts.

Each token is kept with its place. The scan carries the place along one
character at a time and a count of characters that still belong to the
last piece, so it recurs on the source itself.
-/
import RecipeChart.Span
import RecipeChart.Text.Blank

namespace RecipeChart

-- ============================================================== tokens

/-- A token. A word and a join carry their spelling, the join without
its mark. -/
inductive Token where
  | word (spelling : List Char)
  | join (name : List Char)
  | done
  | arrow
  | openBracket
  | closeBracket
  | openBrace
  | closeBrace
  | semicolon
  | ampersand
  | plus
  deriving Repr, DecidableEq

/-- A token and the place of its first character. -/
structure Lexeme where
  token : Token
  place : Place
  deriving Repr, DecidableEq

-- =============================================================== words

/-- Never part of a word. -/
def endsWord (c : Char) : Bool :=
  ['[', ']', '{', '}', ';', '$', '&', '+', '<', '>', '\n'].contains c

/-- May the character open a word? -/
def opensWord (c : Char) : Bool :=
  !Text.isBlank c && !endsWord c && c ≠ '-' && c ≠ '/'

/-- Does the character begin an arrow or a comment, given what follows? -/
def breaksWord (c : Char) (rest : List Char) : Bool :=
  (c = '-' && rest.head? = some '>') || (c = '/' && rest.head? = some '/')

/-- The longest continuation of a word. -/
def wordTail : List Char → List Char
  | [] => []
  | c :: rest => if endsWord c || breaksWord c rest then [] else c :: wordTail rest

/-- May the character stand in the name of a join point? -/
def isNameChar (c : Char) : Bool := c.isAlphanum || c = '_'

-- ============================================================== pieces

/-- What a source is cut into. -/
inductive Piece where
  | gap
  | token (token : Token)
  deriving Repr, DecidableEq

/-- The piece that starts with the character, and how many of the
characters after it belong to the piece. There is none where no piece
starts so. -/
def Piece.read? (c : Char) (rest : List Char) : Option (Piece × Nat) :=
  if Text.isGap c then some (.gap, (rest.takeWhile Text.isGap).length)
  else match c with
    | '[' => some (.token .openBracket, 0)
    | ']' => some (.token .closeBracket, 0)
    | '{' => some (.token .openBrace, 0)
    | '}' => some (.token .closeBrace, 0)
    | ';' => some (.token .semicolon, 0)
    | '&' => some (.token .ampersand, 0)
    | '+' => some (.token .plus, 0)
    | '$' =>
      let name := rest.takeWhile isNameChar
      if name = [] then none else some (.token (.join name), name.length)
    | '<' => if rest.head? = some '>' then some (.token .done, 1) else none
    | '-' => if rest.head? = some '>' then some (.token .arrow, 1) else none
    | '/' =>
      if rest.head? = some '/' then some (.gap, (rest.takeWhile (· ≠ '\n')).length) else none
    | c =>
      if opensWord c then
        let tail := wordTail rest
        some (.token (.word (c :: tail)), tail.length)
      else none

-- ================================================================ scan

/-- What a scan found: the tokens in order, and the place where it
stopped short of the end, if it did. -/
structure Scan where
  lexemes : List Lexeme
  stuck : Option Place
  deriving Repr, DecidableEq

/-- The scan from a place on, where the first `skip` characters belong
to a piece already read. -/
def Scan.go : Place → (skip : Nat) → List Char → Scan
  | _, _, [] => ⟨[], none⟩
  | here, skip + 1, c :: rest => go (here.next c) skip rest
  | here, 0, c :: rest =>
    match Piece.read? c rest with
    | none => ⟨[], some here⟩
    | some (.gap, n) => go (here.next c) n rest
    | some (.token t, n) =>
      let more := go (here.next c) n rest
      ⟨⟨t, here⟩ :: more.lexemes, more.stuck⟩

/-- The scan of a whole source. -/
def Scan.ofSource (source : List Char) : Scan := Scan.go Place.start 0 source

end RecipeChart
