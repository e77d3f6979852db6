/-
Markup: elements with attributes, texts between their tags, and the way
they are written. An element holds the text up to its first child and the
text that follows it, so that every text of a document stands in one
place. The characters that would be read as markup are written as
entities, so what is written can be read back tag by tag.

Before it is written a document may be laid out: a text that is absent or
blank, where an element has children, becomes a line break with
indentation. No other text is touched.
-/
import RecipeChart.Text.Blank

namespace RecipeChart.Markup

-- ============================================================ elements

/-- An element of a document: its tag and attributes, the text before its
first child, its children, and the text that follows it. -/
inductive Node where
  | element (tag : String) (attributes : List (String × String)) (text : String)
      (children : List Node) (tail : String)

/-- A part of what an element holds. -/
inductive Content where
  | text (text : String)
  | node (node : Node)

namespace Node

/-- The text that follows the element. -/
def tail : Node → String
  | .element _ _ _ _ tail => tail

/-- The element, followed by another text. -/
def withTail (tail : String) : Node → Node
  | .element tag attributes text children _ => .element tag attributes text children tail

end Node

-- ============================================================ contents

/-- The text at the beginning of the contents, up to the first node. -/
def leadingText : List Content → String
  | .text s :: rest => s ++ leadingText rest
  | _ => ""

/-- The nodes among the contents, each followed by the text up to the next
one. -/
def nodesAmong : List Content → List Node
  | [] => []
  | .text _ :: rest => nodesAmong rest
  | .node n :: rest => n.withTail (leadingText rest) :: nodesAmong rest

/-- The element that holds the contents. -/
def Node.ofContents (tag : String) (attributes : List (String × String))
    (contents : List Content) : Node :=
  .element tag attributes (leadingText contents) (nodesAmong contents) ""

-- ============================================================== layout

/-- A line break and the indentation of the level, two spaces each. -/
def lineBreak (level : Nat) : String :=
  String.ofList ('\n' :: List.replicate (2 * level) ' ')

/-- The text, or the line break in place of a blank one. -/
def orBreak (level : Nat) (text : String) : String :=
  if Text.isAllBlank text then lineBreak level else text

mutual

/-- The element, which stands at the level, laid out. -/
def Node.laidOut (level : Nat) : Node → Node
  | .element tag attributes text children tail =>
    .element tag attributes (if children.isEmpty then text else orBreak (level + 1) text)
      (laidOutAll level children) tail

/-- The children of an element at the level, laid out. A child is
followed by the next one at its own level, the last one by the end of the
element. -/
def laidOutAll (level : Nat) : List Node → List Node
  | [] => []
  | n :: ns =>
    (n.laidOut (level + 1)).withTail (orBreak (if ns.isEmpty then level else level + 1) n.tail)
      :: laidOutAll level ns

end

-- ============================================================= writing

/-- A character of a text between tags. -/
def textChar (c : Char) : String :=
  if c = '&' then "&amp;"
  else if c = '<' then "&lt;"
  else if c = '>' then "&gt;"
  else c.toString

/-- A character of an attribute in double quotes. -/
def attributeChar (c : Char) : String :=
  if c = '&' then "&amp;"
  else if c = '>' then "&gt;"
  else if c = '"' then "&quot;"
  else c.toString

def escapeText (s : String) : String := String.join (s.toList.map textChar)

def escapeAttribute (s : String) : String := String.join (s.toList.map attributeChar)

/-- An attribute, after the blank that sets it off. -/
def attributeText (a : String × String) : String :=
  " " ++ a.1 ++ "=\"" ++ escapeAttribute a.2 ++ "\""

mutual

/-- The element as it is written, with the text that follows it. -/
def Node.written : Node → String
  | .element tag attributes text children tail =>
    "<" ++ tag ++ String.join (attributes.map attributeText) ++ ">" ++ escapeText text
      ++ writtenAll children ++ "</" ++ tag ++ ">" ++ escapeText tail

/-- Elements one after another, as they are written. -/
def writtenAll : List Node → String
  | [] => ""
  | n :: ns => n.written ++ writtenAll ns

end

theorem writtenAll_eq (ns : List Node) :
    writtenAll ns = (ns.map Node.written).foldr (· ++ ·) "" := by
  induction ns with
  | nil => rfl
  | cons n ns ih => rw [writtenAll, List.map_cons, List.foldr_cons, ih]

end RecipeChart.Markup
