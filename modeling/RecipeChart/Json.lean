/-
JSON values and how they are written. A value is written compactly, with
no blanks at all, or on one line with a blank behind every comma and colon,
or over several lines: then every item of a list or a record starts a line,
indented by a number of blanks that may be zero, and a blank follows the
colon after a name. An empty list or record is written in two characters
in any layout. Of a text only the characters are escaped that must be, or
all that are no printable ones of ASCII.
-/
import RecipeChart.Text.Quoted

namespace RecipeChart

-- ============================================================== values

mutual

/-- A JSON value. The fields of a record keep their order. -/
inductive JsonValue where
  | null
  | int (value : Int)
  | text (value : String)
  | list (items : List JsonValue)
  | record (fields : JsonFields)

/-- The fields of a record. -/
inductive JsonFields where
  | nil
  | cons (name : String) (value : JsonValue) (rest : JsonFields)

end

namespace JsonFields

def ofList : List (String × JsonValue) → JsonFields
  | [] => .nil
  | (name, value) :: rest => .cons name value (ofList rest)

def toList : JsonFields → List (String × JsonValue)
  | .nil => []
  | .cons name value rest => (name, value) :: rest.toList

@[simp] theorem toList_ofList (fields : List (String × JsonValue)) :
    (ofList fields).toList = fields := by
  induction fields with
  | nil => rfl
  | cons f fields ih => rw [ofList, toList, ih]

@[simp] theorem ofList_toList : ∀ fields : JsonFields, ofList fields.toList = fields
  | .nil => rfl
  | .cons name value rest => by rw [toList, ofList, ofList_toList rest]

end JsonFields

namespace JsonValue

/-- The record of the fields. -/
def ofFields (fields : List (String × JsonValue)) : JsonValue := .record (.ofList fields)

/-- Is the value null or an empty list? -/
def isBlank : JsonValue → Bool
  | .null => true
  | .list items => items.isEmpty
  | _ => false

-- ============================================================= writing

/-- Which characters of a text are escaped: the quote, the backslash and
the control characters below the blank, or whatever is no printable
character of ASCII besides. -/
inductive Escaping where
  | plain
  | ascii
  deriving Repr, DecidableEq

/-- May the character stand in a text as it is? -/
def Escaping.leaves (e : Escaping) (c : Char) : Bool :=
  0x20 ≤ c.toNat && (e = .plain || c.toNat < 0x7f)

/-- A unit of 16 bits by its number, in four digits. -/
def unitEscape (n : Nat) : String := "\\u" ++ Text.hexadecimal 4 n

/-- A character by its number. One that has more than 16 bits is written as
two halves of ten bits, each with a mark of its own. -/
def numbered (c : Char) : String :=
  if c.toNat < 0x10000 then unitEscape c.toNat
  else
    unitEscape (0xD800 + (c.toNat - 0x10000) / 0x400)
      ++ unitEscape (0xDC00 + (c.toNat - 0x10000) % 0x400)

/-- A character inside quotes. The quote and the backslash are escaped by
themselves, five control characters by letters of their own, and what else
may not stand as it is by its number. -/
def escaped (e : Escaping) (c : Char) : String :=
  if c = '"' then "\\\""
  else if c = '\\' then "\\\\"
  else if c = '\n' then "\\n"
  else if c = '\r' then "\\r"
  else if c = '\t' then "\\t"
  else if c = '\x08' then "\\b"
  else if c = '\x0c' then "\\f"
  else if e.leaves c then c.toString
  else numbered c

/-- A text in quotes. -/
def quoted (e : Escaping) (s : String) : String :=
  "\"" ++ String.join (s.toList.map (escaped e)) ++ "\""

/-- How a value is laid out: compactly, on one line with blanks, or over
lines that are indented by so many blanks per level. -/
inductive Layout where
  | compact
  | line
  | lines (indent : Nat)
  deriving Repr, DecidableEq

/-- Why there are no lines with an indentation. -/
inductive IndentError where
  | negative
  /-- The indentation is no word of 64 bits. -/
  | tooWide
  deriving Repr, DecidableEq

def IndentError.message : IndentError → String
  | .negative => "can't convert negative int to unsigned"
  | .tooWide => "int too big to convert"

/-- The layout over lines that are indented by so many blanks per level. -/
def Layout.indented (indent : Int) : Except IndentError Layout :=
  if indent < 0 then .error .negative
  else if UInt64.size ≤ indent then .error .tooWide
  else .ok (.lines indent.toNat)

/-- What stands before an item at the level. -/
def Layout.lineBreak : Layout → (level : Nat) → String
  | .compact, _ | .line, _ => ""
  | .lines indent, level => String.ofList ('\n' :: List.replicate (indent * level) ' ')

/-- What stands between two items at the level. -/
def Layout.comma : Layout → (level : Nat) → String
  | .line, _ => ", "
  | l, level => "," ++ l.lineBreak level

/-- What stands between a name and its value. -/
def Layout.colon : Layout → String
  | .compact => ":"
  | .line | .lines _ => ": "

/-- How a value is written: which characters are escaped, and the layout. -/
structure Style where
  escaping : Escaping := .plain
  layout : Layout := .compact
  deriving Repr, DecidableEq

/-- Items in brackets that stand at the level. -/
def enclosed (l : Layout) (level : Nat) (opening closing : String) (items : List String) :
    String :=
  if items.isEmpty then opening ++ closing
  else opening ++ l.lineBreak (level + 1) ++ (l.comma (level + 1)).intercalate items
    ++ l.lineBreak level ++ closing

variable (s : Style)

mutual

/-- The value as it is written at the level. -/
def writtenAt (level : Nat) : JsonValue → String
  | .null => "null"
  | .int n => toString n
  | .text value => quoted s.escaping value
  | .list items => enclosed s.layout level "[" "]" (writtenItems (level + 1) items)
  | .record fields => enclosed s.layout level "\x7b" "\x7d" (writtenFields (level + 1) fields)

def writtenItems (level : Nat) : List JsonValue → List String
  | [] => []
  | v :: vs => writtenAt level v :: writtenItems level vs

def writtenFields (level : Nat) : JsonFields → List String
  | .nil => []
  | .cons name value rest =>
    (quoted s.escaping name ++ s.layout.colon ++ writtenAt level value) :: writtenFields level rest

end

theorem writtenItems_eq (level : Nat) (vs : List JsonValue) :
    writtenItems s level vs = vs.map (writtenAt s level) := by
  induction vs with
  | nil => rfl
  | cons v vs ih => rw [writtenItems, List.map_cons, ih]

theorem writtenFields_eq (level : Nat) : ∀ fields : JsonFields,
    writtenFields s level fields
      = fields.toList.map fun f =>
        quoted s.escaping f.1 ++ s.layout.colon ++ writtenAt s level f.2
  | .nil => rfl
  | .cons name value rest => by
    rw [writtenFields, JsonFields.toList, List.map_cons, writtenFields_eq level rest]

/-- The value as it is written in the style. -/
def written (v : JsonValue) : String := writtenAt s 0 v

end JsonValue

end RecipeChart
