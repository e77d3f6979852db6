/-
Plain data that is none of the library's own values. A caller may offer
such a datum where a text handle or a printable value is needed; it is
refused, and the refusal names the datum or its kind. Data are the same
when they hold the same: numbers are compared as they are kept, a truth
value counts as one or zero, and the fields of a record have no order.
-/
import RecipeChart.Decimal
import RecipeChart.Text.Quoted

namespace RecipeChart

-- ================================================================ data

mutual

/-- A plain datum. -/
inductive Datum where
  | null
  | bool (value : Bool)
  | int (value : Int)
  | real (value : Decimal)
  | text (value : String)
  | list (items : Data)
  | record (fields : DataFields)
  deriving Repr, DecidableEq

/-- Data one after another. -/
inductive Data where
  | nil
  | cons (first : Datum) (rest : Data)
  deriving Repr, DecidableEq

/-- The fields of a record, no name twice. -/
inductive DataFields where
  | nil
  | cons (name : String) (value : Datum) (rest : DataFields)
  deriving Repr, DecidableEq

end

instance : Inhabited Datum := ⟨.null⟩

namespace Data

def ofList : List Datum → Data
  | [] => .nil
  | d :: ds => .cons d (ofList ds)

def toList : Data → List Datum
  | .nil => []
  | .cons d ds => d :: ds.toList

@[simp] theorem toList_ofList (ds : List Datum) : (ofList ds).toList = ds := by
  induction ds with
  | nil => rfl
  | cons d ds ih => rw [ofList, toList, ih]

end Data

namespace DataFields

def ofList : List (String × Datum) → DataFields
  | [] => .nil
  | (name, value) :: rest => .cons name value (ofList rest)

def toList : DataFields → List (String × Datum)
  | .nil => []
  | .cons name value rest => (name, value) :: rest.toList

@[simp] theorem toList_ofList (fields : List (String × Datum)) :
    (ofList fields).toList = fields := by
  induction fields with
  | nil => rfl
  | cons f fields ih => rw [ofList, toList, ih]

end DataFields

namespace Datum

-- ============================================================== showing

def kind : Datum → String
  | .null => "NoneType"
  | .bool _ => "bool"
  | .int _ => "int"
  | .real _ => "float"
  | .text _ => "str"
  | .list _ => "list"
  | .record _ => "dict"

mutual

/-- The datum as a message shows it. -/
def shown : Datum → String
  | .null => "None"
  | .bool true => "True"
  | .bool false => "False"
  | .int n => toString n
  | .real d => d.text
  | .text s => Text.quoted s
  | .list items => "[" ++ ", ".intercalate (shownItems items) ++ "]"
  | .record fields => "\x7b" ++ ", ".intercalate (shownFields fields) ++ "\x7d"

def shownItems : Data → List String
  | .nil => []
  | .cons d ds => shown d :: shownItems ds

def shownFields : DataFields → List String
  | .nil => []
  | .cons name value rest => (Text.quoted name ++ ": " ++ shown value) :: shownFields rest

end

-- ============================================================= equality

/-- The number that the datum counts as. -/
def number? : Datum → Option Decimal
  | .bool b => some (.ofInt (if b then 1 else 0))
  | .int n => some (.ofInt n)
  | .real d => some d.kept
  | _ => none

mutual

/-- Are the data the same? -/
def same : Datum → Datum → Bool
  | .null, .null => true
  | .text s, .text s' => s = s'
  | .list items, .list items' => sameItems items items'
  | .record fields, .record fields' =>
    fields.toList.length = fields'.toList.length && sameFields fields fields'.toList
  | a, b =>
    match a.number?, b.number? with
    | some m, some n => m.same n
    | _, _ => false

def sameItems : Data → Data → Bool
  | .nil, .nil => true
  | .cons d ds, .cons d' ds' => same d d' && sameItems ds ds'
  | _, _ => false

/-- Is each of the fields there, with the same value? -/
def sameFields : DataFields → List (String × Datum) → Bool
  | .nil, _ => true
  | .cons name value rest, fields =>
    (match fields.lookup name with
      | some value' => same value value'
      | none => false)
    && sameFields rest fields

end

end Datum

end RecipeChart
