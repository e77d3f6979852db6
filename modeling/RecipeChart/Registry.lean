/-
The registry of texts. It hands out a handle for every text it takes in,
the same handle for the same text, and numbers them in the order of
their first coming. Nothing is ever removed. A frozen registry still
answers for the texts it holds and takes no new one.

Two tables lead from one to the other: an index from the texts to their
handles, and a list of the texts from which a handle is resolved. They are
written together, and that they stay each other's inverse is a matter of
proof.

Over the texts the registry keeps the ingredients and actions made of
them, one canonical value for each, numbered in the order of making. An
operation may fail after it has written to the registry, and what it has
written stays: a task gives a registry back whether or not it succeeds.
-/
import RecipeChart.Datum
import RecipeChart.Recipe

namespace RecipeChart

-- ============================================================ handles

/-- A number that stands for a text of some registry. Any integer can be
written down; a registry answers for the ones it has handed out. -/
structure Handle where
  index : Int
  deriving Repr, DecidableEq

/-- What a caller offers where a handle is needed. -/
inductive Reference where
  | handle (handle : Handle)
  | other (datum : Datum)
  deriving Repr, DecidableEq

/-- Do the references refer to the same? -/
def Reference.same : Reference → Reference → Bool
  | .handle h, .handle h' => h = h'
  | .other d, .other d' => d.same d'
  | _, _ => false

/-- Why a registry refuses a handle or a text. -/
inductive ProvenanceError where
  | frozen (text : String)
  | unminted (index : Int)
  | notHandle (datum : Datum)
  deriving Repr, DecidableEq

def ProvenanceError.message : ProvenanceError → String
  | .frozen text => "registry is frozen, cannot intern " ++ Text.quoted text
  | .unminted index => s!"handle {index} was not minted by this registry"
  | .notHandle datum => "not a text handle: " ++ datum.shown

-- ========================================================= the registry

/-- A value of which the registry keeps one copy. -/
inductive Canonical (α : Type) where
  | ingredient (ingredient : Ingredient α)
  | action (action : Action α)
  deriving Repr, DecidableEq

/-- The texts in the order of their handles and the index of the handles by
their texts, the canonical values in the order of their numbers. -/
structure Registry where
  strings : List String := []
  index : List (String × Handle) := strings.zipIdx.map fun (text, i) => (text, ⟨i⟩)
  canonicals : List (Canonical Handle) := []
  frozen : Bool := false
  deriving Repr, DecidableEq

namespace Registry

def empty : Registry := {}

/-- The handle of the text, if the registry has taken the text in. -/
def find? (r : Registry) (text : String) : Option Handle := r.index.lookup text

/-- Has the registry taken the text in? -/
def contains (r : Registry) (text : String) : Bool := (r.find? text).isSome

/-- From now on no new text is taken in. -/
def freeze (r : Registry) : Registry := { r with frozen := true }

/-- The text that the handle stands for. -/
def resolve (r : Registry) (h : Handle) : Except ProvenanceError String :=
  if h.index < 0 then .error (.unminted h.index)
  else match r.strings[h.index.toNat]? with
    | some text => .ok text
    | none => .error (.unminted h.index)

/-- The text that the reference stands for, if it is a handle at all. -/
def resolveReference (r : Registry) : Reference → Except ProvenanceError String
  | .handle h => r.resolve h
  | .other datum => .error (.notHandle datum)

-- =============================================================== tasks

/-- A task that is done with a registry. It may fail, and it leaves a
registry in any case. -/
abbrev Task (ε : Type) := ExceptT ε (StateM Registry)

/-- The handle of the text, which is taken in if it is new. -/
def intern (text : String) : Task ProvenanceError Handle := do
  let r ← get
  match r.find? text with
  | some handle => return handle
  | none =>
    if r.frozen then throw (.frozen text)
    let handle : Handle := ⟨r.strings.length⟩
    set { r with strings := r.strings ++ [text], index := r.index ++ [(text, handle)] }
    return handle

-- ==================================================== canonical values

/-- The number of the canonical value, which is recorded if it is new. -/
def number (value : Canonical Handle) : Task ProvenanceError Nat := do
  let r ← get
  match r.canonicals.idxOf? value with
  | some i => return i
  | none =>
    set { r with canonicals := r.canonicals ++ [value] }
    return r.canonicals.length

/-- The ingredient of these texts and its number. The name is taken in
before the amount. -/
def ingredient (name : String) (amount : Option String) :
    Task ProvenanceError (Ingredient Handle × Nat) := do
  let name ← intern name
  let amount ← amount.mapM intern
  let value : Ingredient Handle := ⟨name, amount⟩
  let k ← number (.ingredient value)
  return (value, k)

/-- The action of this description and these seasonings, less repeats,
and its number. The seasonings may come from anywhere. -/
def action (description : String) (seasonings : List (Ingredient Handle)) :
    Task ProvenanceError (Action Handle × Nat) := do
  let description ← intern description
  let value := Action.ofSeasonings description seasonings
  let k ← number (.action value)
  return (value, k)

end Registry

end RecipeChart
