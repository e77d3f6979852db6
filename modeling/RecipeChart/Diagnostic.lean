/-
What can be wrong with a recipe. A diagnostic is a finding, not a
failure: all of them are collected, so that an author sees every problem
at once. Each has a code, a place if one is known, and a sentence.

The vertices on a loop are joins in every graph that rules make. In a
graph put together by hand a loop may run through vertices that have no
name, so the names on a loop may be absent; such a finding has a code and
a place, and no sentence.
-/
import RecipeChart.Registry
import RecipeChart.Recipe.Listing
import RecipeChart.Recipe.Rename
import RecipeChart.Recipe.Unplaced

namespace RecipeChart

-- ============================================================ findings

/-- A problem of a recipe. -/
inductive Diagnostic (α : Type) where
  /-- The join is reached and nothing carries on from it. -/
  | missingContinuation (name : α) (span : Option Span)
  /-- More than one rule continues from the join. -/
  | duplicateContinuation (name : α) (span : Option Span)
  /-- The join is continued from and nothing leads into it. -/
  | unknownJoin (name : α) (span : Option Span)
  /-- A rule names ingredients and reaches neither a join nor `<>`. -/
  | orphan (group : Group α) (span : Option Span)
  /-- Steps after the start that reach neither a join nor `<>`. -/
  | dangling (start : Start α) (actions : List (Action α)) (span : Option Span)
  /-- The loop starts and ends at the name. -/
  | cycle (name : Option α) (loop : List (Option α)) (span : Option Span)
  /-- The chain from the ingredients never reaches `<>`. -/
  | disconnected (group : Group α) (span : Option Span)
  /-- Nothing reaches `<>`. -/
  | emptyRecipe (span : Option Span)
  deriving Repr, DecidableEq

namespace Diagnostic

variable {α β : Type}

def code : Diagnostic α → String
  | .missingContinuation .. => "missing-continuation"
  | .duplicateContinuation .. => "duplicate-continuation"
  | .unknownJoin .. => "unknown-join-reference"
  | .orphan .. => "orphan-ingredient-root"
  | .dangling .. => "dangling-steps"
  | .cycle .. => "cycle-detected"
  | .disconnected .. => "disconnected-chain"
  | .emptyRecipe .. => "empty-recipe"

def span : Diagnostic α → Option Span
  | .missingContinuation _ s | .duplicateContinuation _ s | .unknownJoin _ s
  | .orphan _ s | .dangling _ _ s | .cycle _ _ s | .disconnected _ s | .emptyRecipe s => s

/-- The problem, its texts renamed. -/
def traverse {m : Type → Type} [Monad m] (f : α → m β) : Diagnostic α → m (Diagnostic β)
  | .missingContinuation name s => return .missingContinuation (← f name) s
  | .duplicateContinuation name s => return .duplicateContinuation (← f name) s
  | .unknownJoin name s => return .unknownJoin (← f name) s
  | .orphan group s => return .orphan (← group.traverse f) s
  | .dangling start actions s => do
    let start ← start.traverse f
    return .dangling start (← actions.mapM (Action.traverse f)) s
  | .cycle name loop s => do
    let name ← name.mapM f
    return .cycle name (← loop.mapM (Option.mapM f)) s
  | .disconnected group s => return .disconnected (← group.traverse f) s
  | .emptyRecipe s => return .emptyRecipe s

/-- The problem without its places. -/
def unplaced : Diagnostic α → Diagnostic α
  | .missingContinuation name _ => .missingContinuation name none
  | .duplicateContinuation name _ => .duplicateContinuation name none
  | .unknownJoin name _ => .unknownJoin name none
  | .orphan group _ => .orphan group.unplaced none
  | .dangling start actions _ => .dangling start.unplaced actions none
  | .cycle name loop _ => .cycle name loop none
  | .disconnected group _ => .disconnected group.unplaced none
  | .emptyRecipe _ => .emptyRecipe none

-- =========================================================== sentences

/-- The place at the end of a sentence. -/
def placed (sentence : String) : Option Span → String
  | none => sentence
  | some s => sentence ++ " (at " ++ s.text ++ ")"

/-- The join in a sentence about a loop. A vertex without a name has no
printed form. -/
def loopJoin : Option String → Except ProvenanceError String
  | some name => .ok (joinText name)
  | none => .error (.notHandle .null)

/-- The sentence that states the problem. -/
def text : Diagnostic String → Except ProvenanceError String
  | .missingContinuation name s =>
    .ok (placed ("the join point '" ++ joinText name
      ++ "' is reached but no rule continues from it") s)
  | .duplicateContinuation name s =>
    .ok (placed ("the join point '" ++ joinText name
      ++ "' is continued by more than one rule") s)
  | .unknownJoin name s =>
    .ok (placed ("the join point '" ++ joinText name
      ++ "' is continued but no rule leads into it") s)
  | .orphan group s =>
    .ok (placed ("path starting from ingredients list '" ++ group.text
      ++ "' never reaches a join point") s)
  | .dangling start actions s =>
    .ok (placed ("path starting at join point '" ++ start.text
      ++ "' goes through action path '" ++ actionsText " -> " actions
      ++ " -> ...' but never reaches a join point") s)
  | .cycle name loop s => do
    let name ← loopJoin name
    let around ← loop.mapM loopJoin
    let way := if around = [] then "" else " (" ++ " -> ".intercalate around ++ ")"
    return placed ("the join point '" ++ name ++ "' is involved in a cycle" ++ way) s
  | .disconnected group s =>
    .ok (placed ("path starting from ingredients list '" ++ group.text
      ++ "' never reaches `<>`") s)
  | .emptyRecipe s => .ok (placed "no `<>` state" s)

/-- The report made of the sentences of all problems. -/
def reportOf (sentences : List String) : String :=
  match sentences with
  | [] => "graph ok"
  | _ => "\n".intercalate ("graph problems:" :: sentences.map (" - " ++ ·))

def report (problems : List (Diagnostic String)) : Except ProvenanceError String :=
  reportOf <$> problems.mapM text

end Diagnostic

end RecipeChart
