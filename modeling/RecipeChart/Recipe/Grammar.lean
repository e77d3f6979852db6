/-
The grammar of the recipe notation, as a machine that reads one token at
a time:

    recipe:      WORD "{" rule* "}"
    rule:        (ingredients | JOIN) ("->" (step | JOIN | "<>"))* ";"
    ingredients: ingredient ("+" ingredient)*
    ingredient:  ("[" WORD "]")? WORD
    step:        WORD ("&" ingredients)?

No part of the grammar contains itself, so a finite set of situations is
enough, each with the draft of what was read so far. A token that the
situation has no use for is the first offence; nothing is ever read
ahead. That `<>` may only close a rule is not part of the grammar: it is
checked on rules that were read to their end.
-/
import RecipeChart.Recipe.Token
import RecipeChart.Recipe

namespace RecipeChart

-- =============================================================== rules

/-- One action of a rule as it was written. -/
inductive RuleAction (α : Type) where
  | step (step : Step α)
  | join (ref : JoinRef α)
  | done (span : Span)
  deriving Repr, DecidableEq

/-- A rule as it was written: its start, and all that follows arrows. -/
structure Rule (α : Type) where
  start : Start α
  actions : List (RuleAction α) := []
  deriving Repr, DecidableEq

variable {α : Type}

/-- The rule with one more action. -/
def Rule.push (r : Rule α) (a : RuleAction α) : Rule α :=
  { r with actions := r.actions ++ [a] }

/-- Splits actions into a body and a finish: the last action finishes
the rule if it is a join or `<>`. Fails with the span of the first `<>`
that is not last. -/
def RuleAction.split : List (RuleAction α) → Except Span (List (Element α) × Option (Finish α))
  | [] => .ok ([], none)
  | [.join r] => .ok ([], some (.join r))
  | [.done span] => .ok ([], some (.done (some span)))
  | .done span :: _ => .error span
  | .step s :: rest => do
    let (body, finish) ← split rest
    return (.step s :: body, finish)
  | .join r :: rest => do
    let (body, finish) ← split rest
    return (.join r :: body, finish)

/-- The fragment that the rule writes, unless it misplaces `<>`. -/
def Rule.fragment? (r : Rule α) : Except Span (Fragment α) := do
  let (body, finish) ← RuleAction.split r.actions
  return ⟨r.start, body, finish⟩

-- ============================================================== drafts

/-- A recipe as it was written: its name, which is read first, and its
rules. -/
structure RecipeSource where
  name : String
  rules : List (Rule String) := []
  deriving Repr, DecidableEq

/-- The recipe with one more rule. -/
def RecipeSource.push (r : RecipeSource) (rule : Rule String) : RecipeSource :=
  { r with rules := r.rules ++ [rule] }

/-- The text that a word stands for. -/
def wordText (spelling : List Char) : String := String.ofList (Text.trim spelling)

/-- Where a list of ingredients stands: at the start of a rule, or after
the ampersand of a step, whose description was just read. -/
inductive Site where
  | start
  | seasoning (rule : Rule String) (description : String) (span : Span)
  deriving Repr, DecidableEq

/-- Ingredients read so far, each with the span of its first word. -/
abbrev Items := List (Ingredient String × Span)

/-- The group that the items make: repeats are dropped, and the group
stands where its first item stands. -/
def Items.group (items : Items) : Group String :=
  ⟨unique (items.map (·.1)), items.head?.map (·.2)⟩

/-- The rule once the list of ingredients is complete. -/
def Site.close (items : Items) : Site → Rule String
  | .start => ⟨.group items.group, []⟩
  | .seasoning rule description span =>
    rule.push (.step ⟨⟨description, items.group.ingredients⟩, some span⟩)

-- ========================================================== situations

/-- How far the reading has come. -/
inductive Situation where
  /-- The name comes next. -/
  | atName
  /-- The opening brace comes next. -/
  | atBrace (name : String)
  /-- A rule or the closing brace comes next. -/
  | atRule (recipe : RecipeSource)
  /-- An ingredient comes next. -/
  | atIngredient (recipe : RecipeSource) (site : Site) (items : Items)
  /-- The word of an amount comes next. -/
  | atAmount (recipe : RecipeSource) (site : Site) (items : Items)
  /-- The closing bracket comes next. -/
  | atBracket (recipe : RecipeSource) (site : Site) (items : Items)
      (amount : String) (span : Span)
  /-- The name of an ingredient with an amount comes next. -/
  | atIngredientName (recipe : RecipeSource) (site : Site) (items : Items)
      (amount : String) (span : Span)
  /-- An ingredient was read. -/
  | afterIngredient (recipe : RecipeSource) (site : Site) (items : Items)
  /-- An arrow was read. -/
  | atAction (recipe : RecipeSource) (rule : Rule String)
  /-- The description of a step was read. -/
  | afterDescription (recipe : RecipeSource) (rule : Rule String)
      (description : String) (span : Span)
  /-- A join or `<>` was read. -/
  | afterAction (recipe : RecipeSource) (rule : Rule String)
  /-- The closing brace was read. -/
  | closed (recipe : RecipeSource)
  deriving Repr, DecidableEq

namespace Situation

/-- What an arrow or a semicolon makes of a finished rule. -/
def goOn (recipe : RecipeSource) (rule : Rule String) : Token → Option Situation
  | .arrow => some (.atAction recipe rule)
  | .semicolon => some (.atRule (recipe.push rule))
  | _ => none

/-- What comes of the first token of an ingredient. -/
def beginIngredient (recipe : RecipeSource) (site : Site) (items : Items) (span : Span) :
    Token → Option Situation
  | .openBracket => some (.atAmount recipe site items)
  | .word w => some (.afterIngredient recipe site (items ++ [(⟨wordText w, none⟩, span)]))
  | _ => none

/-- The situation after one more token, if the token can stand there. -/
def next? (s : Situation) (l : Lexeme) : Option Situation :=
  let span := l.place.span
  match s, l.token with
  | .atName, .word w => some (.atBrace (wordText w))
  | .atBrace name, .openBrace => some (.atRule ⟨name, []⟩)
  | .atRule recipe, .closeBrace => some (.closed recipe)
  | .atRule recipe, .join name =>
    some (.afterAction recipe ⟨.join ⟨String.ofList name, some span⟩, []⟩)
  | .atRule recipe, t => beginIngredient recipe .start [] span t
  | .atIngredient recipe site items, t => beginIngredient recipe site items span t
  | .atAmount recipe site items, .word w =>
    some (.atBracket recipe site items (wordText w) span)
  | .atBracket recipe site items amount first, .closeBracket =>
    some (.atIngredientName recipe site items amount first)
  | .atIngredientName recipe site items amount first, .word w =>
    some (.afterIngredient recipe site (items ++ [(⟨wordText w, some amount⟩, first)]))
  | .afterIngredient recipe site items, .plus => some (.atIngredient recipe site items)
  | .afterIngredient recipe site items, t => goOn recipe (site.close items) t
  | .atAction recipe rule, .word w =>
    some (.afterDescription recipe rule (wordText w) span)
  | .atAction recipe rule, .join name =>
    some (.afterAction recipe (rule.push (.join ⟨String.ofList name, some span⟩)))
  | .atAction recipe rule, .done => some (.afterAction recipe (rule.push (.done span)))
  | .afterDescription recipe rule description first, .ampersand =>
    some (.atIngredient recipe (.seasoning rule description first) [])
  | .afterDescription recipe rule description first, t =>
    goOn recipe (rule.push (.step ⟨⟨description, []⟩, some first⟩)) t
  | .afterAction recipe rule, t => goOn recipe rule t
  | _, _ => none

/-- The situation after all the tokens, or the place of the first token
that could not stand where it stood. -/
def run : Situation → List Lexeme → Except Place Situation
  | s, [] => .ok s
  | s, l :: rest =>
    match s.next? l with
    | none => .error l.place
    | some s => run s rest

end Situation

-- ============================================================= reading

/-- The recipe that a source writes, or the place of the first offence:
of a token or character that cannot stand where it stands, or, if the
source ends too soon, of the last token. -/
def RecipeSource.read (source : List Char) : Except Place RecipeSource :=
  let scan := Scan.ofSource source
  match Situation.atName.run scan.lexemes with
  | .error place => .error place
  | .ok s =>
    match scan.stuck, s with
    | some place, _ => .error place
    | none, .closed recipe => .ok recipe
    | none, _ => .error ((scan.lexemes.getLast?.map (·.place)).getD Place.start)

end RecipeChart
