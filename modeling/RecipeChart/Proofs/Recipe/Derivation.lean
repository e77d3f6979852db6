/-
The grammar as relations between tokens and what they write, one relation
for each part of it:

    recipe:      WORD "{" rule* "}"
    rule:        (ingredients | JOIN) ("->" (step | JOIN | "<>"))* ";"
    ingredients: ingredient ("+" ingredient)*
    ingredient:  ("[" WORD "]")? WORD
    step:        WORD ("&" ingredients)?

Lists grow at their end, as they do while they are read. The machine of
the grammar accepts a list of tokens with a recipe exactly when the list
writes the recipe. That it accepts what is written goes by induction on
the derivation. That it accepts nothing else rests on what a situation
says of the tokens before it (`Situation.Follows`): each token that can
stand in a situation carries that over to the next situation.
-/
import RecipeChart.Recipe.Grammar
import RecipeChart.Proofs.Traversal

namespace RecipeChart

-- ========================================================== ingredients

/-- The tokens write the ingredient, its first word at the span. -/
inductive WritesIngredient : List Lexeme → Ingredient String × Span → Prop where
  | bare (w : List Char) (p : Place) :
      WritesIngredient [⟨.word w, p⟩] (⟨wordText w, none⟩, p.span)
  | measured (a w : List Char) (before p behind q : Place) :
      WritesIngredient [⟨.openBracket, before⟩, ⟨.word a, p⟩, ⟨.closeBracket, behind⟩, ⟨.word w, q⟩]
        (⟨wordText w, some (wordText a)⟩, p.span)

/-- The tokens write the ingredients one after another. -/
inductive WritesItems : List Lexeme → Items → Prop where
  | one {ls : List Lexeme} {i : Ingredient String × Span} :
      WritesIngredient ls i → WritesItems ls [i]
  | more {ls ls' : List Lexeme} {items : Items} {i : Ingredient String × Span} (p : Place) :
      WritesItems ls items → WritesIngredient ls' i →
      WritesItems (ls ++ ⟨.plus, p⟩ :: ls') (items ++ [i])

-- ================================================================ rules

/-- The tokens write what a rule sets out from. -/
inductive WritesStart : List Lexeme → Start String → Prop where
  | group {ls : List Lexeme} {items : Items} :
      WritesItems ls items → WritesStart ls (.group items.group)
  | join (name : List Char) (p : Place) :
      WritesStart [⟨.join name, p⟩] (.join ⟨String.ofList name, some p.span⟩)

/-- The tokens write what follows an arrow. -/
inductive WritesAction : List Lexeme → RuleAction String → Prop where
  | step (w : List Char) (p : Place) :
      WritesAction [⟨.word w, p⟩] (.step ⟨⟨wordText w, []⟩, some p.span⟩)
  | seasoned {ls : List Lexeme} {items : Items} (w : List Char) (p q : Place) :
      WritesItems ls items →
      WritesAction (⟨.word w, p⟩ :: ⟨.ampersand, q⟩ :: ls)
        (.step ⟨⟨wordText w, items.group.ingredients⟩, some p.span⟩)
  | join (name : List Char) (p : Place) :
      WritesAction [⟨.join name, p⟩] (.join ⟨String.ofList name, some p.span⟩)
  | done (p : Place) : WritesAction [⟨.done, p⟩] (.done p.span)

/-- The tokens write the rule, short of its semicolon. -/
inductive WritesRule : List Lexeme → Rule String → Prop where
  | start {ls : List Lexeme} {s : Start String} : WritesStart ls s → WritesRule ls ⟨s, []⟩
  | action {ls ls' : List Lexeme} {rule : Rule String} {a : RuleAction String} (p : Place) :
      WritesRule ls rule → WritesAction ls' a →
      WritesRule (ls ++ ⟨.arrow, p⟩ :: ls') (rule.push a)

-- ============================================================== recipes

/-- The tokens write the recipe, short of its closing brace. -/
inductive WritesRules : List Lexeme → RecipeSource → Prop where
  | name (w : List Char) (p q : Place) :
      WritesRules [⟨.word w, p⟩, ⟨.openBrace, q⟩] ⟨wordText w, []⟩
  | rule {ls ls' : List Lexeme} {recipe : RecipeSource} {rule : Rule String} (p : Place) :
      WritesRules ls recipe → WritesRule ls' rule →
      WritesRules (ls ++ (ls' ++ [⟨.semicolon, p⟩])) (recipe.push rule)

/-- The tokens write the recipe. -/
inductive WritesRecipe : List Lexeme → RecipeSource → Prop where
  | close {ls : List Lexeme} {recipe : RecipeSource} (p : Place) :
      WritesRules ls recipe → WritesRecipe (ls ++ [⟨.closeBrace, p⟩]) recipe

-- ================================================= what is written is read

namespace Situation

/-- In such a situation an arrow or a semicolon ends what was read as
the last part of the rule. -/
def Completes (recipe : RecipeSource) (rule : Rule String) (s : Situation) : Prop :=
  ∀ l : Lexeme, l.token = .arrow ∨ l.token = .semicolon → s.next? l = goOn recipe rule l.token

/-- Behind an ingredient the rule may end in the items so far. -/
theorem completes_afterIngredient (recipe : RecipeSource) (site : Site) (items : Items) :
    Completes recipe (site.close items) (.afterIngredient recipe site items) := by
  rintro ⟨t, p⟩ (rfl | rfl) <;> rfl

/-- Behind a description the rule may end in a step without seasonings. -/
theorem completes_afterDescription (recipe : RecipeSource) (rule : Rule String)
    (description : String) (span : Span) :
    Completes recipe (rule.push (.step ⟨⟨description, []⟩, some span⟩))
      (.afterDescription recipe rule description span) := by
  rintro ⟨t, p⟩ (rfl | rfl) <;> rfl

/-- Behind an action the rule may end. -/
theorem completes_afterAction (recipe : RecipeSource) (rule : Rule String) :
    Completes recipe rule (.afterAction recipe rule) := by
  rintro ⟨t, p⟩ (rfl | rfl) <;> rfl

/-- A token that can stand where it stands is read. -/
theorem run_cons {s s' : Situation} {l : Lexeme} (h : s.next? l = some s') (rest : List Lexeme) :
    s.run (l :: rest) = s'.run rest := by
  rw [run, h]

/-- An arrow goes on to the next action of a rule that might have ended. -/
theorem Completes.run_arrow {recipe : RecipeSource} {rule : Rule String} {s : Situation}
    (h : Completes recipe rule s) (p : Place) (rest : List Lexeme) :
    s.run (⟨.arrow, p⟩ :: rest) = (atAction recipe rule).run rest :=
  run_cons (h ⟨.arrow, p⟩ (.inl rfl)) rest

/-- A semicolon ends a rule that might end. -/
theorem Completes.run_semicolon {recipe : RecipeSource} {rule : Rule String} {s : Situation}
    (h : Completes recipe rule s) (p : Place) (rest : List Lexeme) :
    s.run (⟨.semicolon, p⟩ :: rest) = (atRule (recipe.push rule)).run rest :=
  run_cons (h ⟨.semicolon, p⟩ (.inr rfl)) rest

end Situation

open Situation

/-- An ingredient is read where an ingredient comes next. -/
theorem WritesIngredient.run_eq {ls : List Lexeme} {i : Ingredient String × Span}
    (h : WritesIngredient ls i) (recipe : RecipeSource) (site : Site) (items : Items)
    (rest : List Lexeme) :
    (atIngredient recipe site items).run (ls ++ rest)
      = (afterIngredient recipe site (items ++ [i])).run rest := by
  cases h with
  | bare w p => rfl
  | measured a w before p behind q => rfl

/-- The tokens of items lead behind the last of them. -/
theorem WritesItems.run_eq {ls : List Lexeme} {items : Items} (h : WritesItems ls items)
    (recipe : RecipeSource) (site : Site) (rest : List Lexeme) :
    (atIngredient recipe site []).run (ls ++ rest)
      = (afterIngredient recipe site items).run rest := by
  induction h generalizing rest with
  | one hi => exact hi.run_eq recipe site [] rest
  | @more ls ls' items i p _ hi ih =>
      rw [List.append_assoc, ih, List.cons_append, run_cons rfl, hi.run_eq]

/-- Where a rule comes next its first ingredient may come. -/
theorem WritesItems.run_atRule {ls : List Lexeme} {items : Items} (h : WritesItems ls items)
    (recipe : RecipeSource) (rest : List Lexeme) :
    (atRule recipe).run (ls ++ rest) = (atIngredient recipe .start []).run (ls ++ rest) := by
  induction h generalizing rest with
  | one hi =>
      cases hi with
      | bare w p => rfl
      | measured a w before p behind q => rfl
  | more p _ _ ih => rw [List.append_assoc, ih]

/-- A start is read where a rule comes next. -/
theorem WritesStart.run_eq {ls : List Lexeme} {start : Start String} (h : WritesStart ls start)
    (recipe : RecipeSource) :
    ∃ s, Completes recipe ⟨start, []⟩ s
      ∧ ∀ rest, (atRule recipe).run (ls ++ rest) = s.run rest := by
  cases h with
  | @group _ items hitems =>
      refine ⟨_, completes_afterIngredient recipe .start items, fun rest => ?_⟩
      rw [hitems.run_atRule, hitems.run_eq]
  | join name p => exact ⟨_, completes_afterAction recipe _, fun rest => rfl⟩

/-- The tokens of an action lead to where the rule might end in it. -/
theorem WritesAction.run_eq {ls : List Lexeme} {a : RuleAction String} (h : WritesAction ls a)
    (recipe : RecipeSource) (rule : Rule String) :
    ∃ s, Completes recipe (rule.push a) s
      ∧ ∀ rest, (atAction recipe rule).run (ls ++ rest) = s.run rest := by
  cases h with
  | step w p => exact ⟨_, completes_afterDescription recipe rule _ _, fun rest => rfl⟩
  | @seasoned ls items w p q hitems =>
      refine ⟨_, completes_afterIngredient recipe (.seasoning rule (wordText w) p.span) items,
        fun rest => ?_⟩
      rw [← hitems.run_eq]
      rfl
  | join name p => exact ⟨_, completes_afterAction recipe _, fun rest => rfl⟩
  | done p => exact ⟨_, completes_afterAction recipe _, fun rest => rfl⟩

/-- The tokens of a rule lead to where it might end. -/
theorem WritesRule.run_eq {ls : List Lexeme} {rule : Rule String} (h : WritesRule ls rule)
    (recipe : RecipeSource) :
    ∃ s, Completes recipe rule s ∧ ∀ rest, (atRule recipe).run (ls ++ rest) = s.run rest := by
  induction h with
  | start hstart => exact hstart.run_eq recipe
  | @action ls ls' rule a p _ ha ih =>
      obtain ⟨s, hs, hrun⟩ := ih
      obtain ⟨s', hs', hrun'⟩ := ha.run_eq recipe rule
      refine ⟨s', hs', fun rest => ?_⟩
      rw [List.append_assoc, hrun, List.cons_append, hs.run_arrow, hrun']

/-- A name and rules are read from the start on. -/
theorem WritesRules.run_eq {ls : List Lexeme} {recipe : RecipeSource} (h : WritesRules ls recipe)
    (rest : List Lexeme) : atName.run (ls ++ rest) = (atRule recipe).run rest := by
  induction h generalizing rest with
  | name w p q => rfl
  | @rule ls ls' recipe rule p _ hrule ih =>
      obtain ⟨s, hs, hrun⟩ := hrule.run_eq recipe
      rw [List.append_assoc, ih, List.append_assoc, hrun, List.singleton_append, hs.run_semicolon]

/-- A recipe is read from the start to its end. -/
theorem WritesRecipe.run_eq {ls : List Lexeme} {recipe : RecipeSource}
    (h : WritesRecipe ls recipe) : atName.run ls = .ok (.closed recipe) := by
  cases h with
  | close p hrules =>
      rw [hrules.run_eq]
      rfl

-- ================================================= what is read is written

/-- The tokens of a rule that stand before its ingredients. -/
inductive WritesSite : List Lexeme → Site → Prop where
  | start : WritesSite [] .start
  | seasoning {ls : List Lexeme} {rule : Rule String} (w : List Char) (arrow p q : Place) :
      WritesRule ls rule →
      WritesSite (ls ++ [⟨.arrow, arrow⟩, ⟨.word w, p⟩, ⟨.ampersand, q⟩])
        (.seasoning rule (wordText w) p.span)

/-- The tokens of ingredients that stand before one more. -/
inductive WritesEarlier : List Lexeme → Items → Prop where
  | none : WritesEarlier [] []
  | some {ls : List Lexeme} {items : Items} (p : Place) :
      WritesItems ls items → WritesEarlier (ls ++ [⟨.plus, p⟩]) items

/-- One more ingredient is written behind those before it. -/
theorem WritesEarlier.items {ls ls' : List Lexeme} {items : Items} {i : Ingredient String × Span}
    (h : WritesEarlier ls items) (hi : WritesIngredient ls' i) :
    WritesItems (ls ++ ls') (items ++ [i]) := by
  cases h with
  | none => exact .one hi
  | some p hitems =>
      rw [List.append_assoc]
      exact .more p hitems hi

/-- With its ingredients the rule is complete. -/
theorem WritesSite.rule {ls ls' : List Lexeme} {site : Site} {items : Items}
    (h : WritesSite ls site) (hitems : WritesItems ls' items) :
    WritesRule (ls ++ ls') (site.close items) := by
  cases h with
  | start => exact .start (.group hitems)
  | seasoning w arrow p q hrule =>
      rw [List.append_assoc]
      exact .action arrow hrule (.seasoned w p q hitems)

namespace Situation

/-- What a situation says of the tokens that led to it. -/
def Follows (ls : List Lexeme) : Situation → Prop
  | .atName => ls = []
  | .atBrace name => ∃ w p, ls = [⟨.word w, p⟩] ∧ name = wordText w
  | .atRule recipe => WritesRules ls recipe
  | .atIngredient recipe site items =>
    ∃ rules before earlier, ls = rules ++ (before ++ earlier)
      ∧ WritesRules rules recipe ∧ WritesSite before site ∧ WritesEarlier earlier items
  | .atAmount recipe site items =>
    ∃ rules before earlier p, ls = rules ++ (before ++ (earlier ++ [⟨.openBracket, p⟩]))
      ∧ WritesRules rules recipe ∧ WritesSite before site ∧ WritesEarlier earlier items
  | .atBracket recipe site items amount span =>
    ∃ rules before earlier p a q,
      ls = rules ++ (before ++ (earlier ++ [⟨.openBracket, p⟩, ⟨.word a, q⟩]))
      ∧ WritesRules rules recipe ∧ WritesSite before site ∧ WritesEarlier earlier items
      ∧ amount = wordText a ∧ span = q.span
  | .atIngredientName recipe site items amount span =>
    ∃ rules before earlier p a q p',
      ls = rules ++ (before ++ (earlier ++ [⟨.openBracket, p⟩, ⟨.word a, q⟩, ⟨.closeBracket, p'⟩]))
      ∧ WritesRules rules recipe ∧ WritesSite before site ∧ WritesEarlier earlier items
      ∧ amount = wordText a ∧ span = q.span
  | .afterIngredient recipe site items =>
    ∃ rules before list, ls = rules ++ (before ++ list)
      ∧ WritesRules rules recipe ∧ WritesSite before site ∧ WritesItems list items
  | .atAction recipe rule =>
    ∃ rules before p, ls = rules ++ (before ++ [⟨.arrow, p⟩])
      ∧ WritesRules rules recipe ∧ WritesRule before rule
  | .afterDescription recipe rule description span =>
    ∃ rules before p w q, ls = rules ++ (before ++ [⟨.arrow, p⟩, ⟨.word w, q⟩])
      ∧ WritesRules rules recipe ∧ WritesRule before rule
      ∧ description = wordText w ∧ span = q.span
  | .afterAction recipe rule =>
    ∃ rules before, ls = rules ++ before ∧ WritesRules rules recipe ∧ WritesRule before rule
  | .closed recipe => WritesRecipe ls recipe

/-- An arrow or a semicolon carries a finished rule over. -/
theorem follows_of_goOn {rules before : List Lexeme} {recipe : RecipeSource} {rule : Rule String}
    {l : Lexeme} {s : Situation} (hrules : WritesRules rules recipe)
    (hrule : WritesRule before rule) (h : goOn recipe rule l.token = some s) :
    s.Follows (rules ++ (before ++ [l])) := by
  obtain ⟨t, p⟩ := l
  cases t
  case arrow =>
    cases h
    exact ⟨rules, before, p, rfl, hrules, hrule⟩
  case semicolon =>
    cases h
    exact .rule p hrules hrule
  all_goals cases h

/-- The first token of an ingredient carries over what stood before. -/
theorem follows_of_beginIngredient {rules before earlier : List Lexeme} {recipe : RecipeSource}
    {site : Site} {items : Items} {l : Lexeme} {s : Situation} (hrules : WritesRules rules recipe)
    (hsite : WritesSite before site) (hearlier : WritesEarlier earlier items)
    (h : beginIngredient recipe site items l.place.span l.token = some s) :
    s.Follows (rules ++ (before ++ (earlier ++ [l]))) := by
  obtain ⟨t, p⟩ := l
  cases t
  case openBracket =>
    cases h
    exact ⟨rules, before, earlier, p, rfl, hrules, hsite, hearlier⟩
  case word w =>
    cases h
    exact ⟨rules, before, earlier ++ [⟨.word w, p⟩], rfl, hrules, hsite,
      hearlier.items (.bare w p)⟩
  all_goals cases h

/-- What a situation says of the tokens before it carries over to the
next situation. -/
theorem Follows.next {ls : List Lexeme} {s s' : Situation} {l : Lexeme} (h : s.Follows ls)
    (hnext : s.next? l = some s') : s'.Follows (ls ++ [l]) := by
  -- Situation by situation: a token that can stand there adds to what was read or goes on
  -- to the next part, and any other token leads nowhere.
  cases s with
  | atName =>
      cases h
      obtain ⟨t, p⟩ := l
      cases t
      case word w =>
        cases hnext
        exact ⟨w, p, rfl, rfl⟩
      all_goals cases hnext
  | atBrace name =>
      obtain ⟨w, p, rfl, rfl⟩ := h
      obtain ⟨t, q⟩ := l
      cases t
      case openBrace =>
        cases hnext
        exact .name w p q
      all_goals cases hnext
  | atRule recipe =>
      obtain ⟨t, p⟩ := l
      cases t
      case closeBrace =>
        cases hnext
        exact .close p h
      case join name =>
        cases hnext
        exact ⟨ls, [⟨.join name, p⟩], rfl, h, .start (.join name p)⟩
      all_goals exact follows_of_beginIngredient h .start .none hnext
  | atIngredient recipe site items =>
      obtain ⟨rules, before, earlier, rfl, hrules, hsite, hearlier⟩ := h
      rw [List.append_assoc, List.append_assoc]
      exact follows_of_beginIngredient hrules hsite hearlier hnext
  | atAmount recipe site items =>
      obtain ⟨rules, before, earlier, p, rfl, hrules, hsite, hearlier⟩ := h
      obtain ⟨t, q⟩ := l
      cases t
      case word a =>
        cases hnext
        refine ⟨rules, before, earlier, p, a, q, ?_, hrules, hsite, hearlier, rfl, rfl⟩
        simp only [List.append_assoc, List.cons_append, List.nil_append]
      all_goals cases hnext
  | atBracket recipe site items amount span =>
      obtain ⟨rules, before, earlier, p, a, q, rfl, hrules, hsite, hearlier, rfl, rfl⟩ := h
      obtain ⟨t, p'⟩ := l
      cases t
      case closeBracket =>
        cases hnext
        refine ⟨rules, before, earlier, p, a, q, p', ?_, hrules, hsite, hearlier, rfl, rfl⟩
        simp only [List.append_assoc, List.cons_append, List.nil_append]
      all_goals cases hnext
  | atIngredientName recipe site items amount span =>
      obtain ⟨rules, before, earlier, p, a, q, p', rfl, hrules, hsite, hearlier, rfl, rfl⟩ := h
      obtain ⟨t, q'⟩ := l
      cases t
      case word w =>
        cases hnext
        refine ⟨rules, before, _, ?_, hrules, hsite, hearlier.items (.measured a w p q p' q')⟩
        simp only [List.append_assoc, List.cons_append, List.nil_append]
      all_goals cases hnext
  -- From here on the rule may be over, so another token may also end it
  -- (`follows_of_goOn`).
  | afterIngredient recipe site items =>
      obtain ⟨rules, before, list, rfl, hrules, hsite, hitems⟩ := h
      have hrule := hsite.rule hitems
      rw [List.append_assoc]
      obtain ⟨t, p⟩ := l
      cases t
      case plus =>
        cases hnext
        refine ⟨rules, before, list ++ [⟨.plus, p⟩], ?_, hrules, hsite, .some p hitems⟩
        rw [List.append_assoc]
      all_goals exact follows_of_goOn hrules hrule hnext
  | atAction recipe rule =>
      obtain ⟨rules, before, p, rfl, hrules, hrule⟩ := h
      rw [List.append_assoc, List.append_assoc, List.singleton_append]
      obtain ⟨t, q⟩ := l
      cases t
      case word w =>
        cases hnext
        exact ⟨rules, before, p, w, q, rfl, hrules, hrule, rfl, rfl⟩
      case join name =>
        cases hnext
        exact ⟨rules, _, rfl, hrules, .action p hrule (.join name q)⟩
      case done =>
        cases hnext
        exact ⟨rules, _, rfl, hrules, .action p hrule (.done q)⟩
      all_goals cases hnext
  | afterDescription recipe rule description span =>
      obtain ⟨rules, before, p, w, q, rfl, hrules, hrule, rfl, rfl⟩ := h
      rw [List.append_assoc]
      obtain ⟨t, q'⟩ := l
      cases t
      case ampersand =>
        cases hnext
        refine ⟨rules, _, [], ?_, hrules, .seasoning w p q q' hrule, .none⟩
        simp only [List.append_assoc, List.cons_append, List.nil_append, List.append_nil]
      all_goals exact follows_of_goOn hrules (.action p hrule (.step w q)) hnext
  | afterAction recipe rule =>
      obtain ⟨rules, before, rfl, hrules, hrule⟩ := h
      rw [List.append_assoc]
      obtain ⟨t, p⟩ := l
      cases t
      all_goals exact follows_of_goOn hrules hrule hnext
  | closed recipe =>
      obtain ⟨t, p⟩ := l
      cases t
      all_goals cases hnext

/-- So it carries over a run. -/
theorem Follows.run {ls ls' : List Lexeme} {s s' : Situation} (h : s.Follows ls)
    (hrun : s.run ls' = .ok s') : s'.Follows (ls ++ ls') := by
  induction ls' generalizing ls s with
  | nil =>
      cases hrun
      rw [List.append_nil]
      exact h
  | cons l ls' ih =>
      rw [Situation.run] at hrun
      split at hrun
      · cases hrun
      · rename_i next hnext
        have hls := ih (h.next hnext) hrun
        rwa [List.append_assoc] at hls

/-- The machine reads a recipe exactly from the tokens that write it. -/
theorem run_eq_ok_closed_iff {ls : List Lexeme} {recipe : RecipeSource} :
    atName.run ls = .ok (.closed recipe) ↔ WritesRecipe ls recipe := by
  constructor
  · intro hrun
    have h : Follows [] atName := rfl
    exact h.run hrun
  · exact WritesRecipe.run_eq

end Situation

/-- A source is read as a recipe exactly when it can be scanned to its
end and its tokens write the recipe. -/
theorem RecipeSource.read_eq_ok_iff {source : List Char} {recipe : RecipeSource} :
    RecipeSource.read source = .ok recipe
      ↔ (Scan.ofSource source).stuck = none
        ∧ WritesRecipe (Scan.ofSource source).lexemes recipe := by
  rw [← Situation.run_eq_ok_closed_iff]
  unfold RecipeSource.read
  cases hrun : Situation.atName.run (Scan.ofSource source).lexemes with
  | error place =>
      simp only [hrun]
      exact ⟨fun h => (nomatch h), fun h => (nomatch h.2)⟩
  | ok s =>
      simp only [hrun, Except.ok.injEq]
      cases hstuck : (Scan.ofSource source).stuck with
      | some place => exact ⟨fun h => (nomatch h), fun h => (nomatch h.1)⟩
      | none =>
          cases s
          case closed found => simp
          all_goals simp

end RecipeChart
