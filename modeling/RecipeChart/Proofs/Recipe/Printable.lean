/-
Recipes that can be printed and read back. A printed recipe says nothing
of how its texts were told apart, so the texts must be such that the
notation does: words that are plain, names of joins that are names, and
no ingredient twice in one list, as a list that is read has its repeats
dropped. A group must not be empty, and a join that stands last in a
printed rule is read as its finish, so it must be one.

Every recipe that a source writes is like that. Its words come from
tokens, whose spellings are trimmed, and its fragments from rules, whose
last join is their finish.
-/
import RecipeChart.Proofs.Recipe.Derivation
import RecipeChart.Proofs.Recipe.Scanning
import RecipeChart.Proofs.Repeats

namespace RecipeChart

-- ========================================================== what is meant

/-- The texts of the ingredient are plain. -/
structure Ingredient.Printable (i : Ingredient String) : Prop where
  name : isPlain i.name.toList = true
  amount : ∀ text ∈ i.amount, isPlain text.toList = true

/-- No ingredient stands twice in the list. -/
structure IngredientsPrintable (items : List (Ingredient String)) : Prop where
  nodup : items.Nodup
  each : ∀ i ∈ items, i.Printable

structure Action.Printable (a : Action String) : Prop where
  description : isPlain a.description.toList = true
  seasonings : IngredientsPrintable a.seasonings

structure Group.Printable (g : Group String) : Prop where
  nonempty : g.ingredients ≠ []
  ingredients : IngredientsPrintable g.ingredients

def JoinRef.Printable (r : JoinRef String) : Prop := isJoinName r.name.toList = true

def Start.Printable : Start String → Prop
  | .group g => g.Printable
  | .join r => r.Printable

def Element.Printable : Element String → Prop
  | .step s => s.action.Printable
  | .join r => r.Printable

def Finish.Printable : Finish String → Prop
  | .join r => r.Printable
  | .done _ => True

/-- A join that stands last is the finish. -/
structure Fragment.Printable (f : Fragment String) : Prop where
  start : f.start.Printable
  body : ∀ e ∈ f.body, e.Printable
  finish : ∀ e ∈ f.finish, e.Printable
  closed : f.finish = none → ∀ e ∈ f.body.getLast?, e.isJoin = false

/-- The recipe can be printed and read back. -/
structure Recipe.Printable (r : Recipe String) : Prop where
  name : isPlain r.name.toList = true
  fragments : ∀ f ∈ r.fragments, f.Printable

/-- No group of a printable recipe is empty. -/
theorem Recipe.Printable.ingredients_ne_nil {r : Recipe String} (h : r.Printable) :
    ∀ f ∈ r.fragments, ∀ group, f.start = .group group → group.ingredients ≠ [] := by
  intro f hf group hstart
  have hgood := (h.fragments f hf).start
  rw [hstart] at hgood
  exact hgood.nonempty

def RuleAction.Printable : RuleAction String → Prop
  | .step s => s.action.Printable
  | .join r => r.Printable
  | .done _ => True

structure Rule.Printable (r : Rule String) : Prop where
  start : r.start.Printable
  actions : ∀ a ∈ r.actions, a.Printable

structure RecipeSource.Printable (r : RecipeSource) : Prop where
  name : isPlain r.name.toList = true
  rules : ∀ rule ∈ r.rules, rule.Printable

-- ============================================================ splitting

/-- The actions fall into a body and a finish. -/
inductive RuleAction.Splits {α : Type} :
    List (RuleAction α) → List (Element α) → Option (Finish α) → Prop where
  | nil : Splits [] [] none
  | join (r : JoinRef α) : Splits [.join r] [] (some (.join r))
  | done (span : Span) : Splits [.done span] [] (some (.done (some span)))
  | step {rest : List (RuleAction α)} {body : List (Element α)} {finish : Option (Finish α)}
      (s : Step α) : Splits rest body finish → Splits (.step s :: rest) (.step s :: body) finish
  | through {rest : List (RuleAction α)} {body : List (Element α)} {finish : Option (Finish α)}
      (r : JoinRef α) : rest ≠ [] → Splits rest body finish →
      Splits (.join r :: rest) (.join r :: body) finish

/-- Splitting succeeds with the parts that the actions fall into. -/
theorem RuleAction.split_eq_ok_iff {α : Type} {actions : List (RuleAction α)}
    {body : List (Element α)} {finish : Option (Finish α)} :
    RuleAction.split actions = .ok (body, finish) ↔ Splits actions body finish := by
  constructor
  · intro h
    -- The cases of the splitting are the rules of `Splits`, less those that fail.
    induction actions using RuleAction.split.induct generalizing body finish with
    | case1 =>
        cases h
        exact .nil
    | case2 r =>
        cases h
        exact .join r
    | case3 span =>
        cases h
        exact .done span
    | case4 span rest hrest =>
        rw [split] at h
        · cases h
        · exact hrest
    | case5 s rest ih =>
        rw [split, bind_eq_ok_iff] at h
        obtain ⟨⟨body, finish⟩, hrest, h⟩ := h
        cases h
        exact .step s (ih hrest)
    | case6 r rest hrest ih =>
        rw [split, bind_eq_ok_iff] at h
        · obtain ⟨⟨body, finish⟩, hsplit, h⟩ := h
          cases h
          exact .through r hrest (ih hsplit)
        · exact hrest
  · intro h
    induction h with
    | nil => rfl
    | join r => rfl
    | done span => rfl
    | step s _ ih =>
        rw [split, ih]
        rfl
    | through r hne _ ih =>
        rw [split, ih]
        · rfl
        · exact hne

/-- A rule writes the fragment that has its start and the parts of its
actions. -/
theorem Rule.fragment?_eq_ok_iff {α : Type} {r : Rule α} {f : Fragment α} :
    r.fragment? = .ok f ↔ r.start = f.start ∧ RuleAction.Splits r.actions f.body f.finish := by
  rw [Rule.fragment?, bind_eq_ok_iff]
  constructor
  · intro hsafe
    obtain ⟨⟨body, finish⟩, hsplit, h⟩ := hsafe
    cases h
    exact ⟨rfl, RuleAction.split_eq_ok_iff.1 hsplit⟩
  · intro hsafe
    obtain ⟨hstart, hsplits⟩ := hsafe
    refine ⟨(f.body, f.finish), RuleAction.split_eq_ok_iff.2 hsplits, ?_⟩
    rw [hstart]
    rfl

namespace RuleAction.Splits

variable {α : Type} {actions : List (RuleAction α)} {body : List (Element α)}
  {finish : Option (Finish α)}

/-- Actions that are split leave something, in the body or at the end. -/
theorem ne_nil (h : Splits actions body finish) (hne : actions ≠ []) :
    body ≠ [] ∨ finish ≠ none := by
  cases h with
  | nil => exact absurd rfl hne
  | join r => exact .inr (Option.some_ne_none _)
  | done span => exact .inr (Option.some_ne_none _)
  | step s _ => exact .inl (List.cons_ne_nil _ _)
  | through r _ _ => exact .inl (List.cons_ne_nil _ _)

/-- A join that stands last is the finish. -/
theorem closed (h : Splits actions body finish) (hfinish : finish = none) :
    ∀ e ∈ body.getLast?, e.isJoin = false := by
  induction h with
  | nil => exact fun e he => (nomatch he)
  | join r => cases hfinish
  | done span => cases hfinish
  | @step rest body finish s _ ih =>
      cases body with
      | nil =>
          intro e he
          cases he
          rfl
      | cons e' body => exact ih hfinish
  | @through rest body finish r hne h ih =>
      cases body with
      | nil => exact absurd hfinish ((h.ne_nil hne).resolve_left fun hnil => hnil rfl)
      | cons e' body => exact ih hfinish

end RuleAction.Splits

/-- The two parts of printable actions are printable. -/
theorem RuleAction.Splits.printable {actions : List (RuleAction String)}
    {body : List (Element String)} {finish : Option (Finish String)}
    (h : Splits actions body finish) (hactions : ∀ a ∈ actions, a.Printable) :
    (∀ e ∈ body, e.Printable) ∧ ∀ e ∈ finish, e.Printable := by
  induction h with
  | nil => exact ⟨fun e he => absurd he List.not_mem_nil, fun e he => (nomatch he)⟩
  | join r =>
      refine ⟨fun e he => absurd he List.not_mem_nil, fun e he => ?_⟩
      cases he
      exact hactions _ List.mem_cons_self
  | done span =>
      refine ⟨fun e he => absurd he List.not_mem_nil, fun e he => ?_⟩
      cases he
      trivial
  | step s _ ih =>
      rw [List.forall_mem_cons] at hactions
      obtain ⟨hbody, hfinish⟩ := ih hactions.2
      exact ⟨List.forall_mem_cons.2 ⟨hactions.1, hbody⟩, hfinish⟩
  | through r _ _ ih =>
      rw [List.forall_mem_cons] at hactions
      obtain ⟨hbody, hfinish⟩ := ih hactions.2
      exact ⟨List.forall_mem_cons.2 ⟨hactions.1, hbody⟩, hfinish⟩

/-- A printable rule becomes a printable fragment. -/
theorem Rule.Printable.fragment {r : Rule String} {f : Fragment String} (h : r.Printable)
    (hf : r.fragment? = .ok f) : f.Printable := by
  obtain ⟨hstart, hsplits⟩ := Rule.fragment?_eq_ok_iff.1 hf
  obtain ⟨hbody, hfinish⟩ := hsplits.printable h.actions
  exact ⟨hstart ▸ h.start, hbody, hfinish, hsplits.closed⟩

-- ====================================================== what is written

/-- All spellings among the tokens can be scanned. -/
def AllProper (ls : List Lexeme) : Prop := ∀ l ∈ ls, l.token.isProper = true

theorem AllProper.left {ls ls' : List Lexeme} (h : AllProper (ls ++ ls')) : AllProper ls :=
  fun l hl => h l (List.mem_append_left ls' hl)

theorem AllProper.right {ls ls' : List Lexeme} (h : AllProper (ls ++ ls')) : AllProper ls' :=
  fun l hl => h l (List.mem_append_right ls hl)

theorem AllProper.tail {l : Lexeme} {ls : List Lexeme} (h : AllProper (l :: ls)) : AllProper ls :=
  fun l' hl => h l' (List.mem_cons_of_mem l hl)

/-- The text of a word is plain. -/
theorem AllProper.isPlain {w : List Char} {p : Place} {ls : List Lexeme} (h : AllProper ls)
    (hw : ⟨.word w, p⟩ ∈ ls) : isPlain (wordText w).toList = true := by
  rw [wordText, String.toList_ofList]
  exact isPlain_trim (h _ hw)

/-- A proper join token holds the name of a join. -/
theorem AllProper.isJoinName {name : List Char} {p : Place} {ls : List Lexeme} (h : AllProper ls)
    (hname : ⟨.join name, p⟩ ∈ ls) : isJoinName (String.ofList name).toList = true := by
  rw [String.toList_ofList]
  exact h _ hname

/-- Proper tokens write an ingredient that can be printed. -/
theorem WritesIngredient.printable {ls : List Lexeme} {i : Ingredient String × Span}
    (h : WritesIngredient ls i) (hls : AllProper ls) : i.1.Printable := by
  cases h with
  | bare w p => exact ⟨hls.isPlain List.mem_cons_self, fun text htext => (nomatch htext)⟩
  | measured a w before p behind q =>
      refine ⟨hls.tail.tail.tail.isPlain List.mem_cons_self, fun text htext => ?_⟩
      cases htext
      exact hls.tail.isPlain List.mem_cons_self

/-- Proper tokens write ingredients that can be printed. -/
theorem WritesItems.printable {ls : List Lexeme} {items : Items} (h : WritesItems ls items)
    (hls : AllProper ls) : ∀ i ∈ items, i.1.Printable := by
  induction h with
  | one hi =>
      intro i hmem
      rw [List.mem_singleton.1 hmem]
      exact hi.printable hls
  | more p _ hi ih =>
      intro i hmem
      rcases List.mem_append.1 hmem with hmem | hmem
      · exact ih hls.left i hmem
      · rw [List.mem_singleton.1 hmem]
        exact hi.printable hls.right.tail

/-- Tokens that write ingredients write one at least. -/
theorem WritesItems.ne_nil {ls : List Lexeme} {items : Items} (h : WritesItems ls items) :
    items ≠ [] := by
  cases h with
  | one _ => exact List.cons_ne_nil _ _
  | more p _ _ => exact List.append_ne_nil_of_right_ne_nil _ (List.cons_ne_nil _ _)

/-- The group of ingredients that are written is printable. -/
theorem WritesItems.group_printable {ls : List Lexeme} {items : Items} (h : WritesItems ls items)
    (hls : AllProper ls) : items.group.Printable := by
  constructor
  · cases items with
    | nil => exact absurd rfl h.ne_nil
    | cons i items =>
        rw [Items.group, List.map_cons, unique_cons]
        exact List.cons_ne_nil _ _
  · refine ⟨nodup_unique _, fun i hi => ?_⟩
    obtain ⟨item, hitem, rfl⟩ := List.mem_map.1 (mem_unique.1 hi)
    exact h.printable hls item hitem

/-- Proper tokens write a start that can be printed. -/
theorem WritesStart.printable {ls : List Lexeme} {s : Start String} (h : WritesStart ls s)
    (hls : AllProper ls) : s.Printable := by
  cases h with
  | group hitems => exact hitems.group_printable hls
  | join name p => exact hls.isJoinName List.mem_cons_self

/-- Proper tokens write an action that can be printed. -/
theorem WritesAction.printable {ls : List Lexeme} {a : RuleAction String} (h : WritesAction ls a)
    (hls : AllProper ls) : a.Printable := by
  cases h with
  | step w p =>
      exact ⟨hls.isPlain List.mem_cons_self, List.nodup_nil, fun i hi => absurd hi List.not_mem_nil⟩
  | seasoned w p q hitems =>
      exact ⟨hls.isPlain List.mem_cons_self, (hitems.group_printable hls.tail.tail).ingredients⟩
  | join name p => exact hls.isJoinName List.mem_cons_self
  | done p => trivial

/-- Proper tokens write a rule that can be printed. -/
theorem WritesRule.printable {ls : List Lexeme} {r : Rule String} (h : WritesRule ls r)
    (hls : AllProper ls) : r.Printable := by
  induction h with
  | start hstart => exact ⟨hstart.printable hls, fun a ha => absurd ha List.not_mem_nil⟩
  | action p _ ha ih =>
      obtain ⟨hstart, hactions⟩ := ih hls.left
      refine ⟨hstart, fun a hmem => ?_⟩
      rcases List.mem_append.1 hmem with hmem | hmem
      · exact hactions a hmem
      · rw [List.mem_singleton.1 hmem]
        exact ha.printable hls.right.tail

/-- Proper tokens write rules that can be printed. -/
theorem WritesRules.printable {ls : List Lexeme} {r : RecipeSource} (h : WritesRules ls r)
    (hls : AllProper ls) : r.Printable := by
  induction h with
  | name w p q =>
      exact ⟨hls.isPlain List.mem_cons_self, fun rule hrule => absurd hrule List.not_mem_nil⟩
  | rule p _ hrule ih =>
      obtain ⟨hname, hrules⟩ := ih hls.left
      refine ⟨hname, fun rule hmem => ?_⟩
      rcases List.mem_append.1 hmem with hmem | hmem
      · exact hrules rule hmem
      · rw [List.mem_singleton.1 hmem]
        exact hrule.printable hls.right.left

/-- What is read from a source is printable. -/
theorem RecipeSource.printable_of_read {source : List Char} {r : RecipeSource}
    (h : RecipeSource.read source = .ok r) : r.Printable := by
  obtain ⟨-, hwrites⟩ := RecipeSource.read_eq_ok_iff.1 h
  have hproper : AllProper (Scan.ofSource source).lexemes := fun l hl => Scan.isProper_of_mem hl
  generalize (Scan.ofSource source).lexemes = ls at hwrites hproper
  cases hwrites with
  | close p hrules => exact hrules.printable hproper.left

/-- The recipe whose fragments the rules of the source write. -/
def Recipe.IsWritten (source : List Char) (texts : Recipe String) : Prop :=
  ∃ rules, RecipeSource.read source = .ok ⟨texts.name, rules⟩
    ∧ rules.mapM Rule.fragment? = .ok texts.fragments

/-- A source writes one recipe at most. -/
theorem Recipe.IsWritten.unique {source : List Char} {texts texts' : Recipe String}
    (h : texts.IsWritten source) (h' : texts'.IsWritten source) : texts = texts' := by
  obtain ⟨rules, hread, hfragments⟩ := h
  obtain ⟨rules', hread', hfragments'⟩ := h'
  cases texts
  cases texts'
  cases hread.symm.trans hread'
  cases hfragments.symm.trans hfragments'
  rfl

/-- Every recipe that a source writes is printable. -/
theorem Recipe.IsWritten.printable {source : List Char} {texts : Recipe String}
    (h : texts.IsWritten source) : texts.Printable := by
  obtain ⟨rules, hread, hfragments⟩ := h
  obtain ⟨hname, hrules⟩ := RecipeSource.printable_of_read hread
  refine ⟨hname, fun f hf => ?_⟩
  obtain ⟨rule, hrule, hwrites⟩ := counterpart_of_mem_right (mapM_eq_ok_iff.1 hfragments) hf
  exact (hrules rule hrule).fragment hwrites

end RecipeChart
