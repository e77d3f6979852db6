/-
Which sources are recipes. A source is read exactly when it can be cut
into tokens that write a recipe in which `<>` only ever ends a rule. There
is one such recipe at most, and it is what was read: each rule has become
a fragment, its last action the finish if that is a join or `<>`, and all
actions before it the body.

Nothing but the notation decides. A fresh registry welcomes every text, so
once a recipe is written, taking in its texts cannot fail.
-/
import RecipeChart.Proofs.Recipe.Cutting
import RecipeChart.Proofs.Recipe.RoundTrip

namespace RecipeChart

-- ================================================================ rules

/-- Does `<>` stand nowhere in the rule but at its end? -/
def Rule.DoneIsLast {α : Type} (rule : Rule α) : Prop :=
  ∀ span, RuleAction.done span ∉ rule.actions.dropLast

namespace RuleAction.Splits

variable {α : Type} {actions : List (RuleAction α)} {body : List (Element α)}
  {finish : Option (Finish α)}

/-- No `<>` is left behind in the body. -/
theorem done_not_mem (h : Splits actions body finish) (span : Span) :
    RuleAction.done span ∉ actions.dropLast := by
  induction h with
  | nil => exact List.not_mem_nil
  | join r => exact List.not_mem_nil
  | done span => exact List.not_mem_nil
  | @step rest _ _ s _ ih =>
      cases rest with
      | nil => exact List.not_mem_nil
      | cons a rest =>
          rw [List.dropLast_cons_cons, List.mem_cons, not_or]
          exact ⟨fun h => (nomatch h), ih⟩
  | @through rest _ _ r hne _ ih =>
      cases rest with
      | nil => exact absurd rfl hne
      | cons a rest =>
          rw [List.dropLast_cons_cons, List.mem_cons, not_or]
          exact ⟨fun h => (nomatch h), ih⟩

/-- Actions of which only the last may be `<>` fall into a body and a
finish. -/
theorem exists_of_done_not_mem (h : ∀ span, RuleAction.done span ∉ actions.dropLast) :
    ∃ body finish, Splits actions body finish := by
  induction actions with
  | nil => exact ⟨[], none, .nil⟩
  | cons a rest ih =>
      cases rest with
      | nil =>
          cases a with
          | step s => exact ⟨[.step s], none, .step s .nil⟩
          | join r => exact ⟨[], _, .join r⟩
          | done span => exact ⟨[], _, .done span⟩
      | cons b rest =>
          simp only [List.dropLast_cons_cons, List.mem_cons, not_or] at h
          obtain ⟨body, finish, hsplits⟩ := ih fun span => (h span).2
          cases a with
          | step s => exact ⟨_, finish, .step s hsplits⟩
          | join r => exact ⟨_, finish, .through r (List.cons_ne_nil b rest) hsplits⟩
          | done span => exact absurd rfl (h span).1

end RuleAction.Splits

/-- Rules all write fragments exactly when `<>` only ever ends a rule. -/
theorem exists_fragments_iff {α : Type} {rules : List (Rule α)} :
    (∃ fs, rules.mapM Rule.fragment? = .ok fs) ↔ ∀ rule ∈ rules, rule.DoneIsLast := by
  constructor
  · intro ⟨fs, hfs⟩ rule hrule
    obtain ⟨f, -, hf⟩ := counterpart_of_mem_left (mapM_eq_ok_iff.1 hfs) hrule
    exact (Rule.fragment?_eq_ok_iff.1 hf).2.done_not_mem
  · intro hdone
    refine exists_mapM_eq_ok fun rule hrule => ?_
    obtain ⟨body, finish, hsplits⟩ := RuleAction.Splits.exists_of_done_not_mem (hdone rule hrule)
    exact ⟨⟨rule.start, body, finish⟩, Rule.fragment?_eq_ok_iff.2 ⟨rfl, hsplits⟩⟩

-- ============================================================== recipes

/-- A source is read as what the tokens it is cut into write. -/
theorem RecipeSource.read_iff_writes {source : List Char} {written : RecipeSource} :
    RecipeSource.read source = .ok written
      ↔ ∃ ls, Cuts Place.start source ls ∧ WritesRecipe ls written := by
  rw [RecipeSource.read_eq_ok_iff]
  constructor
  · intro ⟨hstuck, hwrites⟩
    have hscan : Scan.ofSource source = ⟨(Scan.ofSource source).lexemes, none⟩ := by
      rw [← hstuck]
    exact ⟨_, cuts_iff.2 hscan, hwrites⟩
  · intro ⟨ls, hcuts, hwrites⟩
    rw [cuts_iff.1 hcuts]
    exact ⟨rfl, hwrites⟩

/-- The source is cut into the tokens, they write the recipe, and in the
recipe `<>` only ever ends a rule. -/
structure Derives (source : List Char) (ls : List Lexeme) (written : RecipeSource) : Prop where
  cuts : Cuts Place.start source ls
  writes : WritesRecipe ls written
  done : ∀ rule ∈ written.rules, rule.DoneIsLast

/-- A source that is cut into tokens that write a recipe is read so. -/
theorem Derives.read_eq {source : List Char} {ls : List Lexeme} {written : RecipeSource}
    (h : Derives source ls written) :
    Scan.ofSource source = ⟨ls, none⟩ ∧ RecipeSource.read source = .ok written :=
  ⟨cuts_iff.1 h.cuts, RecipeSource.read_iff_writes.2 ⟨ls, h.cuts, h.writes⟩⟩

theorem Derives.unique {source : List Char} {ls ls' : List Lexeme} {written written' : RecipeSource}
    (h : Derives source ls written) (h' : Derives source ls' written') :
    ls = ls' ∧ written = written' := by
  obtain ⟨hscan, hread⟩ := h.read_eq
  obtain ⟨hscan', hread'⟩ := h'.read_eq
  rw [hscan] at hscan'
  rw [hread] at hread'
  cases hscan'
  cases hread'
  exact ⟨rfl, rfl⟩

/-- What is written can be derived, and its rules are its fragments. -/
theorem Recipe.IsWritten.derives {texts : Recipe String} {source : List Char}
    (h : texts.IsWritten source) :
    ∃ ls written, Derives source ls written ∧ texts.name = written.name
      ∧ List.Forall₂ (fun rule f => f.start = rule.start
          ∧ RuleAction.Splits rule.actions f.body f.finish) written.rules texts.fragments := by
  obtain ⟨rules, hread, hfragments⟩ := h
  obtain ⟨ls, hcuts, hwrites⟩ := RecipeSource.read_iff_writes.1 hread
  refine ⟨ls, _, ⟨hcuts, hwrites, exists_fragments_iff.1 ⟨_, hfragments⟩⟩, rfl, ?_⟩
  refine (mapM_eq_ok_iff.1 hfragments).imp fun rule f hf => ?_
  obtain ⟨hstart, hsplits⟩ := Rule.fragment?_eq_ok_iff.1 hf
  exact ⟨hstart.symm, hsplits⟩

/-- What can be derived is written by some fragments. -/
theorem Derives.isWritten {source : List Char} {ls : List Lexeme} {written : RecipeSource}
    (h : Derives source ls written) : ∃ texts : Recipe String, texts.IsWritten source := by
  obtain ⟨fs, hfs⟩ := exists_fragments_iff.2 h.done
  exact ⟨⟨written.name, fs⟩, written.rules, h.read_eq.2, hfs⟩

/-- A source is read into a fresh registry exactly when a recipe can be
derived from it. Then that is the only recipe that can be derived, and
what was read resolves to its name and to one fragment for each of its
rules, with the start of the rule and its actions for a body and a
finish. -/
theorem Recipe.read_exact (source : List Char) :
    ((∃ found r, Recipe.read source .empty = (.ok found, r))
        ↔ ∃ ls written, Derives source ls written)
      ∧ ∀ found r, Recipe.read source .empty = (.ok found, r) →
        ∃ texts ls written, found.traverse r.resolve = .ok texts
          ∧ (∀ ls' written', Derives source ls' written' ↔ ls' = ls ∧ written' = written)
          ∧ texts.name = written.name
          ∧ List.Forall₂ (fun rule f => f.start = rule.start
              ∧ RuleAction.Splits rule.actions f.body f.finish) written.rules texts.fragments := by
  refine ⟨⟨?_, ?_⟩, ?_⟩
  · intro ⟨found, r, hread⟩
    obtain ⟨texts, hwritten, -⟩ := Recipe.exists_of_read Registry.honest_empty hread
    obtain ⟨ls, written, hderives, -⟩ := hwritten.derives
    exact ⟨ls, written, hderives⟩
  · intro ⟨ls, written, hderives⟩
    obtain ⟨texts, hwritten⟩ := hderives.isWritten
    have htakes := Interning.takes_recipe hwritten.printable
    obtain ⟨found, r₁, hop⟩ : ∃ found r₁, Interning.recipe texts .empty = (.ok found, r₁) :=
      htakes.succeeds (Registry.welcomes_of_not_frozen rfl)
    exact ⟨found, r₁.freeze, Recipe.read_eq_ok_iff.2 ⟨texts, hwritten, r₁, hop, rfl⟩⟩
  · intro found r hread
    obtain ⟨texts, hwritten, hresolve⟩ := Recipe.exists_of_read Registry.honest_empty hread
    obtain ⟨ls, written, hderives, hname, hfragments⟩ := hwritten.derives
    refine ⟨texts, ls, written, hresolve, fun ls' written' => ⟨fun h => h.unique hderives, ?_⟩,
      hname, hfragments⟩
    rintro ⟨rfl, rfl⟩
    exact hderives

/-- The eggs can be derived, and in one way. -/
theorem Recipe.read_exact_eggs :
    Recipe.read eggsSource .empty = (.ok eggs, eggsRegistry)
      ∧ ∃ texts ls written, eggs.traverse eggsRegistry.resolve = .ok texts
        ∧ (∀ ls' written', Derives eggsSource ls' written' ↔ ls' = ls ∧ written' = written)
        ∧ texts.name = written.name
        ∧ List.Forall₂ (fun rule f => f.start = rule.start
            ∧ RuleAction.Splits rule.actions f.body f.finish) written.rules texts.fragments :=
  ⟨read_eggs, (read_exact eggsSource).2 eggs eggsRegistry read_eggs⟩

end RecipeChart
