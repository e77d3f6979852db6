/-
Recipes read into one registry, one after another. A reading can stop in
three ways. The source may be no sentence; that is found out before any
text is taken in. A `<>` may be misplaced; that is found out when the
texts of its rule are in, and the rules behind it are not reached. Or a
frozen registry refuses a text, and then it has taken in nothing.

Which of these it is can be told for a list of rules by induction along
the list (`RulesEnd`), and from that for a source (`Ends`); all that is
said of readings here is read off the four cases. To take texts in
misplaces no `<>`, so in a registry that is not frozen the source alone
tells how its reading ends, whatever the registry holds.
-/
import RecipeChart.Proofs.Recipe.Acceptance
import RecipeChart.Proofs.Recipe.Visiting

namespace RecipeChart

-- ====================================================== misplaced `<>`

section Misplaced

variable {α : Type}

/-- The place of the action if it is `<>`. -/
def RuleAction.done? : RuleAction α → Option Span
  | .done span => some span
  | .step _ => none
  | .join _ => none

/-- The place of the first `<>` that does not end the rule. -/
def Rule.misplaced? (rule : Rule α) : Option Span :=
  rule.actions.dropLast.findSome? RuleAction.done?

/-- Actions fail to fall into parts at the first `<>` that is not last. -/
theorem RuleAction.split_eq_error_iff {actions : List (RuleAction α)} {span : Span} :
    split actions = .error span ↔ actions.dropLast.findSome? done? = some span := by
  induction actions with
  | nil => exact ⟨fun h => (nomatch h), fun h => (nomatch h)⟩
  | cons a rest ih =>
      cases rest with
      | nil => cases a <;> exact ⟨fun h => (nomatch h), fun h => (nomatch h)⟩
      | cons b rest =>
          rw [List.dropLast_cons_cons]
          cases a with
          | done span' =>
              show Except.error span' = Except.error span ↔ some span' = some span
              rw [Except.error.injEq, Option.some.injEq]
          | step s =>
              rw [List.findSome?_cons_of_isNone rfl, ← ih, split]
              exact bind_ok_eq_error_iff
          | join j =>
              rw [List.findSome?_cons_of_isNone rfl, ← ih, split]
              · exact bind_ok_eq_error_iff
              · exact List.cons_ne_nil b rest

/-- A rule writes no fragment because of its first misplaced `<>`. -/
theorem Rule.fragment?_eq_error_iff {rule : Rule α} {span : Span} :
    rule.fragment? = .error span ↔ rule.misplaced? = some span := by
  unfold Rule.misplaced?
  rw [← RuleAction.split_eq_error_iff]
  exact bind_ok_eq_error_iff

/-- A rule has its `<>` in the last place exactly when none is misplaced. -/
theorem Rule.doneIsLast_iff {rule : Rule α} : rule.DoneIsLast ↔ rule.misplaced? = none := by
  unfold Rule.DoneIsLast Rule.misplaced?
  rw [List.findSome?_eq_none_iff]
  constructor
  · intro h a ha
    cases a with
    | done span => exact absurd ha (h span)
    | step s => rfl
    | join j => rfl
  · intro h span hspan
    cases h (.done span) hspan

end Misplaced

namespace Interning

/-- An action that is taken in is the finish if it was. -/
theorem done?_of_action {a : RuleAction String} {a' : RuleAction Handle} {r r' : Registry}
    (h : action a r = (.ok a', r')) : a'.done? = a.done? := by
  cases a' with
  | step s' =>
      obtain ⟨s, rfl, -⟩ := step_of_action h
      rfl
  | join j' =>
      obtain ⟨j, rfl, -⟩ := join_of_action h
      rfl
  | done span =>
      obtain ⟨rfl, -⟩ := done_of_action h
      rfl

/-- The same action of a rule is the finish, once all are taken in. -/
theorem map_done?_of_actions {actions : List (RuleAction String)}
    {found : List (RuleAction Handle)} {r r' : Registry}
    (h : actions.mapM action r = (.ok found, r')) :
    found.map RuleAction.done? = actions.map RuleAction.done? := by
  induction actions generalizing found r with
  | nil =>
      obtain ⟨rfl, -⟩ := Registry.mapM_nil_ok_iff.1 h
      rfl
  | cons a actions ih =>
      obtain ⟨a', found, r₁, ha, hrest, rfl⟩ := Registry.mapM_cons_ok_iff.1 h
      rw [List.map_cons, List.map_cons, done?_of_action ha, ih hrest]

/-- To take the texts of a rule in misplaces nothing, and puts nothing in
its place. -/
theorem misplaced?_of_rule {source : Rule String} {found : Rule Handle} {r r' : Registry}
    (h : rule source r = (.ok found, r')) : found.misplaced? = source.misplaced? := by
  obtain ⟨start', r₁, -, hrest⟩ := Registry.bind_ok_iff.1 h
  obtain ⟨actions', hactions, rfl⟩ := Registry.map_ok_iff.1 hrest
  have hdone :=
    congrArg (fun places => places.dropLast.findSome? id) (map_done?_of_actions hactions)
  simpa [Rule.misplaced?, ← List.map_dropLast, List.findSome?_map] using hdone

/-- A rule that is taken in becomes its fragment if no `<>` is misplaced. -/
theorem fragmentOf_of_ok {source : Rule String} {found : Rule Handle} {f : Fragment Handle}
    {r r' : Registry} (h : rule source r = (.ok found, r')) (hf : found.fragment? = .ok f) :
    fragmentOf source r = (.ok f, r') := by
  refine Registry.bind_ok_iff.2 ⟨found, r', h, ?_⟩
  rw [hf]
  rfl

/-- A rule with a misplaced `<>` is refused once its texts are in. -/
theorem fragmentOf_of_error {source : Rule String} {found : Rule Handle} {span : Span}
    {r r' : Registry} (h : rule source r = (.ok found, r')) (hf : found.fragment? = .error span) :
    fragmentOf source r = (.error (.offence (.misplacedDone span)), r') := by
  refine Registry.bind_error_iff.2 (.inr ⟨found, r', h, ?_⟩)
  rw [hf]
  rfl

/-- All that can become of a rule: its texts are not all welcome, or they are
in, and then it writes a fragment or has a `<>` that is misplaced. -/
theorem fragmentOf_cases (source : Rule String) (r : Registry) :
    (∃ e r', fragmentOf source r = (.error e, r') ∧ r.Stops source.visits e r')
      ∨ ∃ r', r.Leaves source.visits r'
        ∧ ((∃ fragment, source.misplaced? = none ∧ fragmentOf source r = (.ok fragment, r'))
          ∨ ∃ span, source.misplaced? = some span
            ∧ fragmentOf source r = (.error (.offence (.misplacedDone span)), r')) := by
  rcases hrule : rule source r with ⟨e | found, r'⟩
  · exact .inl ⟨e, r', Registry.bind_error_iff.2 (.inl hrule), (takes_rule source).error hrule⟩
  · refine .inr ⟨r', ((takes_rule source).ok hrule).1, ?_⟩
    rw [← misplaced?_of_rule hrule]
    cases hfragment : found.fragment? with
    | error span =>
        exact .inr ⟨span, Rule.fragment?_eq_error_iff.1 hfragment,
          fragmentOf_of_error hrule hfragment⟩
    | ok fragment =>
        refine .inl ⟨fragment, Option.eq_none_iff_forall_not_mem.2 fun span hspan => ?_,
          fragmentOf_of_ok hrule hfragment⟩
        cases hfragment.symm.trans (Rule.fragment?_eq_error_iff.2 hspan)

end Interning

-- ============================================================== endings


/-- How the search for the fragments of rules ends: all rules are done, or
the first `<>` that is misplaced stops it behind its rule, or a text is not
welcome. -/
inductive RulesEnd (r : Registry) (rules : List (Rule String)) :
    Except ReadError (List (Fragment Handle)) → Registry → Prop where
  | found {fragments : List (Fragment Handle)} {r' : Registry}
      (hdone : ∀ rule ∈ rules, rule.misplaced? = none)
      (hleaves : r.Leaves (rules.flatMap Rule.visits) r') : RulesEnd r rules (.ok fragments) r'
  | misplaced {pre post : List (Rule String)} {rule : Rule String} {span : Span} {r' : Registry}
      (hrules : rules = pre ++ rule :: post) (hpre : ∀ earlier ∈ pre, earlier.misplaced? = none)
      (hspan : rule.misplaced? = some span)
      (hleaves : r.Leaves ((pre ++ [rule]).flatMap Rule.visits) r') :
      RulesEnd r rules (.error (.offence (.misplacedDone span))) r'
  | refused {e : ReadError} {r' : Registry}
      (hstops : r.Stops (rules.flatMap Rule.visits) e r') : RulesEnd r rules (.error e) r'

/-- A rule that was done is put in front. -/
theorem RulesEnd.cons {rule : Rule String} {rules : List (Rule String)} {r r₁ r' : Registry}
    {rest : Except ReadError (List (Fragment Handle))} (fragment : Fragment Handle)
    (hdone : rule.misplaced? = none) (hfirst : r.Leaves rule.visits r₁)
    (h : RulesEnd r₁ rules rest r') : RulesEnd r (rule :: rules) (rest.map (fragment :: ·)) r' := by
  cases h with
  | found hrest hleaves =>
      exact .found (List.forall_mem_cons.2 ⟨hdone, hrest⟩) (hfirst.trans hleaves)
  | @misplaced pre post stopped _ _ hrules hpre hspan hleaves =>
      have hparts : rule :: rules = (rule :: pre) ++ stopped :: post :=
        congrArg (rule :: ·) hrules
      refine .misplaced hparts ?_ hspan ?_
      · exact List.forall_mem_cons.2 ⟨hdone, hpre⟩
      · exact hfirst.trans hleaves
  | refused hstops => exact .refused (hfirst.stops hstops)

/-- The texts of a rule are in before its actions are looked at, so the rule
that stops the search has left its own behind. -/
theorem rulesEnd_mapM {rules : List (Rule String)} {r r' : Registry}
    {result : Except ReadError (List (Fragment Handle))}
    (h : rules.mapM Interning.fragmentOf r = (result, r')) : RulesEnd r rules result r' := by
  induction rules generalizing r r' result with
  | nil =>
      cases h
      exact .found (fun rule hrule => absurd hrule List.not_mem_nil) (.refl r)
  | cons rule rules ih =>
      rw [List.mapM_cons, Registry.bind_run] at h
      rcases Interning.fragmentOf_cases rule r with
        ⟨e, r₁, hrun, hstops⟩ | ⟨r₁, hleaves, ⟨fragment, hdone, hrun⟩ | ⟨span, hspan, hrun⟩⟩
      · rw [hrun] at h
        cases h
        exact .refused (hstops.append _)
      · rw [hrun] at h
        dsimp only at h
        rw [Registry.bind_run] at h
        rcases hrest : rules.mapM Interning.fragmentOf r₁ with ⟨e | found, r₂⟩
        · rw [hrest] at h
          cases h
          exact (ih hrest).cons fragment hdone hleaves
        · rw [hrest] at h
          cases h
          exact (ih hrest).cons fragment hdone hleaves
      · rw [hrun] at h
        cases h
        have hparts : rule :: rules = [] ++ rule :: rules := rfl
        refine .misplaced hparts (fun _ hmem => absurd hmem List.not_mem_nil) hspan ?_
        rwa [List.nil_append, List.flatMap_singleton]

/-- What the source offends in, if in anything: something that cannot stand
where it stands, or the first `<>` that is misplaced. -/
def RecipeSource.offence? (source : List Char) : Option SyntaxError :=
  match RecipeSource.read source with
  | .error place => some (.unexpected place)
  | .ok written => (written.rules.findSome? Rule.misplaced?).map .misplacedDone

namespace Recipe

/-- How a reading ends: where the source is no sentence, behind the rule
with the first `<>` that is misplaced, at a text that is not welcome, or
with a recipe and a frozen registry. -/
inductive Ends (r : Registry) (source : List Char) :
    Except ReadError (Recipe Handle) → Registry → Prop where
  | noSentence {place : Place} (hread : RecipeSource.read source = .error place) :
      Ends r source (.error (.offence (.unexpected place))) r
  | misplaced {written : RecipeSource} {pre post : List (Rule String)} {rule : Rule String}
      {span : Span} {r' : Registry} (hread : RecipeSource.read source = .ok written)
      (hrules : written.rules = pre ++ rule :: post)
      (hpre : ∀ earlier ∈ pre, earlier.misplaced? = none) (hspan : rule.misplaced? = some span)
      (hleaves : r.Leaves ((pre ++ [rule]).flatMap Rule.visits) r') :
      Ends r source (.error (.offence (.misplacedDone span))) r'
  | refused {written : RecipeSource} {e : ReadError} {r' : Registry}
      (hread : RecipeSource.read source = .ok written) (hstops : r.Stops written.visits e r') :
      Ends r source (.error e) r'
  | found {written : RecipeSource} {recipe : Recipe Handle} {r' : Registry}
      (hread : RecipeSource.read source = .ok written)
      (hdone : ∀ rule ∈ written.rules, rule.misplaced? = none)
      (hleaves : r.Leaves written.visits r') : Ends r source (.ok recipe) r'.freeze

variable {before after : Registry} {source : List Char}
  {result : Except ReadError (Recipe Handle)}

/-- Every reading ends in one of the ways there are. -/
theorem ends_of_read (h : Recipe.read source before = (result, after)) :
    Ends before source result after := by
  unfold Recipe.read at h
  cases hread : RecipeSource.read source with
  | error place =>
      rw [hread] at h
      cases h
      exact .noSentence hread
  | ok written =>
      rw [hread] at h
      dsimp only at h
      rw [Registry.bind_run] at h
      rcases hrules : written.rules.mapM Interning.fragmentOf before with ⟨e | fragments, r₁⟩
      · rw [hrules] at h
        cases h
        cases rulesEnd_mapM hrules with
        | misplaced hparts hpre hspan hleaves => exact .misplaced hread hparts hpre hspan hleaves
        | refused hstops => exact .refused hread (hstops.append _)
      · rw [hrules] at h
        dsimp only at h
        rw [Registry.bind_run] at h
        cases rulesEnd_mapM hrules with
        | found hdone hleaves =>
            have hname := Interning.takes_text .recipe written.name
            rcases hrun : blame .recipe (Registry.intern written.name) r₁ with ⟨e | name, r₂⟩
            · rw [hrun] at h
              cases h
              exact .refused hread (hleaves.stops (hname.error hrun))
            · rw [hrun] at h
              cases h
              exact .found hread hdone (hleaves.trans (hname.ok hrun).1)

namespace Ends

/-- Whatever the end, some texts were taken in, and nothing else was done to
the tables. -/
theorem exists_took (h : Ends before source result after) :
    ∃ texts r, before.Took texts r ∧ r.Grows after ∧ after.strings = r.strings
      ∧ after.index = r.index := by
  cases h with
  | noSentence hread => exact ⟨[], _, .refl before, .refl _, rfl, rfl⟩
  | misplaced hread hrules hpre hspan hleaves => exact ⟨_, _, hleaves.took, .refl _, rfl, rfl⟩
  | refused hread hstops =>
      obtain ⟨-, pre, part, text, post, -, -, -, hleaves⟩ := hstops
      exact ⟨_, _, hleaves.took, .refl _, rfl, rfl⟩
  | found hread hdone hleaves => exact ⟨_, _, hleaves.took, .freeze _, rfl, rfl⟩

/-- Whatever the end, no text is lost or moved. -/
theorem grows (h : Ends before source result after) : before.Grows after := by
  obtain ⟨texts, r, htook, hgrows, -⟩ := h.exists_took
  exact htook.grows.trans hgrows

/-- The step lemma of readings: whatever the end, the tables stay each other's
inverse. -/
theorem agrees (h : Ends before source result after) (hr : before.Agrees) : after.Agrees := by
  obtain ⟨texts, r, htook, -, hstrings, hindex⟩ := h.exists_took
  exact (htook.agrees hr).of_eq hstrings hindex

/-- Where the texts are welcome a reading fails because of what the source
offends in, and only because of that. -/
theorem error_iff_of_welcomes (h : Ends before source result after)
    (hwelcome : ∀ written, RecipeSource.read source = .ok written → before.Welcomes written.texts)
    {e : ReadError} :
    result = .error e ↔ ∃ offence, RecipeSource.offence? source = some offence
      ∧ e = .offence offence := by
  unfold RecipeSource.offence?
  cases h with
  | noSentence hread => simp [hread, eq_comm]
  | misplaced hread hrules hpre hspan hleaves =>
      have hfirst := List.findSome?_eq_some_iff.2 ⟨_, _, _, hrules, hspan, hpre⟩
      simp [hread, hfirst, eq_comm]
  | refused hread hstops => exact absurd hstops (hwelcome _ hread).not_stops
  | found hread hdone hleaves => simp [hread, List.findSome?_eq_none_iff.2 hdone]

end Ends

end Recipe

-- ================================================================ runs

namespace Registry

end Registry

/-- The canonical values that a rule asks for, in the order in which it does:
every ingredient, and every action behind its seasonings. -/
def Rule.values (rule : Rule String) : List (Canonical String) :=
  rule.visits.filterMap Visit.value?

/-- The canonical values that a recipe asks for. -/
def RecipeSource.values (written : RecipeSource) : List (Canonical String) :=
  written.visits.filterMap Visit.value?

namespace Recipe

end Recipe

end RecipeChart
