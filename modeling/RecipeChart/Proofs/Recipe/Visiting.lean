/-
What a reading does to its registry, visit by visit: rule by rule, within an
ingredient the name before the amount, within a step the seasonings before
the description, the name of the recipe last. A visit hands a text over, or
it has a value recorded that is made of texts which are in by then.

Of every computation that takes texts in, three things are said in one
statement (`Takes`). If it succeeds, then all its visits are done, and what
it gives stands in the registry, then and later, for what it was made from.
If it fails, then because a frozen registry did not hold a text, and what
comes before that text was done and nothing behind it was. Such computations
can be put one after another, and along a list.

Whether what is given stands for the right texts depends on an index that
is honest, and which values are new on one that is an inverse; whether the
computation succeeds depends on neither.
-/
import RecipeChart.Proofs.Recipe.Printable
import RecipeChart.Proofs.Registry.Growth
import RecipeChart.Recipe.Reader
import RecipeChart.Recipe.Unplaced

namespace RecipeChart

/-- A canonical value, its texts renamed. -/
def Canonical.traverse {ε α β : Type} (f : α → Except ε β) :
    Canonical α → Except ε (Canonical β)
  | .ingredient i => .ingredient <$> i.traverse f
  | .action a => .action <$> a.traverse f

-- What is found stays found when more is.

section Mono

variable {ε α β : Type} {k k' : α → Except ε β}

/-- An ingredient that can be resolved resolves to the same where more can
be. -/
theorem Ingredient.traverse_mono (hk : ∀ a b, k a = .ok b → k' a = .ok b) {i : Ingredient α}
    {found : Ingredient β} (h : i.traverse k = .ok found) : i.traverse k' = .ok found := by
  obtain ⟨name, hname, h⟩ := bind_eq_ok_iff.1 h
  obtain ⟨amount, hamount, hpair⟩ := bind_eq_ok_iff.1 h
  refine bind_eq_ok_iff.2 ⟨name, hk _ _ hname, bind_eq_ok_iff.2 ⟨amount, ?_, hpair⟩⟩
  cases htext : i.amount with
  | none => rwa [htext] at hamount
  | some text =>
      rw [htext] at hamount
      obtain ⟨found, hfound, rfl⟩ := map_eq_ok_iff.1 hamount
      exact map_eq_ok_iff.2 ⟨found, hk _ _ hfound, rfl⟩

/-- So does a canonical value. -/
theorem Canonical.traverse_mono (hk : ∀ a b, k a = .ok b → k' a = .ok b) {value : Canonical α}
    {found : Canonical β} (h : value.traverse k = .ok found) : value.traverse k' = .ok found := by
  cases value with
  | ingredient i =>
      obtain ⟨i', hi, hpair⟩ := map_eq_ok_iff.1 h
      exact map_eq_ok_iff.2 ⟨i', i.traverse_mono hk hi, hpair⟩
  | action a =>
      obtain ⟨a', ha, hpair⟩ := map_eq_ok_iff.1 h
      obtain ⟨description, hdescription, ha⟩ := bind_eq_ok_iff.1 ha
      obtain ⟨seasonings, hseasonings, hmade⟩ := bind_eq_ok_iff.1 ha
      refine map_eq_ok_iff.2 ⟨a', bind_eq_ok_iff.2 ⟨description, hk _ _ hdescription,
        bind_eq_ok_iff.2 ⟨seasonings, ?_, hmade⟩⟩, hpair⟩
      rw [mapM_eq_ok_iff] at hseasonings ⊢
      exact hseasonings.imp fun _ _ hi => Ingredient.traverse_mono hk hi

end Mono

-- =============================================================== visits

/-- One thing that a reading does: it hands over a text of the part, or it
has a value recorded. -/
inductive Visit where
  | text (part : Part) (text : String)
  | value (value : Canonical String)
  deriving Repr, DecidableEq

namespace Visit

/-- The text that is handed over, if one is. -/
def text? : Visit → Option String
  | .text _ handed => some handed
  | .value _ => none

/-- The value that is recorded, if one is. -/
def value? : Visit → Option (Canonical String)
  | .text _ _ => none
  | .value recorded => some recorded

end Visit

/-- Texts of one part, one after another. -/
def Part.visits (part : Part) (texts : List String) : List Visit := texts.map (.text part)

/-- Texts that are visited for a part are those texts. -/
theorem Part.texts_visits (part : Part) (texts : List String) :
    (part.visits texts).filterMap Visit.text? = texts := by
  rw [visits, List.filterMap_map]
  exact List.filterMap_some

/-- Texts that are visited for a part ask for no value. -/
theorem Part.values_visits (part : Part) (texts : List String) :
    (part.visits texts).filterMap Visit.value? = [] := by
  rw [visits, List.filterMap_map, List.filterMap_eq_nil_iff]
  exact fun _ _ => rfl

/-- A value that is recorded is no text. -/
theorem Part.texts_made (part : Part) (texts : List String) (made : Canonical String) :
    (part.visits texts ++ [Visit.value made]).filterMap Visit.text? = texts := by
  rw [List.filterMap_append, part.texts_visits]
  exact List.append_nil texts

def Ingredient.visits (i : Ingredient String) : List Visit :=
  Part.ingredient.visits (i.name :: i.amount.toList) ++ [.value (.ingredient i)]

def JoinRef.visits (j : JoinRef String) : List Visit := Part.join.visits [j.name]

/-- The action of a step is the one of its seasonings less repeats. -/
def Step.visits (s : Step String) : List Visit :=
  s.action.seasonings.flatMap Ingredient.visits ++ (Part.step.visits [s.action.description]
    ++ [.value (.action (.ofSeasonings s.action.description s.action.seasonings))])

def Start.visits : Start String → List Visit
  | .group g => g.ingredients.flatMap Ingredient.visits
  | .join j => j.visits

def RuleAction.visits : RuleAction String → List Visit
  | .step s => s.visits
  | .join j => j.visits
  | .done _ => []

def Rule.visits (rule : Rule String) : List Visit :=
  rule.start.visits ++ rule.actions.flatMap RuleAction.visits

/-- What the reading of a recipe does if nothing stops it, in this order. -/
def RecipeSource.visits (written : RecipeSource) : List Visit :=
  written.rules.flatMap Rule.visits ++ Part.recipe.visits [written.name]

/-- The texts of a rule in the order in which they are handed over. -/
def Rule.texts (rule : Rule String) : List String := rule.visits.filterMap Visit.text?

/-- The texts of a recipe in the order in which they are handed over. -/
def RecipeSource.texts (written : RecipeSource) : List String :=
  written.visits.filterMap Visit.text?

-- ======================================================= what is left

namespace Registry

variable {r r' r'' : Registry} {visits more : List Visit} {texts : List String}

/-- The later registry has all values of the earlier one, and behind them, each
where it comes first, those that are new among values that stand for these. -/
def Records (r : Registry) (made : List (Canonical String)) (r' : Registry) : Prop :=
  ∃ values, List.Forall₂ (fun value texts => value.traverse r'.resolve = .ok texts) values made
    ∧ r'.canonicals = r.canonicals ++ unique (values.filter (· ∉ r.canonicals))

/-- What the visits leave once they are all done. -/
structure Leaves (r : Registry) (visits : List Visit) (r' : Registry) : Prop where
  took : Took r (visits.filterMap Visit.text?) r'
  records : r.Agrees → Records r (visits.filterMap Visit.value?) r'

/-- Untouched values are what is recorded of none. -/
theorem records_nil (h : r'.canonicals = r.canonicals) : Records r [] r' :=
  ⟨[], .nil, by rw [h]; exact (List.append_nil _).symm⟩

/-- What is recorded on the way to one registry and from there to another is
recorded on the whole way. -/
theorem Records.trans {made made' : List (Canonical String)} (h : Records r made r')
    (hgrows : Grows r' r'') (h' : Records r' made' r'') : Records r (made ++ made') r'' := by
  obtain ⟨values, hvalues, hcanonicals⟩ := h
  obtain ⟨values', hvalues', hcanonicals'⟩ := h'
  refine ⟨values ++ values', List.rel_append (hvalues.imp fun _ _ hvalue => ?_) hvalues', ?_⟩
  · exact Canonical.traverse_mono (fun _ _ hresolve => hgrows.resolve hresolve) hvalue
  · rw [← foldl_takeIn_eq] at hcanonicals hcanonicals' ⊢
    rw [List.foldl_append, hcanonicals', hcanonicals]

namespace Leaves

theorem refl (r : Registry) : Leaves r [] r := ⟨.refl r, fun _ => records_nil rfl⟩

/-- What visits leave behind other visits they leave together. -/
theorem trans (h : Leaves r visits r') (h' : Leaves r' more r'') :
    Leaves r (visits ++ more) r'' := by
  refine ⟨?_, fun hr => ?_⟩
  · rw [List.filterMap_append]
    exact h.took.trans h'.took
  · rw [List.filterMap_append]
    exact (h.records hr).trans h'.took.grows (h'.records (h.took.agrees hr))

/-- Texts that were taken in, and nothing else. -/
theorem of_took (part : Part) (h : Took r texts r') (hcanonicals : r'.canonicals = r.canonicals) :
    Leaves r (part.visits texts) r' := by
  refine ⟨?_, fun _ => ?_⟩
  · rwa [part.texts_visits]
  · rw [part.values_visits]
    exact records_nil hcanonicals

/-- Texts that were taken in, and a value recorded behind them. -/
theorem of_made (part : Part) {value : Canonical Handle} {made : Canonical String}
    (h : Took r texts r') (hcanonicals : r'.canonicals = takeIn r.canonicals value)
    (hvalue : r.Agrees → value.traverse r'.resolve = .ok made) :
    Leaves r (part.visits texts ++ [Visit.value made]) r' := by
  refine ⟨?_, fun hr => ?_⟩
  · rwa [part.texts_made]
  · rw [List.filterMap_append, part.values_visits]
    refine ⟨[value], .cons (hvalue hr) .nil, ?_⟩
    rw [← foldl_takeIn_eq]
    exact hcanonicals

end Leaves

/-- The visits came to a text that a frozen registry does not hold. What
comes before was done. -/
def Stops (r : Registry) (visits : List Visit) (e : ReadError) (r' : Registry) : Prop :=
  r.frozen = true ∧ ∃ pre part text post, visits = pre ++ .text part text :: post
    ∧ ¬ r.contains text = true ∧ e = .refused part (.frozen text) ∧ Leaves r pre r'

/-- A stop is one whatever would have come behind it. -/
theorem Stops.append {e : ReadError} (h : Stops r visits e r') (more : List Visit) :
    Stops r (visits ++ more) e r' := by
  obtain ⟨hr, pre, part, text, post, rfl, hstopped⟩ := h
  exact ⟨hr, pre, part, text, post ++ more, List.append_assoc _ _ _, hstopped⟩

/-- A stop is one behind any visits that went through. -/
theorem Leaves.stops {e : ReadError} (h : Leaves r visits r') (h' : Stops r' more e r'') :
    Stops r (visits ++ more) e r'' := by
  obtain ⟨hr', pre, part, text, post, rfl, hnew, he, hleaves⟩ := h'
  have hr : r.frozen = true := h.took.frozen.symm.trans hr'
  rw [h.took.contains_eq hr] at hnew
  exact ⟨hr, visits ++ pre, part, text, post, (List.append_assoc _ _ _).symm, hnew, he,
    h.trans hleaves⟩

/-- A refusal of the texts of a part is a stop there, and the part is
blamed. -/
theorem Refuses.stops (part : Part) {e : ProvenanceError} (h : r.Refuses texts e) :
    Stops r (part.visits texts) (.refused part e) r := by
  obtain ⟨hr, pre, text, post, rfl, hpre, hnew, rfl⟩ := h
  refine ⟨hr, part.visits pre, part, text, part.visits post, ?_, hnew, rfl, ?_⟩
  · simp only [Part.visits, List.map_append, List.map_cons]
  · exact .of_took part (.of_contains hpre) rfl

/-- Visits that are welcome are not stopped. -/
theorem Welcomes.not_stops {e : ReadError} (h : r.Welcomes (visits.filterMap Visit.text?)) :
    ¬ Stops r visits e r' := by
  rintro ⟨hr, pre, part, text, post, rfl, hnew, -⟩
  refine hnew (h hr text (List.mem_filterMap.2 ⟨.text part text, ?_, rfl⟩))
  exact List.mem_append_right pre List.mem_cons_self

end Registry

-- ======================================================== computations

namespace Interning

open Registry

variable {β γ δ : Type} {r r' : Registry}

/-- The visits that a computation pays, and what it gives of them: a success
has done them all, and what it gives stands for what it should, then and
later; a failure was stopped in the middle. -/
structure Takes (op : Interning β) (visits : List Visit) (Q : Registry → β → Prop) : Prop where
  ok : ∀ {r r' b}, op r = (.ok b, r') →
    Leaves r visits r' ∧ (r.Honest → ∀ {later : Registry}, Grows r' later → Q later b)
  error : ∀ {r r' e}, op r = (.error e, r') → Stops r visits e r'

/-- Where its texts are welcome a computation succeeds. -/
theorem Takes.succeeds {op : Interning β} {visits : List Visit} {Q : Registry → β → Prop}
    (h : Takes op visits Q) (hr : r.Welcomes (visits.filterMap Visit.text?)) :
    ∃ b r', op r = (.ok b, r') := by
  rcases hrun : op r with ⟨e | b, r'⟩
  · exact absurd (h.error hrun) hr.not_stops
  · exact ⟨b, r', rfl⟩

/-- A task that only answers visits nothing. -/
theorem Takes.pure {Q : Registry → β → Prop} {b : β} (h : ∀ r, Q r b) :
    Takes (pure b : Interning β) [] Q where
  ok hop := by
    cases hop
    exact ⟨.refl _, fun _ _ _ => h _⟩
  error hop := by cases hop

/-- A task behind another visits what the two visit, one after the other. -/
theorem Takes.bind {op : Interning β} {f : β → Interning γ} {visits more : List Visit}
    {P : Registry → β → Prop} {Q : Registry → γ → Prop} (h : Takes op visits P)
    (hf : ∀ b, Takes (f b) more fun r c => P r b → Q r c) :
    Takes (op >>= f) (visits ++ more) Q where
  ok hop := by
    obtain ⟨b, r₁, hfirst, hsecond⟩ := bind_ok_iff.1 hop
    obtain ⟨hleaves, hP⟩ := h.ok hfirst
    obtain ⟨hleaves', hQ⟩ := (hf b).ok hsecond
    refine ⟨hleaves.trans hleaves', fun hr _ hlater => ?_⟩
    exact hQ (hleaves.took.honest hr) hlater (hP hr (hleaves'.took.grows.trans hlater))
  error hop := by
    rcases bind_error_iff.1 hop with hfirst | ⟨b, r₁, hfirst, hsecond⟩
    · exact (h.error hfirst).append more
    · exact (h.ok hfirst).1.stops ((hf b).error hsecond)

/-- What is made of an answer visits nothing more. -/
theorem Takes.map {op : Interning β} {g : β → γ} {visits : List Visit} {P : Registry → β → Prop}
    {Q : Registry → γ → Prop} (h : Takes op visits P) (hPQ : ∀ r b, P r b → Q r (g b)) :
    Takes (g <$> op) visits Q := by
  rw [map_eq_pure_bind, ← List.append_nil visits]
  exact h.bind fun b => Takes.pure fun r hb => hPQ r b hb

/-- Less may be said of what is given. -/
theorem Takes.mono {op : Interning β} {visits : List Visit} {P Q : Registry → β → Prop}
    (h : Takes op visits P) (hPQ : ∀ r b, P r b → Q r b) : Takes op visits Q where
  ok hop := ⟨(h.ok hop).1, fun hr _ hlater => hPQ _ _ ((h.ok hop).2 hr hlater)⟩
  error hop := h.error hop

/-- A task done for each of several visits what each visits, in their
order. -/
theorem Takes.mapM {op : δ → Interning β} {visitsOf : δ → List Visit}
    {R : Registry → δ → β → Prop} {xs : List δ}
    (h : ∀ x ∈ xs, Takes (op x) (visitsOf x) fun r b => R r x b) :
    Takes (xs.mapM op) (xs.flatMap visitsOf) fun r bs => List.Forall₂ (R r) xs bs := by
  induction xs with
  | nil =>
      rw [List.mapM_nil]
      exact Takes.pure fun r => .nil
  | cons x xs ih =>
      rw [List.forall_mem_cons] at h
      rw [List.mapM_cons, List.flatMap_cons]
      refine h.1.bind fun b => (ih h.2).map fun r bs hbs hb => ?_
      exact .cons hb hbs

-- ========================================================== the notation

/-- To blame a part for a failure leaves the success as it is. -/
theorem blame_ok_iff {part : Part} {task : Task ProvenanceError β} {b : β} :
    blame part task r = (.ok b, r') ↔ task r = (.ok b, r') :=
  adapt_ok_iff

/-- A failure that is blamed on a part is the failure of the task. -/
theorem blame_error_iff {part : Part} {task : Task ProvenanceError β} {e : ReadError} :
    blame part task r = (.error e, r') ↔ ∃ reason, task r = (.error reason, r')
      ∧ .refused part reason = e :=
  adapt_error_iff

/-- An ingredient is found again under the handles that its texts were
given. -/
theorem takes_ingredient (i : Ingredient String) :
    Takes (ingredient i) i.visits fun r b => b.traverse r.resolve = .ok i where
  ok {r r' b} hop := by
    obtain ⟨⟨value, k⟩, r₁, hingredient, hop⟩ := bind_ok_iff.1 hop
    cases hop
    have hmade := made_of_ingredient (blame_ok_iff.1 hingredient)
    have hresolve : r.Honest → ∀ {later : Registry}, Grows r' later →
        b.traverse later.resolve = .ok i := by
      intro hr later hlater
      obtain ⟨hname, hamount⟩ := hmade.resolve hr hlater
      rw [Ingredient.traverse, hname, hamount]
      rfl
    refine ⟨.of_made .ingredient hmade.took hmade.canonicals fun hr => ?_, hresolve⟩
    rw [Canonical.traverse, hresolve hr.honest (.refl r')]
    rfl
  error {r r' e} hop := by
    rcases bind_error_iff.1 hop with hfailed | ⟨_, _, -, hop⟩
    · obtain ⟨reason, hrefused, rfl⟩ := blame_error_iff.1 hfailed
      obtain ⟨rfl, hrefuses⟩ := refuses_of_ingredient hrefused
      exact (hrefuses.stops .ingredient).append _
    · cases hop

/-- A text that is handed over alone, for a part of which it is the name. -/
theorem takes_text (part : Part) (text : String) :
    Takes (blame part (intern text)) (part.visits [text])
      fun r handle => r.resolve handle = .ok text where
  ok hop := by
    have hinterned := interned_of_intern (blame_ok_iff.1 hop)
    exact ⟨.of_took part hinterned.took hinterned.canonicals,
      fun hr _ hlater => hinterned.resolve hr hlater⟩
  error hop := by
    obtain ⟨reason, hrefused, rfl⟩ := blame_error_iff.1 hop
    obtain ⟨rfl, hrefuses⟩ := refuses_of_intern hrefused
    exact hrefuses.stops part

/-- A join reference takes in its name, and what it becomes resolves to
it. -/
theorem takes_join (j : JoinRef String) :
    Takes (join j) j.visits fun r b => b.traverse r.resolve = .ok j := by
  have hjoin : Takes ((fun name => (⟨name, j.span⟩ : JoinRef Handle))
      <$> blame .join (intern j.name)) j.visits fun r b => b.traverse r.resolve = .ok j := by
    refine (takes_text .join j.name).map fun r name hname => ?_
    rw [JoinRef.traverse, hname]
    rfl
  rwa [map_eq_pure_bind] at hjoin

-- ============================================================== repeats

/-- Where no ingredient is repeated, none is among their counterparts. -/
theorem nodup_of_resolves {items : List (Ingredient String)} {found : List (Ingredient Handle)}
    (h : List.Forall₂ (fun i b => b.traverse r.resolve = .ok i) items found)
    (hnodup : items.Nodup) : found.Nodup := by
  induction h with
  | nil => exact List.nodup_nil
  | @cons i b items found hb hfound ih =>
      rw [List.nodup_cons] at hnodup ⊢
      refine ⟨fun hmem => hnodup.1 ?_, ih hnodup.2⟩
      obtain ⟨i', hi', hresolve⟩ := counterpart_of_mem_right hfound hmem
      rw [hb] at hresolve
      cases hresolve
      exact hi'

/-- Where no text is held twice, ingredients of the same texts are the
same. -/
theorem ingredient_injective (hr : r.strings.Nodup) {b b' : Ingredient Handle}
    {i : Ingredient String} (h : b.traverse r.resolve = .ok i)
    (h' : b'.traverse r.resolve = .ok i) : b = b' := by
  obtain ⟨name, hname, hrest⟩ := bind_eq_ok_iff.1 h
  obtain ⟨amount, hamount, hpair⟩ := bind_eq_ok_iff.1 hrest
  obtain ⟨name', hname', hrest'⟩ := bind_eq_ok_iff.1 h'
  obtain ⟨amount', hamount', hpair'⟩ := bind_eq_ok_iff.1 hrest'
  cases hpair
  cases hpair'
  have hfirst : b.name = b'.name := resolve_injective hr hname hname'
  have hsecond : b.amount = b'.amount := resolveOption_injective hr hamount hamount'
  cases b
  cases b'
  cases hfirst
  cases hsecond
  rfl

/-- Then they repeat exactly where their texts do. -/
theorem unique_resolves (hr : r.strings.Nodup) {items : List (Ingredient String)}
    {found : List (Ingredient Handle)}
    (h : List.Forall₂ (fun i b => b.traverse r.resolve = .ok i) items found) :
    (unique found).mapM (Ingredient.traverse r.resolve) = .ok (unique items) := by
  have hunique := forall₂_unique (fun {i i' b b'} hb hb' => ?_) h
  · exact mapM_eq_ok_iff.2 hunique.flip
  · constructor
    · rintro rfl
      exact ingredient_injective hr hb hb'
    · rintro rfl
      exact Except.ok.inj (hb.symm.trans hb')

-- ================================================================ steps

/-- An action of handles that resolve is the action of their texts. -/
theorem action_resolves {description : String} {handle : Handle}
    {seasonings : List (Ingredient String)} {found : List (Ingredient Handle)}
    (hdescription : r.resolve handle = .ok description)
    (hfound : found.mapM (Ingredient.traverse r.resolve) = .ok seasonings) :
    Action.traverse r.resolve ⟨handle, found⟩ = .ok ⟨description, seasonings⟩ := by
  rw [Action.traverse, hdescription]
  show (found.mapM (Ingredient.traverse r.resolve) >>= _) = _
  rw [hfound]
  rfl

/-- A step is found again if no seasoning of it is repeated. The value that is
recorded for it never has a repeat. -/
theorem takes_step (s : Step String) : Takes (step s) s.visits fun r b =>
    s.action.seasonings.Nodup → b.traverse r.resolve = .ok s where
  ok {r r' b} hop := by
    obtain ⟨found, r₁, hfound, hop⟩ := bind_ok_iff.1 hop
    obtain ⟨⟨value, k⟩, r₂, haction, hop⟩ := bind_ok_iff.1 hop
    cases hop
    have hmade := made_of_action (blame_ok_iff.1 haction)
    obtain ⟨hleaves, hresolves⟩ := (Takes.mapM fun i _ => takes_ingredient i).ok hfound
    have hvalue : value = ⟨value.description, unique found⟩ := by
      rw [← hmade.seasonings]
    refine ⟨⟨?_, fun hr => ?_⟩, fun hr later hlater hnodup => ?_⟩
    · rw [Step.visits, List.filterMap_append, Part.texts_made]
      exact hleaves.took.trans hmade.took
    -- The value on record is made of the seasonings without their repeats, whether or not
    -- there were any.
    · have hr₁ := hleaves.took.agrees hr
      have hall := hresolves hr.honest hmade.took.grows
      have hdescription := hmade.resolve hr₁.honest (.refl r')
      have hseasonings := unique_resolves (hmade.took.agrees hr₁).nodup hall
      have hrecorded : Canonical.traverse r'.resolve (.action value)
          = .ok (.action (.ofSeasonings s.action.description s.action.seasonings)) := by
        rw [Canonical.traverse, hvalue, action_resolves hdescription hseasonings]
        rfl
      rw [Step.visits, List.filterMap_append]
      exact (hleaves.records hr).trans hmade.took.grows
        ((Leaves.of_made .step hmade.took hmade.canonicals fun _ => hrecorded).records hr₁)
    -- The step itself comes back only if there were none.
    · have hall := hresolves hr (hmade.took.grows.trans hlater)
      have hdescription := hmade.resolve (hleaves.took.honest hr) hlater
      have hseasonings : (unique found).mapM (Ingredient.traverse later.resolve)
          = .ok s.action.seasonings := by
        rw [unique_eq_self (nodup_of_resolves hall hnodup)]
        exact mapM_eq_ok_iff.2 hall.flip
      rw [Step.traverse, hvalue, action_resolves hdescription hseasonings]
      rfl
  error {r r' e} hop := by
    rcases bind_error_iff.1 hop with hfailed | ⟨found, r₁, hfound, hop⟩
    · exact ((Takes.mapM fun i _ => takes_ingredient i).error hfailed).append _
    · have hleaves := ((Takes.mapM fun i _ => takes_ingredient i).ok hfound).1
      rcases bind_error_iff.1 hop with hfailed | ⟨_, _, -, hop⟩
      · obtain ⟨reason, hrefused, rfl⟩ := blame_error_iff.1 hfailed
        obtain ⟨rfl, hrefuses⟩ := refuses_of_action hrefused
        exact hleaves.stops ((hrefuses.stops .step).append _)
      · cases hop

-- ================================================================ rules

/-- A start takes in its ingredients or its join, and what it becomes
resolves to it. -/
theorem takes_start (s : Start String) :
    Takes (start s) s.visits fun r b => b.traverse r.resolve = .ok s := by
  cases s with
  | group g =>
      have hgroup : Takes
          ((fun items => Start.group ⟨items, g.span⟩) <$> g.ingredients.mapM ingredient)
          (g.ingredients.flatMap Ingredient.visits)
          fun r b => b.traverse r.resolve = .ok (.group g) := by
        refine (Takes.mapM fun i _ => takes_ingredient i).map fun r found hfound => ?_
        have hitems : found.mapM (Ingredient.traverse r.resolve) = .ok g.ingredients :=
          mapM_eq_ok_iff.2 hfound.flip
        rw [Start.traverse, Group.traverse]
        dsimp only
        rw [hitems]
        rfl
      rwa [map_eq_pure_bind] at hgroup
  | join j =>
      refine (takes_join j).map fun r b hb => ?_
      rw [Start.traverse, hb]
      rfl

/-- An action of a rule visits its texts; that it can be resolved is not
said, as its seasonings may repeat. -/
theorem takes_action (a : RuleAction String) :
    Takes (action a) a.visits fun _ _ => True := by
  cases a with
  | step s => exact (takes_step s).map fun _ _ _ => trivial
  | join j => exact (takes_join j).map fun _ _ _ => trivial
  | done span => exact Takes.pure fun _ => trivial

/-- The texts of a rule, before it is looked at whether it writes a
fragment. -/
theorem takes_rule (source : Rule String) :
    Takes (rule source) source.visits fun _ _ => True :=
  (takes_start source.start).bind fun _ =>
    ((Takes.mapM fun a _ => takes_action a).map fun _ _ _ => trivial).mono fun _ _ h _ => h

end Interning

end RecipeChart
