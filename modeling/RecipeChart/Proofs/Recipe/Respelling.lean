/-
Tokens that spell the same. Where its tokens stand and how many blanks a
word took along make no difference to what a list of tokens writes, spans
apart. This is shown part by part along a derivation: a list that spells
what two lists spell one after the other falls into two, and each half
writes again what was written there.

Rules that differ in their spans only are cut into fragments that differ
in their spans only, and one misplaces a `<>` exactly when the other does.
So two sources that write the same but for the spans are read the same but
for the spans: with the same handles and the same registry, or neither of
them for a misplaced `<>`.
-/
import RecipeChart.Proofs.Recipe.Sharing

namespace RecipeChart

-- ============================================================ spellings

/-- The tokens are spelled the same, up to the blanks in their words. -/
def Respells (ls ls' : List Lexeme) : Prop := Spells ls' (ls.map (·.token.trimmed))

namespace Respells

variable {ls ls₁ ls₂ ls' : List Lexeme}

theorem nil (h : Respells [] ls') : ls' = [] := Spells.nil h

/-- What is spelled like one list behind another falls into two. -/
theorem append (h : Respells (ls₁ ++ ls₂) ls') :
    ∃ front back, ls' = front ++ back ∧ Respells ls₁ front ∧ Respells ls₂ back := by
  rw [Respells, List.map_append] at h
  exact h.append

/-- A sign is spelled by the same sign. -/
theorem sign {t : Token} {p : Place} (h : Respells (⟨t, p⟩ :: ls) ls')
    (ht : t.isWord = false) : ∃ q back, ls' = ⟨t, q⟩ :: back ∧ Respells ls back := by
  have htrim : t.trimmed = t := by
    cases t
    case word => cases ht
    all_goals rfl
  rw [Respells, List.map_cons, htrim] at h
  exact h.cons ht

/-- A word is spelled by a word that holds the same text. -/
theorem word {w : List Char} {p : Place} (h : Respells (⟨.word w, p⟩ :: ls) ls') :
    ∃ w' q back, ls' = ⟨.word w', q⟩ :: back ∧ wordText w' = wordText w ∧ Respells ls back := by
  obtain ⟨w', q, back, rfl, htrim, hback⟩ := Spells.exists_word h
  exact ⟨w', q, back, rfl, congrArg String.ofList htrim, hback⟩

end Respells

-- ================================================== alike but for spans

/-- The actions differ in their spans at most. -/
inductive RuleAction.Alike {α : Type} : RuleAction α → RuleAction α → Prop where
  | step {s s' : Step α} (h : s'.unplaced = s.unplaced) : Alike (.step s) (.step s')
  | join {r r' : JoinRef α} (h : r'.unplaced = r.unplaced) : Alike (.join r) (.join r')
  | done (span span' : Span) : Alike (.done span) (.done span')

/-- The rules differ in their spans at most. -/
structure Rule.Alike {α : Type} (rule rule' : Rule α) : Prop where
  start : rule'.start.unplaced = rule.start.unplaced
  actions : List.Forall₂ RuleAction.Alike rule.actions rule'.actions

/-- The recipes differ in their spans at most. -/
structure RecipeSource.Alike (written written' : RecipeSource) : Prop where
  name : written'.name = written.name
  rules : List.Forall₂ Rule.Alike written.rules written'.rules

section Alike

variable {α : Type} {a a' b : RuleAction α} {rule rule' other : Rule α}

/-- Actions are alike in either order. -/
theorem RuleAction.Alike.symm (h : a.Alike a') : a'.Alike a := by
  cases h with
  | step h => exact .step h.symm
  | join h => exact .join h.symm
  | done span span' => exact .done span' span

/-- Actions that are like a third are alike. -/
theorem RuleAction.Alike.trans (h : a.Alike a') (h' : a'.Alike b) : a.Alike b := by
  cases h with
  | step h =>
      cases h' with
      | step h' => exact .step (h'.trans h)
  | join h =>
      cases h' with
      | join h' => exact .join (h'.trans h)
  | done span span' =>
      cases h' with
      | done _ span'' => exact .done span span''

theorem Rule.Alike.symm (h : rule.Alike rule') : rule'.Alike rule :=
  ⟨h.start.symm, h.actions.flip.imp fun _ _ ha => ha.symm⟩

theorem Rule.Alike.trans (h : rule.Alike rule') (h' : rule'.Alike other) : rule.Alike other := by
  refine ⟨h'.start.trans h.start, (forall₂_comp h.actions h'.actions).imp fun a b hboth => ?_⟩
  obtain ⟨c, hac, hcb⟩ := hboth
  exact hac.trans hcb

/-- Rules stay alike under actions that are alike. -/
theorem Rule.Alike.push (h : rule.Alike rule') (ha : a.Alike a') :
    (rule.push a).Alike (rule'.push a') :=
  ⟨h.start, List.rel_append h.actions (.cons ha .nil)⟩

end Alike

namespace RecipeSource.Alike

variable {written written' other : RecipeSource}

theorem symm (h : written.Alike written') : written'.Alike written :=
  ⟨h.name.symm, h.rules.flip.imp fun _ _ hrule => hrule.symm⟩

theorem trans (h : written.Alike written') (h' : written'.Alike other) : written.Alike other := by
  refine ⟨h'.name.trans h.name, (forall₂_comp h.rules h'.rules).imp fun rule rule' hboth => ?_⟩
  obtain ⟨middle, hfirst, hsecond⟩ := hboth
  exact hfirst.trans hsecond

/-- Recipes stay alike under rules that are alike. -/
theorem push {rule rule' : Rule String} (h : written.Alike written') (hrule : rule.Alike rule') :
    (written.push rule).Alike (written'.push rule') :=
  ⟨h.name, List.rel_append h.rules (.cons hrule .nil)⟩

end RecipeSource.Alike

-- ================================================ what is written again

variable {ls ls' : List Lexeme}

/-- What is spelled like an ingredient writes the same one. -/
theorem WritesIngredient.respell {i : Ingredient String} {span : Span}
    (h : WritesIngredient ls (i, span)) (hls : Respells ls ls') :
    ∃ span', WritesIngredient ls' (i, span') := by
  cases h with
  | bare w p =>
      obtain ⟨w', q, back, rfl, hw, hback⟩ := hls.word
      rw [hback.nil, ← hw]
      exact ⟨q.span, .bare w' q⟩
  | measured a w before p behind q =>
      obtain ⟨before', _, rfl, hamount⟩ := hls.sign rfl
      obtain ⟨a', p', _, rfl, ha, hbehind⟩ := hamount.word
      obtain ⟨behind', _, rfl, hname⟩ := hbehind.sign rfl
      obtain ⟨w', q', back, rfl, hw, hback⟩ := hname.word
      rw [hback.nil, ← ha, ← hw]
      exact ⟨p'.span, .measured a' w' before' p' behind' q'⟩

/-- What is spelled like several ingredients writes the same ones. -/
theorem WritesItems.respell {items : Items} (h : WritesItems ls items) (hls : Respells ls ls') :
    ∃ items', WritesItems ls' items' ∧ items'.map (·.1) = items.map (·.1) := by
  induction h generalizing ls' with
  | @one ls i hi =>
      obtain ⟨span, hi'⟩ := hi.respell hls
      exact ⟨[(i.1, span)], .one hi', rfl⟩
  | @more ls ls₁ items i p _ hi ih =>
      obtain ⟨front, _, rfl, hfront, hrest⟩ := hls.append
      obtain ⟨q, back, rfl, hback⟩ := hrest.sign rfl
      obtain ⟨items', hitems, hsame⟩ := ih hfront
      obtain ⟨span, hi'⟩ := hi.respell hback
      refine ⟨items' ++ [(i.1, span)], .more q hitems hi', ?_⟩
      rw [List.map_append, List.map_append, hsame]
      rfl

/-- The group of items holds their ingredients, wherever they stand. -/
theorem Items.ingredients_group {items items' : Items}
    (h : items'.map (·.1) = items.map (·.1)) :
    items'.group.ingredients = items.group.ingredients :=
  congrArg unique h

/-- What is spelled like a start writes the same one but for its span. -/
theorem WritesStart.respell {s : Start String} (h : WritesStart ls s) (hls : Respells ls ls') :
    ∃ s', WritesStart ls' s' ∧ s'.unplaced = s.unplaced := by
  cases h with
  | @group _ items hitems =>
      obtain ⟨items', hitems', hsame⟩ := hitems.respell hls
      refine ⟨_, .group hitems', ?_⟩
      rw [Start.unplaced, Start.unplaced, Group.unplaced, Group.unplaced,
        Items.ingredients_group hsame]
  | join name p =>
      obtain ⟨q, back, rfl, hback⟩ := hls.sign rfl
      rw [hback.nil]
      exact ⟨_, .join name q, rfl⟩

/-- What is spelled like an action writes one that is like it. -/
theorem WritesAction.respell {a : RuleAction String} (h : WritesAction ls a)
    (hls : Respells ls ls') : ∃ a', WritesAction ls' a' ∧ a.Alike a' := by
  cases h with
  | step w p =>
      obtain ⟨w', q, back, rfl, hw, hback⟩ := hls.word
      rw [hback.nil]
      refine ⟨_, .step w' q, .step ?_⟩
      rw [hw]
      rfl
  | @seasoned _ items w p q hitems =>
      obtain ⟨w', p', _, rfl, hw, hrest⟩ := hls.word
      obtain ⟨q', back, rfl, hback⟩ := hrest.sign rfl
      obtain ⟨items', hitems', hsame⟩ := hitems.respell hback
      refine ⟨_, .seasoned w' p' q' hitems', .step ?_⟩
      rw [hw, Items.ingredients_group hsame]
      rfl
  | join name p =>
      obtain ⟨q, back, rfl, hback⟩ := hls.sign rfl
      rw [hback.nil]
      exact ⟨_, .join name q, .join rfl⟩
  | done p =>
      obtain ⟨q, back, rfl, hback⟩ := hls.sign rfl
      rw [hback.nil]
      exact ⟨_, .done q, .done p.span q.span⟩

/-- What is spelled like a rule writes one that is like it. -/
theorem WritesRule.respell {rule : Rule String} (h : WritesRule ls rule)
    (hls : Respells ls ls') : ∃ rule', WritesRule ls' rule' ∧ rule.Alike rule' := by
  induction h generalizing ls' with
  | start hs =>
      obtain ⟨s', hs', hsame⟩ := hs.respell hls
      exact ⟨_, .start hs', hsame, .nil⟩
  | action p _ ha ih =>
      obtain ⟨front, _, rfl, hfront, hrest⟩ := hls.append
      obtain ⟨q, back, rfl, hback⟩ := hrest.sign rfl
      obtain ⟨rule', hrule, halike⟩ := ih hfront
      obtain ⟨a', ha', hsame⟩ := ha.respell hback
      exact ⟨_, .action q hrule ha', halike.push hsame⟩

/-- What is spelled like several rules writes rules like them. -/
theorem WritesRules.respell {written : RecipeSource} (h : WritesRules ls written)
    (hls : Respells ls ls') : ∃ written', WritesRules ls' written' ∧ written.Alike written' := by
  induction h generalizing ls' with
  | name w p q =>
      obtain ⟨w', p', _, rfl, hw, hrest⟩ := hls.word
      obtain ⟨q', back, rfl, hback⟩ := hrest.sign rfl
      rw [hback.nil]
      exact ⟨_, .name w' p' q', hw, .nil⟩
  | rule p _ hrule ih =>
      obtain ⟨front, _, rfl, hfront, hrest⟩ := hls.append
      obtain ⟨middle, _, rfl, hmiddle, hend⟩ := hrest.append
      obtain ⟨q, back, rfl, hback⟩ := hend.sign rfl
      obtain ⟨written', hwritten, halike⟩ := ih hfront
      obtain ⟨rule', hrule', hsame⟩ := hrule.respell hmiddle
      rw [hback.nil]
      exact ⟨_, .rule q hwritten hrule', halike.push hsame⟩

/-- Tokens that spell the same as those of a recipe write a recipe that
differs in its spans at most. -/
theorem WritesRecipe.respell {written : RecipeSource} (h : WritesRecipe ls written)
    (hls : Respells ls ls') : ∃ written', WritesRecipe ls' written' ∧ written.Alike written' := by
  cases h with
  | close p hrules =>
      obtain ⟨front, _, rfl, hfront, hend⟩ := hls.append
      obtain ⟨q, back, rfl, hback⟩ := hend.sign rfl
      obtain ⟨written', hwritten, halike⟩ := hrules.respell hfront
      rw [hback.nil]
      exact ⟨written', .close q hwritten, halike⟩

-- ============================================================ fragments

section Fragments

variable {α : Type}

/-- Actions that are alike fall into parts that are alike. -/
theorem RuleAction.Splits.alike {actions actions' : List (RuleAction α)} {body : List (Element α)}
    {finish : Option (Finish α)} (h : Splits actions body finish)
    (halike : List.Forall₂ RuleAction.Alike actions actions') :
    ∃ body' finish', Splits actions' body' finish'
      ∧ body'.map Element.unplaced = body.map Element.unplaced
      ∧ finish'.map Finish.unplaced = finish.map Finish.unplaced := by
  induction h generalizing actions' with
  | nil =>
      cases halike
      exact ⟨[], none, .nil, rfl, rfl⟩
  | join r =>
      cases halike with
      | cons ha hrest =>
          cases hrest
          cases ha with
          | @join _ r' hr => exact ⟨[], _, .join r', rfl, congrArg (some ∘ Finish.join) hr⟩
  | done span =>
      cases halike with
      | cons ha hrest =>
          cases hrest
          cases ha with
          | done _ span' => exact ⟨[], _, .done span', rfl, rfl⟩
  | step s _ ih =>
      cases halike with
      | cons ha hrest =>
          cases ha with
          | @step _ s' hs =>
              obtain ⟨body', finish', hsplits, hbody, hfinish⟩ := ih hrest
              refine ⟨_, finish', .step s' hsplits, ?_, hfinish⟩
              rw [List.map_cons, List.map_cons, hbody, Element.unplaced, Element.unplaced, hs]
  -- A join in the body is one because something follows it, and something does in both.
  | through r hne _ ih =>
      cases halike with
      | cons ha hrest =>
          cases ha with
          | @join _ r' hr =>
              obtain ⟨body', finish', hsplits, hbody, hfinish⟩ := ih hrest
              have hne' := mt (nil_iff_of_forall₂ hrest).1 hne
              refine ⟨_, finish', .through r' hne' hsplits, ?_, hfinish⟩
              rw [List.map_cons, List.map_cons, hbody, Element.unplaced, Element.unplaced, hr]

/-- A rule that is like one that writes a fragment writes one that differs
in its spans at most. -/
theorem Rule.Alike.fragment? {rule rule' : Rule α} {f : Fragment α} (h : rule.Alike rule')
    (hf : rule.fragment? = .ok f) : ∃ f', rule'.fragment? = .ok f' ∧ f'.unplaced = f.unplaced := by
  obtain ⟨hstart, hsplits⟩ := Rule.fragment?_eq_ok_iff.1 hf
  obtain ⟨body', finish', hsplits', hbody, hfinish⟩ := hsplits.alike h.actions
  refine ⟨⟨rule'.start, body', finish'⟩, Rule.fragment?_eq_ok_iff.2 ⟨rfl, hsplits'⟩, ?_⟩
  rw [Fragment.unplaced, Fragment.unplaced, h.start, hbody, hfinish, hstart]

/-- Rules that are alike are cut into fragments that differ in their spans
at most. -/
theorem fragments_of_alike {rules rules' : List (Rule α)} {fs : List (Fragment α)}
    (h : List.Forall₂ Rule.Alike rules rules') (hfs : rules.mapM Rule.fragment? = .ok fs) :
    ∃ fs', rules'.mapM Rule.fragment? = .ok fs'
      ∧ fs'.map Fragment.unplaced = fs.map Fragment.unplaced := by
  induction h generalizing fs with
  | nil =>
      cases hfs
      exact ⟨[], rfl, rfl⟩
  | cons hrule _ ih =>
      rw [mapM_eq_ok_iff] at hfs
      obtain _ | ⟨hf, hrest⟩ := hfs
      obtain ⟨f', hf', hsame⟩ := hrule.fragment? hf
      obtain ⟨fs', hfs', hall⟩ := ih (mapM_eq_ok_iff.2 hrest)
      refine ⟨f' :: fs', mapM_eq_ok_iff.2 (.cons hf' (mapM_eq_ok_iff.1 hfs')), ?_⟩
      rw [List.map_cons, List.map_cons, hsame, hall]

/-- If `<>` only ever ends a rule, then so it does in a recipe that is
alike. -/
theorem RecipeSource.Alike.doneIsLast {written written' : RecipeSource}
    (h : written.Alike written') (hdone : ∀ rule ∈ written.rules, rule.DoneIsLast) :
    ∀ rule ∈ written'.rules, rule.DoneIsLast := by
  obtain ⟨fs, hfs⟩ := exists_fragments_iff.2 hdone
  obtain ⟨fs', hfs', -⟩ := fragments_of_alike h.rules hfs
  exact exists_fragments_iff.1 ⟨fs', hfs'⟩

end Fragments

-- ============================================================== reading

/-- Two sources that write recipes that are alike are read alike: if one
gives a recipe then so does the other, the same but for the spans, and
leaves the same registry. -/
theorem Recipe.read_of_alike {source source' : List Char} {written written' : RecipeSource}
    (hread : RecipeSource.read source = .ok written)
    (hread' : RecipeSource.read source' = .ok written') (halike : written.Alike written')
    {r r' : Registry} {found : Recipe Handle} (h : Recipe.read source r = (.ok found, r')) :
    ∃ found', Recipe.read source' r = (.ok found', r') ∧ found'.unplaced = found.unplaced := by
  obtain ⟨texts, ⟨rules, hwritten, hfs⟩, r₁, hop, rfl⟩ := Recipe.read_eq_ok_iff.1 h
  cases hread.symm.trans hwritten
  obtain ⟨fs', hfs', hsame⟩ := fragments_of_alike halike.rules hfs
  have hname : written'.name = texts.name := halike.name
  have hwritten' : Recipe.IsWritten source' ⟨texts.name, fs'⟩ := by
    refine ⟨written'.rules, ?_, hfs'⟩
    rw [hread', ← hname]
  have htexts : Recipe.unplaced ⟨texts.name, fs'⟩ = texts.unplaced := by
    rw [Recipe.unplaced, Recipe.unplaced, hsame]
  obtain ⟨found', hop', hfound⟩ := Interning.recipe_of_unplaced_eq htexts hop
  exact ⟨found', Recipe.read_eq_ok_iff.2 ⟨_, hwritten', r₁, hop', rfl⟩, hfound⟩

/-- Where new texts are welcome, a sentence is read exactly if `<>` only
ever ends a rule, and else the `<>` is what it fails for. -/
theorem Recipe.read_of_written {source : List Char} {written : RecipeSource} {r : Registry}
    (hread : RecipeSource.read source = .ok written) (hr : r.frozen = false) :
    ((∀ rule ∈ written.rules, rule.DoneIsLast)
        ∧ ∃ found r', Recipe.read source r = (.ok found, r'))
      ∨ ((¬ ∀ rule ∈ written.rules, rule.DoneIsLast)
        ∧ ∃ span r', Recipe.read source r = (.error (.offence (.misplacedDone span)), r')) := by
  rcases hresult : Recipe.read source r with ⟨result, r'⟩
  cases ends_of_read hresult with
  | noSentence hnone => cases hread.symm.trans hnone
  | @misplaced _ pre post rule span _ hread' hrules _ hspan _ =>
      cases hread.symm.trans hread'
      refine .inr ⟨fun hdone => ?_, span, r', rfl⟩
      have hmem : rule ∈ written.rules := hrules ▸ List.mem_append_right _ List.mem_cons_self
      cases hspan.symm.trans (Rule.doneIsLast_iff.1 (hdone rule hmem))
  | refused _ hstops => exact absurd hstops (Registry.welcomes_of_not_frozen hr).not_stops
  | @found _ recipe r₁ hread' hdone _ =>
      cases hread.symm.trans hread'
      exact .inl ⟨fun rule hrule => Rule.doneIsLast_iff.2 (hdone rule hrule),
        recipe, r₁.freeze, rfl⟩

end RecipeChart
