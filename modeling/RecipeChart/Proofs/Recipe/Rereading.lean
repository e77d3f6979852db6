/-
What the tokens of a printed recipe write. Tokens that are those of a
printed part, up to the blanks in their words and wherever they stand,
write that part again: trimming gives back each text, dropping repeats
drops nothing, and the parts of a rule fall apart into the body and the
finish that were printed. Only the places are new, so the recipe that is
written agrees with the printed one in everything but its spans.
-/
import RecipeChart.Proofs.Recipe.Printing
import RecipeChart.Recipe.Unplaced

namespace RecipeChart

-- ============================================================ spellings

/-- The lexemes are these tokens, up to the blanks in their words. -/
def Spells (ls : List Lexeme) (ts : List Token) : Prop := ls.map (·.token.trimmed) = ts

/-- Is the token a word? -/
def Token.isWord : Token → Bool
  | .word _ => true
  | _ => false

theorem Spells.nil {ls : List Lexeme} (h : Spells ls []) : ls = [] := List.map_eq_nil_iff.1 h

theorem Spells.append {ls : List Lexeme} {ts ts' : List Token} (h : Spells ls (ts ++ ts')) :
    ∃ front back, ls = front ++ back ∧ Spells front ts ∧ Spells back ts' :=
  List.map_eq_append_iff.1 h

/-- A token without spelling is found as it is. -/
theorem Spells.cons {ls : List Lexeme} {t : Token} {ts : List Token} (h : Spells ls (t :: ts))
    (ht : t.isWord = false) : ∃ p back, ls = ⟨t, p⟩ :: back ∧ Spells back ts := by
  obtain ⟨⟨t', p⟩, back, rfl, htoken, hback⟩ := List.map_eq_cons_iff.1 h
  refine ⟨p, back, ?_, hback⟩
  cases t'
  case word w =>
    rw [← htoken] at ht
    cases ht
  all_goals rw [← htoken]; rfl

/-- A word is found in a spelling that it is trimmed from. -/
theorem Spells.exists_word {ls : List Lexeme} {cs : List Char} {ts : List Token}
    (h : Spells ls (.word cs :: ts)) :
    ∃ w p back, ls = ⟨.word w, p⟩ :: back ∧ Text.trim w = cs ∧ Spells back ts := by
  obtain ⟨⟨t, p⟩, back, rfl, htoken, hback⟩ := List.map_eq_cons_iff.1 h
  cases t
  case word w => exact ⟨w, p, back, rfl, Token.word.inj htoken, hback⟩
  all_goals cases htoken

theorem Spells.word {ls : List Lexeme} {text : String} {ts : List Token}
    (h : Spells ls (.word text.toList :: ts)) :
    ∃ w p back, ls = ⟨.word w, p⟩ :: back ∧ wordText w = text ∧ Spells back ts := by
  obtain ⟨w, p, back, rfl, htrim, hback⟩ := h.exists_word
  exact ⟨w, p, back, rfl, by rw [wordText, htrim, String.ofList_toList], hback⟩

-- ========================================================== ingredients

/-- The tokens of an ingredient write it. -/
theorem writesIngredient_of_spells {ls : List Lexeme} {i : Ingredient String}
    (h : Spells ls i.tokens) : ∃ span, WritesIngredient ls (i, span) := by
  obtain ⟨name, amount⟩ := i
  cases amount with
  | none =>
      obtain ⟨w, p, back, rfl, rfl, hback⟩ := h.word
      rw [hback.nil]
      exact ⟨p.span, .bare w p⟩
  | some amount =>
      obtain ⟨before, _, rfl, hamount⟩ := h.cons rfl
      obtain ⟨a, p, _, rfl, rfl, hbehind⟩ := hamount.word
      obtain ⟨behind, _, rfl, hname⟩ := hbehind.cons rfl
      obtain ⟨w, q, back, rfl, rfl, hback⟩ := hname.word
      rw [hback.nil]
      exact ⟨p.span, .measured a w before p behind q⟩

theorem writesItems_of_spells {items : List (Ingredient String)} {ls ls' : List Lexeme}
    {found : Items} (h : WritesItems ls found)
    (hls : Spells ls' (items.flatMap (.plus :: ·.tokens))) :
    ∃ more, WritesItems (ls ++ ls') (found ++ more) ∧ more.map (·.1) = items := by
  induction items generalizing ls ls' found with
  | nil =>
      rw [hls.nil, List.append_nil]
      exact ⟨[], (List.append_nil found).symm ▸ h, rfl⟩
  | cons i items ih =>
      obtain ⟨p, _, rfl, hitems⟩ := hls.cons rfl
      obtain ⟨front, back, rfl, hfront, hback⟩ := hitems.append
      obtain ⟨span, hi⟩ := writesIngredient_of_spells hfront
      obtain ⟨more, hmore, hitems⟩ := ih (.more p h hi) hback
      rw [List.append_assoc, List.append_assoc] at hmore
      exact ⟨(i, span) :: more, hmore, by rw [List.map_cons, hitems]⟩

/-- The tokens of ingredients write a group of them. -/
theorem writesGroup_of_spells {ls : List Lexeme} {items : List (Ingredient String)}
    (hne : items ≠ []) (hnodup : items.Nodup) (h : Spells ls (ingredientsTokens items)) :
    ∃ found : Items, WritesItems ls found ∧ found.group.ingredients = items := by
  cases items with
  | nil => exact absurd rfl hne
  | cons i items =>
      obtain ⟨front, back, rfl, hfront, hback⟩ := h.append
      obtain ⟨span, hi⟩ := writesIngredient_of_spells hfront
      obtain ⟨more, hmore, rfl⟩ := writesItems_of_spells (.one hi) hback
      exact ⟨_, hmore, unique_eq_self hnodup⟩

-- ================================================================ rules

theorem writesStart_of_spells {ls : List Lexeme} {s : Start String} (hs : s.Printable)
    (h : Spells ls s.tokens) : ∃ s', WritesStart ls s' ∧ s'.unplaced = s.unplaced := by
  cases s with
  | group g =>
      obtain ⟨found, hfound, hgroup⟩ :=
        writesGroup_of_spells hs.nonempty hs.ingredients.nodup h
      refine ⟨_, .group hfound, ?_⟩
      rw [Start.unplaced, Start.unplaced, Group.unplaced, Group.unplaced, hgroup]
  | join r =>
      obtain ⟨p, back, rfl, hback⟩ := h.cons rfl
      rw [hback.nil]
      refine ⟨_, .join r.name.toList p, ?_⟩
      rw [String.ofList_toList]
      rfl

theorem writesStep_of_spells {ls : List Lexeme} {a : Action String} (ha : a.Printable)
    (h : Spells ls a.tokens) : ∃ span, WritesAction ls (.step ⟨a, some span⟩) := by
  obtain ⟨description, seasonings⟩ := a
  cases seasonings with
  | nil =>
      obtain ⟨w, p, back, rfl, rfl, hback⟩ := h.word
      rw [hback.nil]
      exact ⟨p.span, .step w p⟩
  | cons i items =>
      obtain ⟨w, p, _, rfl, rfl, hseasonings⟩ := h.word
      obtain ⟨q, back, rfl, hback⟩ := hseasonings.cons rfl
      obtain ⟨found, hfound, hgroup⟩ :=
        writesGroup_of_spells (List.cons_ne_nil i items) ha.seasonings.nodup hback
      have hstep := WritesAction.seasoned w p q hfound
      rw [hgroup] at hstep
      exact ⟨p.span, hstep⟩

theorem writesJoin_of_spells {ls : List Lexeme} {r : JoinRef String}
    (h : Spells ls [.join r.name.toList]) :
    ∃ r', WritesAction ls (.join r') ∧ r'.unplaced = r.unplaced := by
  obtain ⟨p, back, rfl, hback⟩ := h.cons rfl
  rw [hback.nil]
  refine ⟨_, .join r.name.toList p, ?_⟩
  rw [String.ofList_toList]
  rfl

/-- The actions are written behind the rule, and fall into a body and a
finish that agree with these. -/
def Continues (ls ls' : List Lexeme) (rule : Rule String) (body : List (Element String))
    (finish : Option (Finish String)) : Prop :=
  ∃ actions body' finish', WritesRule (ls ++ ls') ⟨rule.start, rule.actions ++ actions⟩
    ∧ RuleAction.Splits actions body' finish'
    ∧ body'.map Element.unplaced = body.map Element.unplaced
    ∧ finish'.map Finish.unplaced = finish.map Finish.unplaced

/-- The last part of a rule is written as its finish. -/
theorem continues_finish {ls ls' : List Lexeme} {rule : Rule String}
    {finish : Option (Finish String)} (h : WritesRule ls rule)
    (hls : Spells ls' (finish.toList.flatMap (.arrow :: ·.tokens))) :
    Continues ls ls' rule [] finish := by
  cases finish with
  | none =>
      rw [hls.nil]
      refine ⟨[], [], none, ?_, .nil, rfl, rfl⟩
      rw [List.append_nil, List.append_nil]
      exact h
  | some e =>
      rw [Option.toList_some, List.flatMap_singleton] at hls
      obtain ⟨p, _, rfl, hpart⟩ := hls.cons rfl
      cases e with
      | join r =>
          obtain ⟨r', hr, hname⟩ := writesJoin_of_spells hpart
          refine ⟨[.join r'], [], _, .action p h hr, .join r', rfl, ?_⟩
          rw [Option.map_some, Option.map_some, Finish.unplaced, Finish.unplaced, hname]
      | done span =>
          obtain ⟨q, back, rfl, hback⟩ := hpart.cons rfl
          rw [hback.nil]
          exact ⟨[.done q.span], [], _, .action p h (.done q), .done q.span, rfl, rfl⟩

/-- The parts of a rule are written as its body and its finish, where a
join that stands last is the finish. -/
theorem continues_of_spells {body : List (Element String)} {finish : Option (Finish String)}
    (hbody : ∀ e ∈ body, e.Printable)
    (hclosed : finish = none → ∀ e ∈ body.getLast?, e.isJoin = false) :
    ∀ {ls ls' : List Lexeme} {rule : Rule String}, WritesRule ls rule →
      Spells ls' (body.flatMap (.arrow :: ·.tokens) ++ finish.toList.flatMap (.arrow :: ·.tokens)) →
      Continues ls ls' rule body finish := by
  induction body with
  | nil => exact fun h hls => continues_finish h hls
  | cons e body ih =>
      intro ls ls' rule h hls
      rw [List.forall_mem_cons] at hbody
      rw [List.flatMap_cons, List.cons_append, List.cons_append] at hls
      obtain ⟨p, _, rfl, hparts⟩ := hls.cons rfl
      rw [List.append_assoc] at hparts
      obtain ⟨front, back, rfl, hfront, hback⟩ := hparts.append
      have hrest : finish = none → ∀ e ∈ body.getLast?, e.isJoin = false := by
        intro hnone e' he'
        cases body with
        | nil => cases he'
        | cons d body => exact hclosed hnone e' he'
      cases e with
      | step s =>
          obtain ⟨span, hs⟩ := writesStep_of_spells hbody.1 hfront
          obtain ⟨actions, body', finish', hrule, hsplits, hb, hf⟩ :=
            ih hbody.2 hrest (.action p h hs) hback
          refine ⟨.step ⟨s.action, some span⟩ :: actions, _, finish', ?_, .step _ hsplits, ?_, hf⟩
          · rw [List.append_assoc, Rule.push, List.append_assoc] at hrule
            exact hrule
          · rw [List.map_cons, List.map_cons, hb]
            rfl
      | join r =>
          obtain ⟨r', hr, hname⟩ := writesJoin_of_spells hfront
          obtain ⟨actions, body', finish', hrule, hsplits, hb, hf⟩ :=
            ih hbody.2 hrest (.action p h hr) hback
          have hne : actions ≠ [] := by
            -- a join with nothing behind it would be the finish
            rintro rfl
            cases hsplits
            rw [List.map_nil, eq_comm, List.map_eq_nil_iff] at hb
            rw [Option.map_none, eq_comm, Option.map_eq_none_iff] at hf
            subst hb
            exact absurd (hclosed hf _ rfl) Bool.noConfusion
          refine ⟨.join r' :: actions, _, finish', ?_, .through r' hne hsplits, ?_, hf⟩
          · rw [List.append_assoc, Rule.push, List.append_assoc] at hrule
            exact hrule
          · rw [List.map_cons, List.map_cons, hb, Element.unplaced, Element.unplaced, hname]

/-- The tokens of a fragment write a rule for it. -/
theorem writesRule_of_spells {ls : List Lexeme} {f : Fragment String} (hf : f.Printable)
    (h : Spells ls f.tokens) :
    ∃ front p rule f', ls = front ++ [⟨.semicolon, p⟩] ∧ WritesRule front rule
      ∧ rule.fragment? = .ok f' ∧ f'.unplaced = f.unplaced := by
  obtain ⟨start, _, rfl, hstart, hrest⟩ := h.append
  rw [← List.append_assoc] at hrest
  obtain ⟨parts, _, rfl, hparts, hend⟩ := hrest.append
  obtain ⟨p, back, rfl, hback⟩ := hend.cons rfl
  obtain ⟨s, hs, hsame⟩ := writesStart_of_spells hf.start hstart
  obtain ⟨actions, body, finish, hrule, hsplits, hb, he⟩ :=
    continues_of_spells hf.body hf.closed (.start hs) hparts
  refine ⟨start ++ parts, p, ⟨s, actions⟩, ⟨s, body, finish⟩, ?_, hrule,
    Rule.fragment?_eq_ok_iff.2 ⟨rfl, hsplits⟩, ?_⟩
  · rw [hback.nil, List.append_assoc]
  · rw [Fragment.unplaced, Fragment.unplaced, hsame, hb, he]

-- ============================================================== recipes

/-- The tokens of fragments write rules for them behind the rules before
them. -/
theorem writesRules_of_spells {fragments : List (Fragment String)}
    (hprintable : ∀ f ∈ fragments, f.Printable) :
    ∀ {ls ls' : List Lexeme} {recipe : RecipeSource}, WritesRules ls recipe →
      Spells ls' (fragments.flatMap Fragment.tokens) →
      ∃ rules found, WritesRules (ls ++ ls') ⟨recipe.name, recipe.rules ++ rules⟩
        ∧ rules.mapM Rule.fragment? = .ok found
        ∧ found.map Fragment.unplaced = fragments.map Fragment.unplaced := by
  induction fragments with
  | nil =>
      intro ls ls' recipe h hls
      refine ⟨[], [], ?_, rfl, rfl⟩
      rw [hls.nil, List.append_nil, List.append_nil]
      exact h
  | cons f fragments ih =>
      intro ls ls' recipe h hls
      rw [List.forall_mem_cons] at hprintable
      obtain ⟨front, back, rfl, hfront, hback⟩ := hls.append
      obtain ⟨front, p, rule, f', rfl, hrule, hf, hsame⟩ :=
        writesRule_of_spells hprintable.1 hfront
      obtain ⟨rules, found, hrules, hfound, hall⟩ := ih hprintable.2 (.rule p h hrule) hback
      refine ⟨rule :: rules, f' :: found, ?_, ?_, ?_⟩
      · simp only [RecipeSource.push, List.append_assoc, List.cons_append, List.nil_append]
          at hrules ⊢
        exact hrules
      · rw [mapM_eq_ok_iff] at hfound ⊢
        exact .cons hf hfound
      · rw [List.map_cons, List.map_cons, hsame, hall]

/-- A printable recipe is written by its printed form, up to its spans. -/
theorem Recipe.Printable.isWritten {texts : Recipe String} (h : texts.Printable) :
    ∃ texts' : Recipe String, texts'.IsWritten texts.text.toList
      ∧ texts'.unplaced = texts.unplaced := by
  obtain ⟨ls, hscan, hls⟩ := Recipe.scan_text h
  have hspells : Spells ls texts.tokens := hls
  obtain ⟨w, p, _, rfl, hname, hbrace⟩ := hspells.word
  obtain ⟨q, _, rfl, hrest⟩ := hbrace.cons rfl
  obtain ⟨front, _, rfl, hfront, hend⟩ := hrest.append
  obtain ⟨p', back, rfl, hback⟩ := hend.cons rfl
  obtain ⟨rules, found, hrules, hfound, hsame⟩ :=
    writesRules_of_spells h.fragments (.name w p q) hfront
  refine ⟨⟨texts.name, found⟩, ⟨rules, RecipeSource.read_eq_ok_iff.2 ?_, hfound⟩, ?_⟩
  · rw [hscan]
    refine ⟨rfl, ?_⟩
    rw [hback.nil, ← hname]
    exact .close p' hrules
  · rw [Recipe.unplaced, Recipe.unplaced, hsame]

end RecipeChart
