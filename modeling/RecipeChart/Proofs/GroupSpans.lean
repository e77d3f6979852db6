/-
The span of a group of ingredients. A group stands at the beginning of a
rule, and its first token is the first one of the rule: the name of its
first ingredient, or the bracket in front of the amount. The span of the
group is that of its first word. So it is the place of the first character
of the group if the first ingredient has no amount, and else the place of
the amount behind the bracket, which is a later one.

What is made of the group has the span of the group: the root, the edge
that leaves it, and the findings on the ingredients.
-/
import RecipeChart.Proofs.Origins
import RecipeChart.Proofs.Recipe.Locating

namespace RecipeChart

-- ================================================================ rules

/-- Does the token stand around rules, and never in one? -/
def Token.isAroundRules : Token → Bool
  | .openBrace | .closeBrace | .semicolon => true
  | _ => false

/-- The tokens from the beginning of each rule on. The flag tells whether a
rule may begin. -/
def ruleTails : (fresh : Bool) → List Lexeme → List (List Lexeme)
  | _, [] => []
  | fresh, l :: ls =>
    match l.token with
    | .openBrace | .semicolon => ruleTails true ls
    | .closeBrace => ruleTails false ls
    | _ => if fresh then (l :: ls) :: ruleTails false ls else ruleTails false ls

/-- A token that stands in a rule is its first where a rule may begin. -/
theorem ruleTails_cons {l : Lexeme} (h : l.token.isAroundRules = false) (fresh : Bool)
    (ls : List Lexeme) :
    ruleTails fresh (l :: ls)
      = if fresh then (l :: ls) :: ruleTails false ls else ruleTails false ls := by
  obtain ⟨t, p⟩ := l
  cases t
  case openBrace | closeBrace | semicolon => cases h
  all_goals rfl

/-- In a rule no other rule begins. -/
theorem ruleTails_append {ls : List Lexeme} (h : ∀ l ∈ ls, l.token.isAroundRules = false)
    (rest : List Lexeme) : ruleTails false (ls ++ rest) = ruleTails false rest := by
  induction ls with
  | nil => rfl
  | cons l ls ih =>
      rw [List.forall_mem_cons] at h
      rw [List.cons_append, ruleTails_cons h.1]
      exact ih h.2

/-- What begins at a rule goes on to the end of the source. -/
theorem ruleTails_suffix {fresh : Bool} {ls tail : List Lexeme} (h : tail ∈ ruleTails fresh ls) :
    tail <:+ ls := by
  induction ls generalizing fresh with
  | nil => cases h
  | cons l ls ih =>
      have hlater : ∀ {fresh}, tail ∈ ruleTails fresh ls → tail <:+ l :: ls := fun hmem =>
        (ih hmem).trans (List.suffix_cons l ls)
      rw [ruleTails] at h
      split at h
      · exact hlater h
      · exact hlater h
      · exact hlater h
      · split at h
        · rcases List.mem_cons.1 h with rfl | h
          · exact List.suffix_rfl
          · exact hlater h
        · exact hlater h

-- =========================================================== derivation

/-- No token of an ingredient stands around rules. -/
theorem WritesIngredient.inside {ls : List Lexeme} {i : Ingredient String × Span}
    (h : WritesIngredient ls i) : ∀ l ∈ ls, l.token.isAroundRules = false := by
  cases h <;> simp [Token.isAroundRules]

/-- No token of several ingredients does. -/
theorem WritesItems.inside {ls : List Lexeme} {items : Items} (h : WritesItems ls items) :
    ∀ l ∈ ls, l.token.isAroundRules = false := by
  induction h with
  | one hi => exact hi.inside
  | more p _ hi ih =>
      rw [List.forall_mem_append, List.forall_mem_cons]
      exact ⟨ih, rfl, hi.inside⟩

/-- No token of a start does. -/
theorem WritesStart.inside {ls : List Lexeme} {s : Start String} (h : WritesStart ls s) :
    ∀ l ∈ ls, l.token.isAroundRules = false := by
  cases h with
  | group hitems => exact hitems.inside
  | join name p => exact List.forall_mem_singleton.2 rfl

/-- No token of an action does. -/
theorem WritesAction.inside {ls : List Lexeme} {a : RuleAction String} (h : WritesAction ls a) :
    ∀ l ∈ ls, l.token.isAroundRules = false := by
  cases h with
  | step w p => exact List.forall_mem_singleton.2 rfl
  | seasoned w p q hitems =>
      rw [List.forall_mem_cons, List.forall_mem_cons]
      exact ⟨rfl, rfl, hitems.inside⟩
  | join name p => exact List.forall_mem_singleton.2 rfl
  | done p => exact List.forall_mem_singleton.2 rfl

/-- No token of a rule does, its semicolon apart. -/
theorem WritesRule.inside {ls : List Lexeme} {rule : Rule String} (h : WritesRule ls rule) :
    ∀ l ∈ ls, l.token.isAroundRules = false := by
  induction h with
  | start hstart => exact hstart.inside
  | action p _ ha ih =>
      rw [List.forall_mem_append, List.forall_mem_cons]
      exact ⟨ih, rfl, ha.inside⟩

/-- The tokens begin with those of the start. -/
def BeginsWith (s : Start String) (tail : List Lexeme) : Prop :=
  ∃ front back, tail = front ++ back ∧ WritesStart front s

/-- A rule begins with its start. -/
theorem WritesRule.beginsWith {ls : List Lexeme} {rule : Rule String} (h : WritesRule ls rule)
    (rest : List Lexeme) : BeginsWith rule.start (ls ++ rest) := by
  induction h generalizing rest with
  | @start ls s hstart => exact ⟨ls, rest, rfl, hstart⟩
  | action p _ _ ih =>
      rw [List.append_assoc]
      exact ih _

/-- A rule has a first token. -/
theorem WritesRule.exists_cons {ls : List Lexeme} {rule : Rule String} (h : WritesRule ls rule) :
    ∃ l rest, ls = l :: rest := by
  induction h with
  | start hstart =>
      cases hstart with
      | group hitems =>
          obtain ⟨⟨l, -, hfresh⟩, -⟩ := hitems.openers
          refine List.exists_cons_of_ne_nil fun hnil => ?_
          have hsome := hfresh []
          rw [hnil] at hsome
          cases hsome
      | join name p => exact ⟨_, [], rfl⟩
  | action p _ _ ih =>
      obtain ⟨l, rest, rfl⟩ := ih
      exact ⟨l, _, rfl⟩

/-- The rules begin where rules may begin, each with its start. -/
theorem WritesRules.ruleTails {ls : List Lexeme} {recipe : RecipeSource} (h : WritesRules ls recipe)
    (rest : List Lexeme) :
    ∃ tails, List.Forall₂ (fun rule tail => BeginsWith rule.start tail) recipe.rules tails
      ∧ ruleTails false (ls ++ rest) = tails ++ RecipeChart.ruleTails true rest := by
  induction h generalizing rest with
  | name w p q => exact ⟨[], .nil, rfl⟩
  | @rule ls ls' recipe rule p _ hrule ih =>
      obtain ⟨tails, htails, hsplit⟩ := ih (ls' ++ [⟨.semicolon, p⟩] ++ rest)
      obtain ⟨l, more, rfl⟩ := hrule.exists_cons
      have hinside := List.forall_mem_cons.1 hrule.inside
      refine ⟨tails ++ [l :: more ++ (⟨.semicolon, p⟩ :: rest)], ?_, ?_⟩
      · exact List.rel_append htails (.cons (hrule.beginsWith _) .nil)
      · rw [List.append_assoc, hsplit, List.append_assoc, List.append_assoc, List.cons_append,
          ruleTails_cons hinside.1, if_pos rfl, ruleTails_append hinside.2]
        rfl

/-- Each rule of a recipe begins with its start, at one of the places where
rules begin. -/
theorem WritesRecipe.ruleTails {ls : List Lexeme} {recipe : RecipeSource}
    (h : WritesRecipe ls recipe) :
    List.Forall₂ (fun rule tail => BeginsWith rule.start tail) recipe.rules
      (ruleTails false ls) := by
  cases h with
  | close p hrules =>
      obtain ⟨tails, htails, hsplit⟩ := hrules.ruleTails [⟨.closeBrace, p⟩]
      rw [hsplit]
      exact (List.append_nil tails).symm ▸ htails

-- =============================================================== groups

/-- The group is written from these tokens on. It has the span of the first
one, the name of its first ingredient; or the first one is a bracket, and
the group has the span of the next one, the amount. -/
inductive Group.WrittenBy (g : Group String) : List Lexeme → Prop where
  | bare {i : Ingredient String} {items : List (Ingredient String)} {l : Lexeme} {ls : List Lexeme}
      (hfirst : g.ingredients = i :: items) (hamount : i.amount = none)
      (hname : l.token.text = i.name.toList) (hspan : g.span = some l.place.span) :
      g.WrittenBy (l :: ls)
  | measured {i : Ingredient String} {items : List (Ingredient String)} {amount : String}
      {l l' : Lexeme} {ls : List Lexeme} (hfirst : g.ingredients = i :: items)
      (hamount : i.amount = some amount) (hbracket : l.token = .openBracket)
      (htext : l'.token.text = amount.toList) (hspan : g.span = some l'.place.span) :
      g.WrittenBy (l :: l' :: ls)

/-- More ingredients make no difference to where a group is written. -/
theorem WritesItems.writtenBy {ls : List Lexeme} {items : Items} (h : WritesItems ls items)
    (rest : List Lexeme) : items.group.WrittenBy (ls ++ rest) := by
  induction h generalizing rest with
  | one hi =>
      cases hi with
      | bare w p => exact .bare rfl rfl (toList_wordText w).symm rfl
      | measured a w before p behind q => exact .measured rfl rfl rfl (toList_wordText a).symm rfl
  | @more ls ls' items i p hitems hi ih =>
      obtain ⟨⟨first, span⟩, items, rfl⟩ := List.exists_cons_of_ne_nil hitems.ne_nil
      have hgroup : ∀ more : Items, (Items.group ((first, span) :: items ++ more)).ingredients
          = first :: unique ((items ++ more).map (·.1) |>.filter fun b => !b == first) :=
        fun more => unique_cons first _
      have hfew := hgroup []
      rw [List.append_nil] at hfew
      rw [List.append_assoc]
      have hwritten := ih (⟨.plus, p⟩ :: ls' ++ rest)
      generalize ls ++ (⟨.plus, p⟩ :: ls' ++ rest) = tail at hwritten
      cases hwritten with
      | bare hfirst hamount hname hspan =>
          cases (List.cons.inj (hfew.symm.trans hfirst)).1
          exact .bare (hgroup [i]) hamount hname hspan
      | measured hfirst hamount hbracket htext hspan =>
          cases (List.cons.inj (hfew.symm.trans hfirst)).1
          exact .measured (hgroup [i]) hamount hbracket htext hspan

/-- A group at the beginning of tokens is written there. -/
theorem BeginsWith.writtenBy {g : Group String} {tail : List Lexeme}
    (h : BeginsWith (.group g) tail) : g.WrittenBy tail := by
  obtain ⟨front, back, rfl, hstart⟩ := h
  cases hstart with
  | group hitems => exact hitems.writtenBy back

-- ================================================================ spans

namespace Recipe

/-- The rules of a source begin where its rules may begin, and the groups of
the recipe that was read resolve to those that are written there. -/
theorem groups_writtenBy {source : List Char} {r r' : Registry} {recipe : Recipe Handle}
    (hr : r.Honest) (h : Recipe.read source r = (.ok recipe, r')) :
    List.Forall₂ (fun f tail => ∀ g, f.start = .group g → ∃ texts : Group String,
        g.traverse r'.resolve = .ok texts ∧ texts.WrittenBy tail)
      recipe.fragments (ruleTails false (Scan.ofSource source).lexemes) := by
  obtain ⟨texts, hwritten, hresolve⟩ := exists_of_read hr h
  obtain ⟨ls, written, hderives, -, hrules⟩ := hwritten.derives
  obtain ⟨name, -, hresolve⟩ := bind_eq_ok_iff.1 hresolve
  obtain ⟨fragments, hfragments, hresolve⟩ := bind_eq_ok_iff.1 hresolve
  cases hresolve
  rw [hderives.read_eq.1]
  refine (forall₂_comp (mapM_eq_ok_iff.1 hfragments)
    (forall₂_comp hrules.flip hderives.writes.ruleTails)).imp fun f tail hpair g hstart => ?_
  obtain ⟨f', hfound, rule, ⟨hsame, -⟩, hbegins⟩ := hpair
  obtain ⟨group, hgroup, htexts⟩ := exists_group_of_traverse hfound hstart
  rw [← hsame, hgroup] at hbegins
  exact ⟨group, htexts, hbegins.writtenBy⟩

/-- The spans of groups. Rule by rule, a group of ingredients begins with
the first token of its rule. If its first ingredient has no amount, the
source goes on with the name there, and that is the span of the group. If
it has an amount, the group begins with a bracket; then the next token is
the amount, and the span of the group is where that stands, which is later
than the group begins. The root that is made of the group, the edge that
leaves the root, and the findings that the group reaches nothing or does
not arrive have the span of the group. -/
theorem group_spans {source : List Char} {r r' : Registry} {recipe : Recipe Handle}
    (hr : r.Honest) (h : Recipe.read source r = (.ok recipe, r')) :
    List.Forall₂ (fun f tail => ∀ g, f.start = .group g → ∃ texts i l ls,
        g.traverse r'.resolve = .ok texts ∧ texts.ingredients.head? = some i ∧ tail = l :: ls
        ∧ (i.amount = none → i.name.toList <+: source.drop l.place.offset
          ∧ g.span = some (spanAt source l.place.offset))
        ∧ ∀ amount, i.amount = some amount → ['['] <+: source.drop l.place.offset
          ∧ ∃ l' ls', ls = l' :: ls' ∧ amount.toList <+: source.drop l'.place.offset
            ∧ g.span = some (spanAt source l'.place.offset)
            ∧ (spanAt source l.place.offset).Before (spanAt source l'.place.offset))
      recipe.fragments (ruleTails false (Scan.ofSource source).lexemes)
    ∧ ∃ v, recipe.check = .ok v
      ∧ (∀ vertex ∈ v.graph.vertices, ∀ g, vertex.kind = .root g → vertex.span = g.span
        ∧ (∃ f ∈ recipe.fragments, f.start = .group g)
        ∧ ∀ e ∈ v.graph.edges, e.source = vertex.id → e.span = g.span)
      ∧ ∀ g span, .orphan g span ∈ v.diagnostics ∨ .disconnected g span ∈ v.diagnostics →
        span = g.span ∧ ∃ f ∈ recipe.fragments, f.start = .group g := by
  constructor
  -- In the source: a token stands at its place, and those of a rule begin with its group.
  -- Resolving the handles leaves the span of the group.
  · obtain ⟨texts, hwritten, -⟩ := exists_of_read hr h
    obtain ⟨hcuts, -⟩ := hwritten.openers
    refine (forall₂_mem_left (groups_writtenBy hr h).flip).flip.imp fun f tail hpair g hstart => ?_
    obtain ⟨htail, hgroups⟩ := hpair
    obtain ⟨group, htexts, hgroup⟩ := hgroups g hstart
    have hspan : group.span = g.span := by
      obtain ⟨items, -, htexts⟩ := bind_eq_ok_iff.1 htexts
      cases htexts
      rfl
    have hsuffix := ruleTails_suffix htail
    have hlocated : ∀ l ∈ tail, l.place.span = spanAt source l.place.offset
        ∧ l.token.text <+: source.drop l.place.offset := fun l hl =>
      hcuts.located (hsuffix.subset hl)
    have hordered := hcuts.pairwise_before.sublist hsuffix.sublist
    cases hgroup with
    | @bare i items l ls hfirst hamount hname hplace =>
        obtain ⟨hat, htext⟩ := hlocated l List.mem_cons_self
        refine ⟨group, i, l, ls, htexts, by rw [hfirst, List.head?_cons], rfl, fun _ => ⟨?_, ?_⟩,
          fun amount hsome => ?_⟩
        · rwa [← hname]
        · rw [← hspan, hplace, hat]
        · rw [hamount] at hsome
          cases hsome
    | @measured i items amount l l' ls hfirst hamount hbracket hname hplace =>
        obtain ⟨hat, htext⟩ := hlocated l List.mem_cons_self
        obtain ⟨hat', htext'⟩ := hlocated l' (List.mem_cons_of_mem l List.mem_cons_self)
        refine ⟨group, i, l, l' :: ls, htexts, by rw [hfirst, List.head?_cons], rfl,
          fun hnone => ?_, fun amount' hsome => ?_⟩
        · rw [hamount] at hnone
          cases hnone
        · rw [hamount] at hsome
          cases hsome
          rw [hbracket] at htext
          refine ⟨htext, l', ls, rfl, ?_, ?_, ?_⟩
          · rwa [← hname]
          · rw [← hspan, hplace, hat']
          · rw [← hat, ← hat']
            exact (List.pairwise_cons.1 hordered).1 l' List.mem_cons_self
  -- In the graph: roots and findings take the span over from the group.
  · obtain ⟨v, hv, -⟩ := exists_verdict (ingredients_ne_nil_of_read hr h)
    have hgraph : v.graph = graphOf recipe.fragments := graph_of_check hv
    refine ⟨v, hv, fun vertex hvertex g hkind => ?_, fun g span hfinding => ?_⟩
    · rw [hgraph] at hvertex ⊢
      obtain ⟨hspan, hstart⟩ := exists_start_of_root hvertex hkind
      refine ⟨hspan, hstart, fun e he hsource => span_of_edge he ?_⟩
      rw [hsource, ← hkind]
      exact FlowGraph.has_of_mem hvertex
    · rcases hfinding with hfinding | hfinding
      · cases finds_of_check hv hfinding with
        | orphan hf hstart => exact ⟨rfl, _, hf, hstart⟩
      · cases finds_of_check hv hfinding with
        | root hvertex hkind => exact exists_start_of_root hvertex hkind

/-- A group that begins with an amount, and one that does not. -/
def bracketSource : List Char := "r { [1] a -> <>; b; }".toList

def bracket : Recipe Handle where
  name := ⟨3⟩
  fragments :=
    [⟨.group ⟨[⟨⟨0⟩, some ⟨1⟩⟩], some ⟨1, 6⟩⟩, [], some (.done (some ⟨1, 14⟩))⟩,
      ⟨.group ⟨[⟨⟨2⟩, none⟩], some ⟨1, 18⟩⟩, [], none⟩]

def bracketRegistry : Registry where
  strings := ["a", "1", "b", "r"]
  canonicals := [.ingredient ⟨⟨0⟩, some ⟨1⟩⟩, .ingredient ⟨⟨2⟩, none⟩]
  frozen := true

theorem read_bracket : Recipe.read bracketSource .empty = (.ok bracket, bracketRegistry) := by
  decide +kernel

/-- The first group begins with a bracket and has the span of the amount
behind it, which is later. The other one reaches nothing, and that is
reported with its span. -/
theorem group_spans_bracket :
    Recipe.read bracketSource .empty = (.ok bracket, bracketRegistry)
      ∧ (∃ first amount, ['['] <+: bracketSource.drop first
        ∧ ['1'] <+: bracketSource.drop amount ∧ spanAt bracketSource amount = ⟨1, 6⟩
        ∧ (spanAt bracketSource first).Before ⟨1, 6⟩)
      ∧ ∃ v, bracket.check = .ok v
        ∧ ∀ g span, .orphan g span ∈ v.diagnostics ∨ .disconnected g span ∈ v.diagnostics →
          span = g.span ∧ ∃ f ∈ bracket.fragments, f.start = .group g := by
  obtain ⟨hrules, v, hv, -, hfindings⟩ := group_spans Registry.honest_empty read_bracket
  refine ⟨read_bracket, ?_, v, hv, hfindings⟩
  obtain ⟨tail, tails, hfirst, -, -⟩ := List.forall₂_cons_left_iff.1 hrules
  obtain ⟨texts, i, l, ls, htexts, hi, -, -, hmeasured⟩ := hfirst _ rfl
  have hgroup : Group.traverse bracketRegistry.resolve ⟨[⟨⟨0⟩, some ⟨1⟩⟩], some ⟨1, 6⟩⟩
      = .ok ⟨[⟨"a", some "1"⟩], some ⟨1, 6⟩⟩ := rfl
  cases htexts.symm.trans hgroup
  cases hi
  obtain ⟨hbracket, l', ls', -, hamount, hspan, hbefore⟩ := hmeasured "1" rfl
  rw [← Option.some_inj.1 hspan] at hbefore
  exact ⟨_, _, hbracket, hamount, (Option.some_inj.1 hspan).symm, hbefore⟩

end Recipe

end RecipeChart
