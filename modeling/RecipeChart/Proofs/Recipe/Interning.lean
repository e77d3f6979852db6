/-
The texts of a recipe taken into a registry. A rule has its texts taken in
before it is cut into a fragment. Cutting looks at no text, so it might as
well come first: reading a recipe is finding the recipe that the source
writes, and taking in its texts.
-/
import RecipeChart.Proofs.Recipe.Visiting

namespace RecipeChart

-- =============================================================== visits

def Element.visits : Element String → List Visit
  | .step s => s.visits
  | .join j => j.visits

def Finish.visits : Finish String → List Visit
  | .join j => j.visits
  | .done _ => []

/-- What is done for a fragment is what is done for the rule that writes
it. -/
def Fragment.visits (f : Fragment String) : List Visit :=
  f.start.visits ++ (f.body.flatMap Element.visits ++ f.finish.toList.flatMap Finish.visits)

def Recipe.visits (texts : Recipe String) : List Visit :=
  texts.fragments.flatMap Fragment.visits ++ Part.recipe.visits [texts.name]

namespace Interning

open Registry

variable {β γ : Type}

-- ========================================================== fragments

/-- An element of a body, its texts taken in. -/
def element : Element String → Interning (Element Handle)
  | .step s => .step <$> step s
  | .join j => .join <$> join j

/-- A finish, its text taken in. -/
def finish : Finish String → Interning (Finish Handle)
  | .join j => .join <$> join j
  | .done span => return .done span

/-- The parts of a rule behind its start, their texts taken in. -/
def parts (body : List (Element String)) (last : Option (Finish String)) :
    Interning (List (Element Handle) × Option (Finish Handle)) := do
  let body ← body.mapM element
  let last ← last.mapM finish
  return (body, last)

/-- A fragment, its texts taken in as those of the rule that writes it. -/
def fragment (f : Fragment String) : Interning (Fragment Handle) := do
  let start ← start f.start
  let (body, last) ← parts f.body f.finish
  return ⟨start, body, last⟩

/-- A recipe, its texts taken in, its name last. -/
def recipe (texts : Recipe String) : Interning (Recipe Handle) := do
  let fragments ← texts.fragments.mapM fragment
  let name ← blame .recipe (Registry.intern texts.name)
  return ⟨name, fragments⟩

/-- An element of a printable fragment visits its texts and resolves to
itself. -/
theorem takes_element {e : Element String} (h : e.Printable) :
    Takes (element e) e.visits fun r b => b.traverse r.resolve = .ok e := by
  cases e with
  | step s =>
      refine (takes_step s).map fun r b hb => ?_
      rw [Element.traverse, hb h.seasonings.nodup]
      rfl
  | join j =>
      refine (takes_join j).map fun r b hb => ?_
      rw [Element.traverse, hb]
      rfl

/-- So does the end of a fragment. -/
theorem takes_finish (e : Finish String) :
    Takes (finish e) e.visits fun r b => b.traverse r.resolve = .ok e := by
  cases e with
  | join j =>
      refine (takes_join j).map fun r b hb => ?_
      rw [Finish.traverse, hb]
      rfl
  | done span => exact Takes.pure fun r => rfl

/-- So does an end that may be absent. -/
theorem takes_last (last : Option (Finish String)) :
    Takes (last.mapM finish) (last.toList.flatMap Finish.visits)
      fun r b => b.mapM (Finish.traverse r.resolve) = .ok last := by
  cases last with
  | none => exact Takes.pure fun r => rfl
  | some e =>
      rw [Option.toList_some, List.flatMap_singleton]
      refine (takes_finish e).map fun r b hb => ?_
      rw [Option.mapM_some, hb]
      rfl

/-- The actions of a fragment visit their texts in the order in which they
stand. -/
theorem takes_parts {body : List (Element String)} (hbody : ∀ e ∈ body, e.Printable)
    (last : Option (Finish String)) :
    Takes (parts body last) (body.flatMap Element.visits ++ last.toList.flatMap Finish.visits)
      fun r b => b.1.mapM (Element.traverse r.resolve) = .ok body
        ∧ b.2.mapM (Finish.traverse r.resolve) = .ok last := by
  refine (Takes.mapM fun e he => takes_element (hbody e he)).bind fun found =>
    (takes_last last).map fun r last' hlast hfound => ?_
  exact ⟨mapM_eq_ok_iff.2 hfound.flip, hlast⟩

/-- A printable fragment visits its texts and resolves to itself. -/
theorem takes_fragment {f : Fragment String} (h : f.Printable) :
    Takes (fragment f) f.visits fun r b => b.traverse r.resolve = .ok f := by
  refine (takes_start f.start).bind fun start =>
    (takes_parts h.body f.finish).map fun r found hfound hstart => ?_
  rw [Fragment.traverse, hstart]
  dsimp only [bind, Except.bind]
  rw [hfound.1, hfound.2]
  rfl

/-- The texts of a printable recipe are taken in so that the recipe can
be resolved to them. -/
theorem takes_recipe {texts : Recipe String} (h : texts.Printable) :
    Takes (recipe texts) texts.visits fun r b => b.traverse r.resolve = .ok texts := by
  refine (Takes.mapM fun f hf => takes_fragment (h.fragments f hf)).bind fun fragments =>
    (takes_text .recipe texts.name).map fun r name hname hfragments => ?_
  have hall : fragments.mapM (Fragment.traverse r.resolve) = .ok texts.fragments :=
    mapM_eq_ok_iff.2 hfragments.flip
  rw [Recipe.traverse, hname]
  dsimp only [bind, Except.bind]
  rw [hall]
  rfl

-- ================================================================ rules

variable {actions : List (RuleAction String)} {body : List (Element String)}
  {last : Option (Finish String)} {r r' : Registry}

/-- The actions of a fragment go through if its body does, and its end after
that. -/
theorem parts_ok_iff {body' : List (Element Handle)} {last' : Option (Finish Handle)} :
    parts body last r = (.ok (body', last'), r')
      ↔ ∃ r₁, body.mapM element r = (.ok body', r₁) ∧ last.mapM finish r₁ = (.ok last', r') := by
  unfold parts
  rw [bind_ok_iff]
  constructor
  · intro hrun
    obtain ⟨body', r₁, hbody, h⟩ := hrun
    obtain ⟨last', hlast, hpair⟩ := map_ok_iff.1 h
    cases hpair
    exact ⟨r₁, hbody, hlast⟩
  · intro hrun
    obtain ⟨r₁, hbody, hlast⟩ := hrun
    exact ⟨body', r₁, hbody, map_ok_iff.2 ⟨last', hlast, rfl⟩⟩

/-- Parts with one more element in front. -/
theorem parts_cons_ok_iff {e : Element String} {body' : List (Element Handle)}
    {last' : Option (Finish Handle)} :
    parts (e :: body) last r = (.ok (body', last'), r')
      ↔ ∃ e' rest r₁, element e r = (.ok e', r₁) ∧ parts body last r₁ = (.ok (rest, last'), r')
        ∧ body' = e' :: rest := by
  rw [parts_ok_iff]
  constructor
  · intro hrun
    obtain ⟨r₂, hbody, hlast⟩ := hrun
    obtain ⟨e', rest, r₁, he, hrest, rfl⟩ := mapM_cons_ok_iff.1 hbody
    exact ⟨e', rest, r₁, he, parts_ok_iff.2 ⟨r₂, hrest, hlast⟩, rfl⟩
  · intro hrun
    obtain ⟨e', rest, r₁, he, hparts, rfl⟩ := hrun
    obtain ⟨r₂, hrest, hlast⟩ := parts_ok_iff.1 hparts
    exact ⟨r₂, mapM_cons_ok_iff.2 ⟨e', rest, r₁, he, hrest, rfl⟩, hlast⟩

/-- A fragment that ends in a join without a body goes through with the join
alone. -/
theorem parts_join_ok_iff {j : JoinRef String} {body' : List (Element Handle)}
    {last' : Option (Finish Handle)} :
    parts [] (some (.join j)) r = (.ok (body', last'), r')
      ↔ ∃ j', join j r = (.ok j', r') ∧ body' = [] ∧ last' = some (.join j') := by
  rw [parts_ok_iff]
  constructor
  · intro hrun
    obtain ⟨r₁, hbody, hlast⟩ := hrun
    obtain ⟨rfl, rfl⟩ := mapM_nil_ok_iff.1 hbody
    obtain ⟨e', he, rfl⟩ := map_ok_iff.1 hlast
    obtain ⟨j', hj, rfl⟩ := map_ok_iff.1 he
    exact ⟨j', hj, rfl, rfl⟩
  · intro hrun
    obtain ⟨j', hj, rfl, rfl⟩ := hrun
    exact ⟨r, mapM_nil_ok_iff.2 ⟨rfl, rfl⟩,
      map_ok_iff.2 ⟨.join j', map_ok_iff.2 ⟨j', hj, rfl⟩, rfl⟩⟩

/-- Actions that fall into parts do so when their texts are taken in. -/
theorem splits_of_parts (h : RuleAction.Splits actions body last) {body' : List (Element Handle)}
    {last' : Option (Finish Handle)} (hop : parts body last r = (.ok (body', last'), r')) :
    ∃ actions', actions.mapM action r = (.ok actions', r')
      ∧ RuleAction.Splits actions' body' last' := by
  induction h generalizing body' last' r with
  | nil =>
      cases hop
      exact ⟨[], rfl, .nil⟩
  | join j =>
      obtain ⟨j', hj, rfl, rfl⟩ := parts_join_ok_iff.1 hop
      refine ⟨[.join j'], mapM_cons_ok_iff.2 ⟨.join j', [], r', ?_, rfl, rfl⟩, .join j'⟩
      exact map_ok_iff.2 ⟨j', hj, rfl⟩
  | done span =>
      cases hop
      exact ⟨[.done span], rfl, .done span⟩
  | step s _ ih =>
      obtain ⟨e, rest, r₁, he, hparts, rfl⟩ := parts_cons_ok_iff.1 hop
      obtain ⟨s', hs, rfl⟩ := map_ok_iff.1 he
      obtain ⟨actions', hactions, hsplits⟩ := ih hparts
      refine ⟨.step s' :: actions', mapM_cons_ok_iff.2 ⟨.step s', actions', r₁, ?_, hactions, rfl⟩,
        .step s' hsplits⟩
      exact map_ok_iff.2 ⟨s', hs, rfl⟩
  | @through actions body finish j hne _ ih =>
      obtain ⟨e, rest, r₁, he, hparts, rfl⟩ := parts_cons_ok_iff.1 hop
      obtain ⟨j', hj, rfl⟩ := map_ok_iff.1 he
      obtain ⟨actions', hactions, hsplits⟩ := ih hparts
      -- Only an empty list is taken in as an empty one.
      have hne' : actions' ≠ [] := by
        rintro rfl
        cases actions with
        | nil => exact hne rfl
        | cons a actions =>
            obtain ⟨_, _, _, -, -, hcons⟩ := mapM_cons_ok_iff.1 hactions
            cases hcons
      refine ⟨.join j' :: actions', mapM_cons_ok_iff.2 ⟨.join j', actions', r₁, ?_, hactions, rfl⟩,
        .through j' hne' hsplits⟩
      exact map_ok_iff.2 ⟨j', hj, rfl⟩

/-- Where something came of a list, it came of its first and of its rest. -/
theorem exists_of_mapM_cons {δ : Type} {op : δ → Interning β} {xs : List δ} {b : β} {bs : List β}
    (h : xs.mapM op r = (.ok (b :: bs), r')) :
    ∃ x rest r₁, xs = x :: rest ∧ op x r = (.ok b, r₁) ∧ rest.mapM op r₁ = (.ok bs, r') := by
  cases xs with
  | nil => cases (mapM_nil_ok_iff.1 h).1
  | cons x rest =>
      obtain ⟨b', bs', r₁, hx, hrest, hcons⟩ := mapM_cons_ok_iff.1 h
      cases hcons
      exact ⟨x, rest, r₁, rfl, hx, hrest⟩

/-- Nothing comes of nothing only. -/
theorem eq_nil_of_mapM_nil {δ : Type} {op : δ → Interning β} {xs : List δ}
    (h : xs.mapM op r = (.ok [], r')) : xs = [] ∧ r = r' := by
  cases xs with
  | nil => exact ⟨rfl, (mapM_nil_ok_iff.1 h).2⟩
  | cons x rest =>
      obtain ⟨_, _, _, -, -, hcons⟩ := mapM_cons_ok_iff.1 h
      cases hcons

/-- An action became a step because it is one. -/
theorem step_of_action {a : RuleAction String} {s' : Step Handle}
    (h : action a r = (.ok (.step s'), r')) : ∃ s, a = .step s ∧ step s r = (.ok s', r') := by
  cases a with
  | step s =>
      obtain ⟨_, hs, heq⟩ := map_ok_iff.1 h
      cases heq
      exact ⟨s, rfl, hs⟩
  | join j =>
      obtain ⟨_, -, heq⟩ := map_ok_iff.1 h
      cases heq
  | done span => cases (pure_ok_iff.1 h).1

/-- An action became a join because it is one. -/
theorem join_of_action {a : RuleAction String} {j' : JoinRef Handle}
    (h : action a r = (.ok (.join j'), r')) : ∃ j, a = .join j ∧ join j r = (.ok j', r') := by
  cases a with
  | step s =>
      obtain ⟨_, -, heq⟩ := map_ok_iff.1 h
      cases heq
  | join j =>
      obtain ⟨_, hj, heq⟩ := map_ok_iff.1 h
      cases heq
      exact ⟨j, rfl, hj⟩
  | done span => cases (pure_ok_iff.1 h).1

/-- An action became the finish because it is the finish, which takes in
nothing. -/
theorem done_of_action {a : RuleAction String} {span : Span}
    (h : action a r = (.ok (.done span), r')) : a = .done span ∧ r = r' := by
  cases a with
  | step s =>
      obtain ⟨_, -, heq⟩ := map_ok_iff.1 h
      cases heq
  | join j =>
      obtain ⟨_, -, heq⟩ := map_ok_iff.1 h
      cases heq
  | done span' =>
      obtain ⟨heq, hr⟩ := pure_ok_iff.1 h
      cases heq
      exact ⟨rfl, hr⟩

/-- Only actions that fall into parts do so when their texts are taken
in. -/
theorem parts_of_splits {actions' : List (RuleAction Handle)} {body' : List (Element Handle)}
    {last' : Option (Finish Handle)} (h : RuleAction.Splits actions' body' last')
    (hop : actions.mapM action r = (.ok actions', r')) :
    ∃ body last, RuleAction.Splits actions body last
      ∧ parts body last r = (.ok (body', last'), r') := by
  induction h generalizing actions r with
  | nil =>
      obtain ⟨rfl, rfl⟩ := eq_nil_of_mapM_nil hop
      exact ⟨[], none, .nil, rfl⟩
  | join j' =>
      obtain ⟨a, rest, r₁, rfl, ha, hrest⟩ := exists_of_mapM_cons hop
      obtain ⟨rfl, rfl⟩ := eq_nil_of_mapM_nil hrest
      obtain ⟨j, rfl, hj⟩ := join_of_action ha
      exact ⟨[], _, .join j, parts_join_ok_iff.2 ⟨j', hj, rfl, rfl⟩⟩
  | done span =>
      obtain ⟨a, rest, r₁, rfl, ha, hrest⟩ := exists_of_mapM_cons hop
      obtain ⟨rfl, rfl⟩ := eq_nil_of_mapM_nil hrest
      obtain ⟨rfl, rfl⟩ := done_of_action ha
      exact ⟨[], _, .done span, rfl⟩
  | step s' _ ih =>
      obtain ⟨a, rest, r₁, rfl, ha, hrest⟩ := exists_of_mapM_cons hop
      obtain ⟨s, rfl, hs⟩ := step_of_action ha
      obtain ⟨body, last, hsplits, hparts⟩ := ih hrest
      refine ⟨.step s :: body, last, .step s hsplits,
        parts_cons_ok_iff.2 ⟨_, _, r₁, ?_, hparts, rfl⟩⟩
      exact map_ok_iff.2 ⟨s', hs, rfl⟩
  | through j' hne _ ih =>
      obtain ⟨a, rest, r₁, rfl, ha, hrest⟩ := exists_of_mapM_cons hop
      obtain ⟨j, rfl, hj⟩ := join_of_action ha
      obtain ⟨body, last, hsplits, hparts⟩ := ih hrest
      -- That something follows an inner join shows before the texts are
      -- taken in.
      have hne' : rest ≠ [] := by
        rintro rfl
        exact hne (mapM_nil_ok_iff.1 hrest).1
      refine ⟨.join j :: body, last, .through j hne' hsplits,
        parts_cons_ok_iff.2 ⟨_, _, r₁, ?_, hparts, rfl⟩⟩
      exact map_ok_iff.2 ⟨j', hj, rfl⟩

/-- A rule whose texts were taken in writes a fragment exactly when the
rule as it stood did, and the fragment is that one with its texts taken
in. -/
theorem rule_fragment_iff {source : Rule String} {f' : Fragment Handle} :
    (∃ rule', rule source r = (.ok rule', r') ∧ rule'.fragment? = .ok f')
      ↔ ∃ f, source.fragment? = .ok f ∧ fragment f r = (.ok f', r') := by
  constructor
  · intro hrun
    obtain ⟨rule', hrule, hf⟩ := hrun
    obtain ⟨start', r₁, hstart, hrest⟩ := bind_ok_iff.1 hrule
    obtain ⟨actions', hactions, rfl⟩ := map_ok_iff.1 hrest
    obtain ⟨hsame, hsplits⟩ := Rule.fragment?_eq_ok_iff.1 hf
    obtain ⟨body, last, hsplits', hparts⟩ := parts_of_splits hsplits hactions
    refine ⟨⟨source.start, body, last⟩, Rule.fragment?_eq_ok_iff.2 ⟨rfl, hsplits'⟩,
      bind_ok_iff.2 ⟨start', r₁, hstart, bind_ok_iff.2 ⟨_, r', hparts, ?_⟩⟩⟩
    dsimp only at hsame
    rw [hsame]
    rfl
  · intro hrun
    obtain ⟨f, hf, hop⟩ := hrun
    obtain ⟨start', r₁, hstart, hrest⟩ := bind_ok_iff.1 hop
    obtain ⟨⟨body', last'⟩, r₂, hparts, hpure⟩ := bind_ok_iff.1 hrest
    cases hpure
    obtain ⟨hsame, hsplits⟩ := Rule.fragment?_eq_ok_iff.1 hf
    obtain ⟨actions', hactions, hsplits'⟩ := splits_of_parts hsplits hparts
    refine ⟨⟨start', actions'⟩, bind_ok_iff.2 ⟨start', r₁, ?_, map_ok_iff.2 ⟨_, hactions, rfl⟩⟩,
      Rule.fragment?_eq_ok_iff.2 ⟨rfl, hsplits'⟩⟩
    rw [hsame]
    exact hstart

end Interning

open Interning

/-- A fragment of a rule is found exactly when the rule writes a fragment
whose texts can be taken in. -/
theorem fragmentOf_ok_iff {source : Rule String} {r r' : Registry} {f' : Fragment Handle} :
    fragmentOf source r = (.ok f', r')
      ↔ ∃ f, source.fragment? = .ok f ∧ fragment f r = (.ok f', r') := by
  rw [← rule_fragment_iff, fragmentOf, Registry.bind_ok_iff]
  constructor
  · intro ⟨rule', r₁, hrule, h⟩
    cases hf : rule'.fragment? with
    | error span =>
        rw [hf] at h
        cases h
    | ok f =>
        rw [hf] at h
        cases h
        exact ⟨rule', hrule, hf⟩
  · intro ⟨rule', hrule, hf⟩
    refine ⟨rule', r', hrule, ?_⟩
    rw [hf]
    rfl

/-- So it is with the fragments of rules. -/
theorem mapM_fragmentOf_ok_iff {rules : List (Rule String)} {r r' : Registry}
    {found : List (Fragment Handle)} :
    rules.mapM fragmentOf r = (.ok found, r')
      ↔ ∃ fs, rules.mapM Rule.fragment? = .ok fs ∧ fs.mapM fragment r = (.ok found, r') := by
  induction rules generalizing r found with
  | nil =>
      constructor
      · intro h
        exact ⟨[], rfl, h⟩
      · intro ⟨fs, hfs, hop⟩
        cases hfs
        exact hop
  | cons source rules ih =>
      rw [Registry.mapM_cons_ok_iff]
      constructor
      · rintro ⟨f', rest, r₁, hrule, hrest, rfl⟩
        obtain ⟨f, hf, hop⟩ := fragmentOf_ok_iff.1 hrule
        obtain ⟨fs, hfs, hops⟩ := ih.1 hrest
        rw [mapM_eq_ok_iff] at hfs
        exact ⟨f :: fs, mapM_eq_ok_iff.2 (.cons hf hfs),
          Registry.mapM_cons_ok_iff.2 ⟨f', rest, r₁, hop, hops, rfl⟩⟩
      · intro ⟨fs, hfs, hops⟩
        cases mapM_eq_ok_iff.1 hfs with
        | @cons _ f _ fs hf htail =>
            obtain ⟨f', rest, r₁, hop, hrest, rfl⟩ := Registry.mapM_cons_ok_iff.1 hops
            exact ⟨f', rest, r₁, fragmentOf_ok_iff.2 ⟨f, hf, hop⟩,
              ih.2 ⟨fs, mapM_eq_ok_iff.2 htail, hrest⟩, rfl⟩

/-- A recipe goes through if its fragments do, and its name after them. -/
theorem recipe_ok_iff {texts : Recipe String} {r r' : Registry} {found : Recipe Handle} :
    Interning.recipe texts r = (.ok found, r')
      ↔ ∃ r₁, texts.fragments.mapM fragment r = (.ok found.fragments, r₁)
        ∧ Registry.intern texts.name r₁ = (.ok found.name, r') := by
  unfold Interning.recipe
  rw [Registry.bind_ok_iff]
  constructor
  · intro ⟨fragments, r₁, hfragments, h⟩
    obtain ⟨name, r₂, hname, hpure⟩ := Registry.bind_ok_iff.1 h
    cases hpure
    exact ⟨r₁, hfragments, blame_ok_iff.1 hname⟩
  · intro ⟨r₁, hfragments, hname⟩
    exact ⟨found.fragments, r₁, hfragments,
      Registry.bind_ok_iff.2 ⟨found.name, r', blame_ok_iff.2 hname, rfl⟩⟩

/-- Reading a recipe is finding the recipe that the source writes and
taking in its texts. -/
theorem Recipe.read_eq_ok_iff {source : List Char} {r r' : Registry} {found : Recipe Handle} :
    Recipe.read source r = (.ok found, r')
      ↔ ∃ texts : Recipe String, texts.IsWritten source
        ∧ ∃ r₁, Interning.recipe texts r = (.ok found, r₁) ∧ r' = r₁.freeze := by
  unfold Recipe.read
  constructor
  · intro h
    cases hread : RecipeSource.read source with
    | error place =>
        rw [hread] at h
        cases h
    | ok written =>
        rw [hread] at h
        obtain ⟨fragments, r₁, hfragments, h⟩ := Registry.bind_ok_iff.1 h
        obtain ⟨name, r₂, hname, h⟩ := Registry.bind_ok_iff.1 h
        cases h
        obtain ⟨fs, hfs, hops⟩ := mapM_fragmentOf_ok_iff.1 hfragments
        exact ⟨⟨written.name, fs⟩, ⟨written.rules, hread, hfs⟩, r₂,
          recipe_ok_iff.2 ⟨r₁, hops, blame_ok_iff.1 hname⟩, rfl⟩
  · rintro ⟨texts, ⟨rules, hread, hfs⟩, r₂, hop, rfl⟩
    obtain ⟨r₁, hops, hname⟩ := recipe_ok_iff.1 hop
    have hfragments := mapM_fragmentOf_ok_iff.2 ⟨texts.fragments, hfs, hops⟩
    rw [hread]
    exact Registry.bind_ok_iff.2 ⟨found.fragments, r₁, hfragments,
      Registry.bind_ok_iff.2 ⟨found.name, r₂, blame_ok_iff.2 hname, rfl⟩⟩

end RecipeChart
