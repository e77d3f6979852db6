/-
Everything that comes of a source can be shown. The registry that a
reading leaves answers for the handles of the recipe, and a check makes up
no others; so the recipe, the graph, the findings and the tree can all be
resolved. Three things are needed beyond that. The resolved graph is as
well formed as the graph was, since different handles stand for different
texts, so its listing meets every edge. A sentence that names joins is
about a finding that has them. And a tree that was assembled passes the
check of trees, so it can be laid out.

A chart alone can be refused, if its tree is too deep or its indentation
is too wide. There are sources with trees that are too deep.
-/
import RecipeChart.CommandLine
import RecipeChart.Proofs.Chart
import RecipeChart.Proofs.FlowGraph.Listing
import RecipeChart.Proofs.FlowGraph.Renaming
import RecipeChart.Proofs.LayerCake
import RecipeChart.Proofs.Provenance
import RecipeChart.Proofs.Recipe.Sharing

namespace RecipeChart

open FlowGraph

variable {α : Type}

-- ============================================================= findings

namespace Diagnostic

/-- Where the sentence on the finding names joins, are there joins? -/
def HasJoins : Diagnostic α → Prop
  | .dangling start _ _ => ∃ ref, start = .join ref
  | .cycle name loop _ => name ≠ none ∧ none ∉ loop
  | _ => True

theorem ne_none_of_mapM {ε β γ : Type} {f : β → Except ε γ} {name : Option β} {name' : Option γ}
    (h : name.mapM f = .ok name') (hname : name ≠ none) : name' ≠ none := by
  cases name with
  | none => exact absurd rfl hname
  | some b =>
      obtain ⟨c, -, rfl⟩ := map_eq_ok_iff.1 h
      exact Option.some_ne_none c

variable {ε β : Type} {f : α → Except ε β} {x : Diagnostic α} {x' : Diagnostic β}

/-- A finding keeps its joins when it is resolved. -/
theorem HasJoins.of_traverse (h : x.HasJoins) (ht : x.traverse f = .ok x') : x'.HasJoins := by
  cases x with
  | missingContinuation name s | duplicateContinuation name s | unknownJoin name s
  | orphan group s | disconnected group s =>
      obtain ⟨_, -, rfl⟩ := map_eq_ok_iff.1 ht
      trivial
  | emptyRecipe s =>
      cases ht
      trivial
  | dangling start actions s =>
      obtain ⟨ref, rfl⟩ := h
      obtain ⟨start', hstart, ht⟩ := bind_eq_ok_iff.1 ht
      obtain ⟨actions', -, ht⟩ := bind_eq_ok_iff.1 ht
      obtain ⟨ref', -, rfl⟩ := map_eq_ok_iff.1 hstart
      cases ht
      exact ⟨ref', rfl⟩
  | cycle name loop s =>
      obtain ⟨hname, hloop⟩ := h
      obtain ⟨name', hname', ht⟩ := bind_eq_ok_iff.1 ht
      obtain ⟨loop', hloop', ht⟩ := bind_eq_ok_iff.1 ht
      cases ht
      refine ⟨ne_none_of_mapM hname' hname, fun hnone => ?_⟩
      obtain ⟨b, hb, hnone⟩ := counterpart_of_mem_right (mapM_eq_ok_iff.1 hloop') hnone
      exact ne_none_of_mapM hnone (fun h => hloop (h ▸ hb)) rfl

theorem exists_loopJoin {name : Option String} (h : name ≠ none) :
    ∃ text, loopJoin name = .ok text := by
  cases name with
  | none => exact absurd rfl h
  | some name => exact ⟨joinText name, rfl⟩

/-- There is a sentence on a finding that has its joins. -/
theorem HasJoins.exists_text {x : Diagnostic String} (h : x.HasJoins) :
    ∃ sentence, x.text = .ok sentence := by
  cases x with
  | cycle name loop s =>
      obtain ⟨first, hfirst⟩ := exists_loopJoin h.1
      have hloop : ∀ name ∈ loop, ∃ text, loopJoin name = .ok text := fun name hname =>
        exists_loopJoin fun hnone => h.2 (hnone ▸ hname)
      obtain ⟨around, haround⟩ := exists_mapM_eq_ok hloop
      exact ⟨_, bind_eq_ok_iff.2 ⟨first, hfirst, bind_eq_ok_iff.2 ⟨around, haround, rfl⟩⟩⟩
  | _ => exact ⟨_, rfl⟩

theorem exists_report {problems : List (Diagnostic String)} (h : ∀ x ∈ problems, x.HasJoins) :
    ∃ text, report problems = .ok text := by
  obtain ⟨sentences, hsentences⟩ := exists_mapM_eq_ok fun x hx => (h x hx).exists_text
  exact ⟨reportOf sentences, map_eq_ok_iff.2 ⟨sentences, hsentences, rfl⟩⟩

end Diagnostic

/-- What is found in rules has its joins. -/
theorem Finds.hasJoins [DecidableEq α] {fs : List (Fragment α)} {x : Diagnostic α}
    (h : Finds fs x) : x.HasJoins := by
  cases h with
  | @dangling p ref _ howner => exact ⟨ref, howner⟩
  | loop _ => exact ⟨Option.some_ne_none _, by simp⟩
  | _ => trivial

theorem hasJoins_of_check [DecidableEq α] {fs : List (Fragment α)} {v : Verdict α}
    (hv : checkFragments fs = .ok v) : ∀ x ∈ v.diagnostics, x.HasJoins :=
  fun _ hx => (finds_of_check hv hx).hasJoins

-- ============================================================= resolving

variable {r : Registry} {fs : List (Fragment Handle)} {v : Verdict Handle}

/-- The graph of a check is listed, if the registry answers for it and
holds no text twice. -/
theorem exists_listing_of_check (hv : checkFragments fs = .ok v) (hr : r.strings.Nodup)
    (hminted : ∀ h ∈ v.handles, ∃ text, r.resolve h = .ok text) :
    ∃ g text blocks, v.graph.traverse r.resolve = .ok g ∧ g.listing = .ok text
      ∧ g.Shows text blocks := by
  obtain ⟨g, hg⟩ := FlowGraph.exists_traverse_iff.2 fun h hh =>
    hminted h (List.mem_append_left _ (List.mem_append_left _ hh))
  have hwell : g.WellFormed := by
    refine (renamed_of_traverse hg).wellFormed (Registry.resolve_injective hr) ?_
    rw [graph_of_check hv]
    exact wellFormed_graphOf fs
  obtain ⟨text, blocks, hlisting, hshows⟩ := hwell.exists_listing
  exact ⟨g, text, blocks, hg, hlisting, hshows⟩

/-- The findings of a check are reported, if the registry answers for
them. -/
theorem exists_report_of_check (hv : checkFragments fs = .ok v)
    (hminted : ∀ h ∈ v.handles, ∃ text, r.resolve h = .ok text) :
    ∃ problems text, v.diagnostics.mapM (Diagnostic.traverse r.resolve) = .ok problems
      ∧ Diagnostic.report problems = .ok text := by
  obtain ⟨problems, hproblems⟩ := exists_mapM_eq_ok fun x (hx : x ∈ v.diagnostics) =>
    Diagnostic.exists_traverse_iff.2 fun h hh => hminted h
      (List.mem_append_left _ (List.mem_append_right _ (List.mem_flatMap.2 ⟨x, hx, hh⟩)))
  obtain ⟨text, htext⟩ := Diagnostic.exists_report fun x' hx' => by
    obtain ⟨x, hx, hresolved⟩ := counterpart_of_mem_right (mapM_eq_ok_iff.1 hproblems) hx'
    exact (hasJoins_of_check hv x hx).of_traverse hresolved
  exact ⟨problems, text, hproblems, htext⟩

-- ========================================================== presentation

/-- All that can be shown of a recipe and of what a check made of it, with
the texts of the registry: the recipe, the graph with every edge, the
report on the findings, and of the tree its table and, within bounds on
depth and width, its chart in every form and style. -/
structure Presentable (r : Registry) (recipe : Recipe Handle) (v : Verdict Handle) : Prop where
  minted : ∀ h ∈ recipe.handles ++ v.handles, ∃ text, r.resolve h = .ok text
  texts : ∃ texts, recipe.traverse r.resolve = .ok texts
  graph : ∃ g text blocks, v.graph.traverse r.resolve = .ok g ∧ g.listing = .ok text
    ∧ g.Shows text blocks
  joins : ∀ x ∈ v.diagnostics, x.HasJoins
  report : ∃ problems text, v.diagnostics.mapM (Diagnostic.traverse r.resolve) = .ok problems
    ∧ Diagnostic.report problems = .ok text
  table : ∀ t ∈ v.tree, ∃ u table, t.traverse r.resolve = .ok u ∧ Table.ofTree u = .ok table
  chart : ∀ t ∈ v.tree, t.nesting ≤ Chart.mostNested → ∀ (d : Chart.Detail) (title : String)
    (e : JsonValue.Escaping) (indent : Option Nat), (∀ n ∈ indent, n < UInt64.size) →
      ∃ u c l text, t.traverse r.resolve = .ok u ∧ Chart.ofTree title u = .ok c
        ∧ Chart.layoutFor indent = .ok l ∧ c.exported d { escaping := e, layout := l } = .ok text

/-- A recipe that was read into a fresh registry is checked, and all that
comes of it can be shown. -/
theorem Recipe.presentable_of_read {source : List Char} {recipe : Recipe Handle} {r : Registry}
    (h : Recipe.read source .empty = (.ok recipe, r)) :
    ∃ v, recipe.check = .ok v ∧ Presentable r recipe v := by
  obtain ⟨v, hv, -⟩ := exists_verdict (ingredients_ne_nil_of_read Registry.honest_empty h)
  obtain ⟨texts, -, htexts⟩ := exists_of_read Registry.honest_empty h
  have hrecipe := Recipe.exists_traverse_iff.1 ⟨texts, htexts⟩
  have hminted : ∀ h ∈ v.handles, ∃ text, r.resolve h = .ok text := fun h hh =>
    hrecipe h (List.mem_cons_of_mem _ (mem_handlesOf_of_check hv hh))
  have hr : r.strings.Nodup := ((ends_of_read h).agrees Registry.agrees_empty).nodup
  have htree : ∀ t ∈ v.tree, ∃ u, t.traverse r.resolve = .ok u := fun t ht =>
    StepTree.exists_traverse_iff.2 fun h hh => hminted h
      (List.mem_append_right _ (List.mem_flatMap.2 ⟨t, Option.mem_toList.2 ht, hh⟩))
  refine ⟨v, hv, List.forall_mem_append.2 ⟨hrecipe, hminted⟩, ⟨texts, htexts⟩,
    exists_listing_of_check hv hr hminted, hasJoins_of_check hv, exists_report_of_check hv hminted,
    fun t ht => ?_, fun t ht hnested d title e indent hindent => ?_⟩
  · obtain ⟨u, hu⟩ := htree t ht
    obtain ⟨table, htable, -⟩ :=
      Table.contents_ofTree (StepTree.check_of_traverse (fits_of_tree hv ht) hu)
    exact ⟨u, table, hu, htable⟩
  · obtain ⟨u, hu⟩ := htree t ht
    obtain ⟨l, hl⟩ := Chart.exists_layoutFor hindent
    rw [← StepTree.nesting_of_traverse hu] at hnested
    exact ⟨u, ⟨title, u⟩, l, _, hu, Chart.ofTree_eq title u, hl,
      Chart.exported_eq_ok_iff.2 ⟨hnested, rfl⟩⟩

theorem Recipe.presentable_eggs :
    Recipe.read eggsSource .empty = (.ok eggs, eggsRegistry)
      ∧ ∃ v, eggs.check = .ok v ∧ Presentable eggsRegistry eggs v :=
  ⟨read_eggs, presentable_of_read read_eggs⟩

/-- A cake of many layers is read and checked, and nothing is wrong with
it; but its tree is too deep for any chart. An indentation can be too wide
for one as well. -/
theorem Recipe.not_exported_cake :
    (∃ recipe r v t u, Recipe.read (cakeSource 253) .empty = (.ok recipe, r)
      ∧ recipe.check = .ok v ∧ v.tree = some t ∧ t.traverse r.resolve = .ok u
      ∧ ∀ d title s, Chart.exported d ⟨title, u⟩ s = .error {})
      ∧ Chart.layoutFor (some UInt64.size) = .error .tooWide := by
  obtain ⟨recipe, r, v, t, hread, hv, ht, hdeep⟩ := exists_deep 253
  obtain ⟨texts, -, htexts⟩ := exists_of_read Registry.honest_empty hread
  have hrecipe := Recipe.exists_traverse_iff.1 ⟨texts, htexts⟩
  obtain ⟨u, hu⟩ := StepTree.exists_traverse_iff.2 fun h hh =>
    hrecipe h (List.mem_cons_of_mem _ (mem_handlesOf_of_tree hv ht hh))
  have hnot : ¬ u.nesting ≤ Chart.mostNested := by
    rw [StepTree.nesting_of_traverse hu, Nat.not_le]
    exact Nat.lt_of_lt_of_le (by decide) hdeep
  exact ⟨⟨recipe, r, v, t, u, hread, hv, ht, hu, fun d title s => if_neg hnot⟩, rfl⟩

-- ================================================================= runs

namespace CommandLine

variable {fs : List (Fragment String)} {v : Verdict String}

/-- The text of an analysis is made of every verdict on rules. -/
theorem exists_analysisText (hv : checkFragments fs = .ok v) :
    ∃ text, analysisText v = .ok text := by
  obtain ⟨graph, -, hgraph, -⟩ := (wellFormed_graphOf fs).exists_listing
  obtain ⟨report, hreport⟩ := Diagnostic.exists_report (hasJoins_of_check hv)
  rw [← graph_of_check hv] at hgraph
  refine ⟨graph ++ "\n" ++ report, ?_⟩
  rw [analysisText, hgraph, hreport]
  rfl

/-- A text is made of a tree that passes the check, or the chart that is
asked for is out of bounds. -/
theorem treeText_ne_broken (i : Invocation) (title : String) {t : StepTree String}
    (ht : t.check = .ok ()) (message : String) : treeText i title t ≠ .error (.broken message) := by
  obtain ⟨table, htable, -⟩ := Table.contents_ofTree ht
  unfold treeText
  split
  · nofun
  · rw [htable]
    nofun
  · rw [htable]
    nofun
  · rw [Chart.ofTree_eq]
    cases hlayout : JsonValue.Layout.indented i.jsonIndent with
    | error e => nofun
    | ok layout =>
        show (Chart.exported .brief ⟨title, t⟩ _).mapError _ ≠ _
        cases Chart.exported .brief ⟨title, t⟩ _ <;> nofun

theorem verdictText_ne_broken (i : Invocation) (title : String) (hv : checkFragments fs = .ok v)
    (message : String) : (verdictText i title v).2 ≠ .error (.broken message) := by
  unfold verdictText Verdict.intoTree
  split
  · obtain ⟨text, htext⟩ := exists_analysisText hv
    rw [htext]
    nofun
  · cases ht : v.tree with
    | some t => exact treeText_ne_broken i title (fits_of_tree hv ht) message
    | none =>
        obtain ⟨report, hreport⟩ := Diagnostic.exists_report (hasJoins_of_check hv)
        dsimp only
        rw [hreport]
        nofun

/-- No run breaks what is promised of a recipe that was read, whatever the
source and whatever is asked for. -/
theorem report_ne_broken (i : Invocation) (source message : String) :
    (report i source).result ≠ .error (.broken message) := by
  unfold report
  dsimp only
  split
  · nofun
  · next recipe r hread =>
    obtain ⟨texts, hwritten, htexts⟩ := Recipe.exists_of_read Registry.honest_empty hread
    obtain ⟨v, hv, -⟩ := exists_verdict hwritten.printable.ingredients_ne_nil
    have hcheck : texts.check = .ok v := hv
    simp only [htexts, recipeReport, hcheck]
    split
    · nofun
    · exact verdictText_ne_broken i texts.name hv message

end CommandLine

end RecipeChart
