/-
The verdict is exact. A check finds something wrong exactly when the rules
are not sound. When they are, the tree is assembled, and the check has a
result if no group of ingredients is empty; a leaf without ingredients is
no node, and a check that meets one ends without a verdict.
-/
import RecipeChart.Proofs.FlowGraph.Soundness
import RecipeChart.Proofs.StepTree.Assembling

namespace RecipeChart

open FlowGraph RecipeChart.Digraph

variable {α : Type} [DecidableEq α] {fs : List (Fragment α)}

-- ============================================================ assembly

/-- The roots are groups that fragments start from. -/
theorem Linked.exists_start (h : Linked fs) {i : Int} {group : Group α}
    (hi : (graphOf fs).Has i (.root group)) : ∃ f ∈ fs, f.start = .group group := by
  obtain ⟨e, he, rfl⟩ := List.mem_map.1 ((stitched_draftOf fs).roots i group hi)
  obtain ⟨p, hp, hdraws⟩ := h.exists_passage he
  obtain ⟨f, hf, -, hp⟩ := mem_passagesOf.1 hp
  have howner := hdraws.owner_eq (wellFormed_graphOf fs).labelled hi
  exact ⟨f, hf, Fragment.start_of_owner hp howner⟩

/-- In the graph of sound rules something arrives at every vertex but the
roots. -/
theorem Sound.fed (h : Sound fs) : (graphOf fs).Fed := by
  have hlinked := (sound_iff.1 h).1
  intro i kind hi hnone
  cases kind with
  | root group => cases hnone
  | terminal =>
      rw [(wellFormed_graphOf fs).labelled.has_terminal_iff.1 hi]
      exact hlinked.exists_arrow_terminal_iff.2 h.done
  | join name =>
      have hfeeds := (h.matched name (has_join_iff.1 ⟨i, hi⟩)).2
      obtain ⟨ref, href⟩ := List.exists_mem_of_ne_nil _ hfeeds
      rw [feedsOf, ← filterMap_feed?_passagesOf, List.mem_filter, List.mem_filterMap,
        decide_eq_true_eq] at href
      obtain ⟨⟨p, hp, hfeed⟩, rfl⟩ := href
      obtain ⟨e, he, hdraws⟩ := hlinked.exists_edge hp
      obtain ⟨t, ht, htarget⟩ := hdraws.target
      rw [Passage.feed?_eq_some_iff.1 hfeed] at ht
      cases ht
      have hsame := (wellFormed_graphOf fs).labelled.unique_join htarget hi
      exact ⟨e.source, arrow_iff.2 ⟨e, he, rfl, hsame⟩⟩

/-- The build order of sound rules has every vertex, and edges lead
forward. -/
theorem Sound.order_spec (h : Sound fs) :
    (graphOf fs).digraph.order.Perm (graphOf fs).digraph.nodes
      ∧ Forward (graphOf fs).digraph.arrows (graphOf fs).digraph.order :=
  (wellFormed_graphOf fs).order_spec (sound_iff.1 h).2.1

-- ============================================================== verdict

theorem graph_of_check {v : Verdict α} (h : checkFragments fs = .ok v) : v.graph = graphOf fs := by
  obtain ⟨a, -, h⟩ := bind_eq_ok_iff.1 h
  obtain ⟨tree, -, h⟩ := bind_eq_ok_iff.1 h
  cases h
  rfl

/-- A verdict is on the stitched graph. -/
theorem analysis_of_check {v : Verdict α} (h : checkFragments fs = .ok v) :
    v.stitching = (stitch fs).2 ∧ (graphOf fs).analyze (stitch fs).2 = .ok v.analysis := by
  obtain ⟨a, ha, h⟩ := bind_eq_ok_iff.1 h
  obtain ⟨tree, -, h⟩ := bind_eq_ok_iff.1 h
  cases h
  exact ⟨rfl, ha⟩

/-- The verdict on rules that are not sound: problems, and neither an order
nor a tree. -/
theorem verdict_of_not_sound (h : ¬ Sound fs) :
    ∃ found, (stitch fs).2 ++ found ≠ []
      ∧ checkFragments fs = .ok ⟨(stitch fs).1, (stitch fs).2, ⟨found, none⟩, none⟩ := by
  obtain ⟨a, ha, hsound, horder⟩ := analyze_stitch fs
  have hfound : (stitch fs).2 ++ a.diagnostics ≠ [] := fun hnil => h (hsound.1 hnil)
  rw [if_neg hfound] at horder
  have hanalysis : a = ⟨a.diagnostics, none⟩ := by
    rw [← horder]
  rw [hanalysis] at ha
  exact ⟨a.diagnostics, hfound, bind_eq_ok_iff.2 ⟨_, ha, rfl⟩⟩

/-- What is wrong with rules that are not sound is found. -/
theorem check_of_not_sound (h : ¬ Sound fs) :
    ∃ v, checkFragments fs = .ok v ∧ v.diagnostics ≠ [] := by
  obtain ⟨found, hfound, hcheck⟩ := verdict_of_not_sound h
  exact ⟨_, hcheck, hfound⟩

/-- Rules in which nothing is found are sound. -/
theorem sound_of_clean {v : Verdict α} (h : checkFragments fs = .ok v)
    (hclean : v.diagnostics = []) : Sound fs := by
  by_contra hnot
  obtain ⟨v', hv', hne⟩ := check_of_not_sound hnot
  rw [h] at hv'
  cases hv'
  exact hne hclean

/-- The tree of sound rules is what their graph builds, if it passes the
check of trees. -/
theorem check_of_sound (h : Sound fs) :
    ∃ f roots, (graphOf fs).Builds terminalId f roots ∧ checkFragments fs
      = (StepTree.root f.finish).check >>= fun _ =>
        .ok ⟨graphOf fs, [], ⟨[], some (graphOf fs).digraph.order⟩,
          some (StepTree.root f.finish)⟩ := by
  obtain ⟨a, ha, hsound, horder⟩ := analyze_stitch fs
  have hclean := hsound.2 h
  rw [if_pos hclean] at horder
  obtain ⟨hstitch, hanalysis⟩ := List.append_eq_nil_iff.1 hclean
  obtain ⟨hperm, hforward⟩ := h.order_spec
  obtain ⟨f, roots, hbuilds, hassemble⟩ := (wellFormed_graphOf fs).assemble_eq hperm hforward
  refine ⟨f, roots, hbuilds, ?_⟩
  have hanalysis' : a = ⟨[], some (graphOf fs).digraph.order⟩ := by
    cases a
    cases hanalysis
    cases horder
    rfl
  show ((stitch fs).1.analyze (stitch fs).2 >>= fun analysis =>
    analysis.order.mapM (stitch fs).1.assemble >>= fun tree =>
      (.ok ⟨(stitch fs).1, (stitch fs).2, analysis, tree⟩ : Except Fault (Verdict α))) = _
  rw [ha, hstitch, hanalysis']
  show ((graphOf fs).assemble (graphOf fs).digraph.order >>= fun tree => _) >>= _ = _
  rw [hassemble]
  cases (StepTree.root f.finish).check <;> rfl

/-- Only rules that are sound have a tree. -/
theorem sound_of_tree {v : Verdict α} (hv : checkFragments fs = .ok v) {t : StepTree α}
    (ht : v.tree = some t) : Sound fs := by
  by_contra hnot
  obtain ⟨found, -, hcheck⟩ := verdict_of_not_sound hnot
  cases hv.symm.trans hcheck
  cases ht

/-- The tree of a verdict is what the graph builds, and passes the check of
trees. -/
theorem builds_of_tree {v : Verdict α} (hv : checkFragments fs = .ok v) {t : StepTree α}
    (ht : v.tree = some t) :
    ∃ f roots, (graphOf fs).Builds terminalId f roots ∧ t = StepTree.root f.finish
      ∧ t.check = .ok () := by
  obtain ⟨f, roots, hbuilds, hcheck⟩ := check_of_sound (sound_of_tree hv ht)
  rw [hv] at hcheck
  obtain ⟨_, hfits, hcheck⟩ := bind_eq_ok_iff.1 hcheck.symm
  cases hcheck
  cases ht
  exact ⟨f, roots, hbuilds, rfl, hfits⟩

theorem fits_of_tree {v : Verdict α} (hv : checkFragments fs = .ok v) {t : StepTree α}
    (ht : v.tree = some t) : t.check = .ok () := by
  obtain ⟨f, roots, -, -, hfits⟩ := builds_of_tree hv ht
  exact hfits

/-- The groups of the roots are groups of the rules. -/
theorem Sound.ingredients_ne_nil (h : Sound fs)
    (hgroups : ∀ f ∈ fs, ∀ group, f.start = .group group → group.ingredients ≠ []) {i : Int}
    {group : Group α} (hi : (graphOf fs).Has i (.root group)) : group.ingredients ≠ [] := by
  obtain ⟨f, hf, hstart⟩ := (sound_iff.1 h).1.exists_start hi
  exact hgroups f hf group hstart

/-- The verdict on sound rules without empty groups: no problem, an order,
and a tree that passes the check of trees. -/
theorem verdict_of_sound (h : Sound fs)
    (hgroups : ∀ f ∈ fs, ∀ group, f.start = .group group → group.ingredients ≠ []) :
    ∃ f roots, (graphOf fs).Builds terminalId f roots ∧ (StepTree.root f.finish).check = .ok ()
      ∧ checkFragments fs = .ok ⟨graphOf fs, [], ⟨[], some (graphOf fs).digraph.order⟩,
          some (StepTree.root f.finish)⟩ := by
  obtain ⟨f, roots, hbuilds, hcheck⟩ := check_of_sound h
  have hok := hbuilds.check_eq_ok h.fed fun i group hi => h.ingredients_ne_nil hgroups hi
  rw [hok] at hcheck
  exact ⟨f, roots, hbuilds, hok, hcheck⟩

/-- Rules without empty groups have a verdict, and rules in which nothing
is found a tree that their graph builds. -/
theorem exists_verdict
    (hgroups : ∀ f ∈ fs, ∀ group, f.start = .group group → group.ingredients ≠ []) :
    ∃ v, checkFragments fs = .ok v ∧ (v.diagnostics = [] → ∃ f roots,
      (graphOf fs).Builds terminalId f roots ∧ v.tree = some (StepTree.root f.finish)) := by
  by_cases hsound : Sound fs
  · obtain ⟨f, roots, hbuilds, -, hcheck⟩ := verdict_of_sound hsound hgroups
    exact ⟨_, hcheck, fun _ => ⟨f, roots, hbuilds, rfl⟩⟩
  · obtain ⟨v, hv, hne⟩ := check_of_not_sound hsound
    exact ⟨v, hv, fun hclean => absurd hclean hne⟩

/-- Where no group is empty, nothing is found by the check if nothing is found
by the stitching and by each part of the analysis. -/
theorem diagnostics_eq_nil
    (hgroups : ∀ f ∈ fs, ∀ group, f.start = .group group → group.ingredients ≠ [])
    (hstitch : (stitch fs).2 = []) (hcycles : (stitch fs).1.cycles = .ok [])
    (hdisconnected : (stitch fs).1.disconnected = [])
    (hempty : (stitch fs).1.emptiness = .ok []) :
    Verdict.diagnostics <$> checkFragments fs = .ok [] := by
  obtain ⟨v, hv, -⟩ := exists_verdict hgroups
  obtain ⟨hstitching, hanalysis⟩ := analysis_of_check hv
  obtain ⟨loops, empty, hloops, hnone, hfound⟩ := findings_of_analyze hanalysis
  cases hcycles.symm.trans hloops
  cases hempty.symm.trans hnone
  have hclean : v.diagnostics = [] := by
    rw [Verdict.diagnostics, hstitching, hstitch, hfound]
    show [] ++ ([] ++ (stitch fs).1.disconnected ++ []) = []
    rw [hdisconnected]
    rfl
  exact map_eq_ok_iff.2 ⟨v, hv, hclean⟩

/-- A check finds something exactly in rules that are not sound. It has a
result whenever no group is empty, and then finds nothing exactly in rules
that are sound. -/
theorem checkFragments_exact (fs : List (Fragment α)) :
    ((∃ v, checkFragments fs = .ok v ∧ v.diagnostics ≠ []) ↔ ¬ Sound fs)
      ∧ ((∀ f ∈ fs, ∀ group, f.start = .group group → group.ingredients ≠ []) →
        ∃ v, checkFragments fs = .ok v ∧ (v.diagnostics = [] ↔ Sound fs)) := by
  constructor
  · constructor
    · intro ⟨v, hv, hne⟩ hsound
      obtain ⟨f, roots, -, hcheck⟩ := check_of_sound hsound
      rw [hcheck] at hv
      obtain ⟨-, -, hv⟩ := bind_eq_ok_iff.1 hv
      cases hv
      exact hne rfl
    · exact check_of_not_sound
  · intro hgroups
    by_cases hsound : Sound fs
    · obtain ⟨f, roots, hbuilds, hcheck⟩ := check_of_sound hsound
      have hroots : ∀ i group, (graphOf fs).Has i (.root group) → group.ingredients ≠ [] := by
        intro i group hi
        obtain ⟨f, hf, hstart⟩ := (sound_iff.1 hsound).1.exists_start hi
        exact hgroups f hf group hstart
      have hok := hbuilds.check_eq_ok hsound.fed hroots
      rw [hok] at hcheck
      exact ⟨_, hcheck, fun _ => hsound, fun _ => rfl⟩
    · obtain ⟨v, hv, hne⟩ := check_of_not_sound hsound
      exact ⟨v, hv, fun hnil => absurd hnil hne, fun h => absurd h hsound⟩

/-- Two rules that meet in a bowl, and one that carries on from there and
passes another join. -/
def pancakes : List (Fragment String) :=
  [⟨.group ⟨[⟨"egg", some "2"⟩], none⟩, [.step ⟨⟨"beat", []⟩, none⟩], some (.join ⟨"bowl", none⟩)⟩,
    ⟨.group ⟨[⟨"flour", none⟩, ⟨"milk", none⟩], none⟩, [.step ⟨⟨"stir", []⟩, none⟩],
      some (.join ⟨"bowl", none⟩)⟩,
    ⟨.join ⟨"bowl", none⟩, [.step ⟨⟨"mix", [⟨"salt", none⟩]⟩, none⟩, .join ⟨"batter", none⟩,
      .step ⟨⟨"fry", []⟩, none⟩], some (.done none)⟩]

theorem diagnostics_pancakes : Verdict.diagnostics <$> checkFragments pancakes = .ok [] :=
  diagnostics_eq_nil (by simp [pancakes]) (by decide +kernel) (by decide +kernel)
    (by decide +kernel) (by decide +kernel)

/-- The pancakes have a verdict. -/
theorem checkFragments_exact_pancakes :
    (∀ f ∈ pancakes, ∀ group, f.start = .group group → group.ingredients ≠ [])
      ∧ ∃ v, checkFragments pancakes = .ok v ∧ (v.diagnostics = [] ↔ Sound pancakes) := by
  have hgroups : ∀ f ∈ pancakes, ∀ group, f.start = .group group → group.ingredients ≠ [] := by
    simp [pancakes]
  exact ⟨hgroups, (checkFragments_exact pancakes).2 hgroups⟩

end RecipeChart
