/-
The order of the rules. What the rules claim, feed and pass through is
collected from them one by one, so rules in another order say the same of
each join, and the findings of the stitching, spans apart, are the same.

The order decides which claim of a join is the first. Where no join is
claimed twice, every passage that arrives somewhere is an edge, so the
graph is redrawn: the numbers of its vertices and edges are other ones,
and nothing else is. Then the findings of the analysis agree, and so do
the trees up to the order of their paths. Rules in which nothing is found
claim no join twice, so whether anything is found never depends on the
order.
-/
import RecipeChart.Proofs.FlowGraph.JoinFindings
import RecipeChart.Proofs.FlowGraph.Relabelling
import RecipeChart.Proofs.StepTree.Reordering
import RecipeChart.Proofs.Verdict

namespace RecipeChart

open FlowGraph

variable {α : Type} [DecidableEq α] {fs fs' : List (Fragment α)}

-- =============================================================== rules

theorem claimsOf_perm (h : fs.Perm fs') (name : α) :
    (claimsOf fs name).Perm (claimsOf fs' name) :=
  (h.flatMap_right Fragment.claims).filter _

theorem feedsOf_perm (h : fs.Perm fs') (name : α) : (feedsOf fs name).Perm (feedsOf fs' name) :=
  (h.flatMap_right Fragment.feeds).filter _

omit [DecidableEq α] in
theorem passagesOf_perm (h : fs.Perm fs') : (passagesOf fs).Perm (passagesOf fs') :=
  (h.filter Fragment.isFollowed).flatMap_right Fragment.passages

-- =========================================================== stitching

omit [DecidableEq α] in
/-- What is found on a join depends on the number of its claims and feeds
only, spans apart. -/
theorem map_joinProblems (name : α) (claims feeds : List (Option Span)) :
    (Draft.joinProblems name claims feeds).map Diagnostic.unplaced
      = Draft.joinProblems name (.replicate claims.length none)
        (.replicate feeds.length none) := by
  rw [← Diagnostic.relabel_id, map_relabel_joinProblems, List.map_const', List.map_const']
  rfl

/-- What is found on the join of this name, spans apart. -/
def joinFindings (fs : List (Fragment α)) (name : α) : List (Diagnostic α) :=
  Draft.joinProblems name (.replicate (claimsOf fs name).length none)
    (.replicate (feedsOf fs name).length none)

theorem joinFindings_perm (h : fs.Perm fs') (name : α) :
    joinFindings fs name = joinFindings fs' name := by
  rw [joinFindings, joinFindings, (claimsOf_perm h name).length_eq, (feedsOf_perm h name).length_eq]

theorem joinNames_perm (h : fs.Perm fs') : (joinNames fs).Perm (joinNames fs') := by
  refine (List.perm_ext_iff_of_nodup (wellFormed_graphOf fs).labelled.names
    (wellFormed_graphOf fs').labelled.names).2 fun name => ?_
  show name ∈ joinNames fs ↔ name ∈ joinNames fs'
  rw [mem_joinNames, mem_joinNames]
  simp only [ne_eq, ← List.length_eq_zero_iff, (claimsOf_perm h name).length_eq,
    (feedsOf_perm h name).length_eq]

/-- The problems of the joins, spans apart, are what is found on their
names. -/
theorem map_checkJoins (fs : List (Fragment α)) :
    (draftOf fs).checkJoins.map Diagnostic.unplaced
      = (joinNames fs).flatMap (joinFindings fs) := by
  rw [checkJoins_eq, List.map_flatMap]
  refine List.flatMap_congr fun name _ => ?_
  rw [map_joinProblems, List.length_map, List.length_map, joinFindings]

/-- What the stitching finds, spans apart, does not depend on the order of
the rules. -/
theorem stitch_problems_perm (h : fs.Perm fs') :
    ((stitch fs).2.map Diagnostic.unplaced).Perm ((stitch fs').2.map Diagnostic.unplaced) := by
  rw [stitch_problems, stitch_problems, List.map_append, List.map_append, map_checkJoins,
    map_checkJoins]
  refine ((h.flatMap_right Fragment.problems).map _).append ?_
  rw [funext (joinFindings_perm h)]
  exact (joinNames_perm h).flatMap_right _

-- =============================================================== graphs

omit [DecidableEq α] in
/-- Edges of one passage mirror each other. -/
theorem Draws.mirrors {g g' : FlowGraph α} {e e' : Edge α} {p : Passage α} (h : Draws g e p)
    (h' : Draws g' e' p) : Mirrors g g' e e' := by
  obtain ⟨t, ht, htarget⟩ := h.target
  obtain ⟨t', ht', htarget'⟩ := h'.target
  cases ht.symm.trans ht'
  exact ⟨h.actions.trans h'.actions.symm, ⟨_, h.source, h'.source⟩, ⟨_, htarget, htarget'⟩⟩

/-- Rules in another order draw the same graph, if they claim no join
twice. -/
theorem redrawn_of_perm (h : fs.Perm fs') (hclaims : ∀ name, (claimsOf fs name).length ≤ 1) :
    Redrawn (graphOf fs) (graphOf fs') := by
  have hclaims' : ∀ name, (claimsOf fs' name).length ≤ 1 := by
    intro name
    rw [← (claimsOf_perm h name).length_eq]
    exact hclaims name
  have hedges := rel_of_forall₂ (forall₂_edges hclaims)
  rw [Multiset.coe_eq_coe.2 ((passagesOf_perm h).filter _)] at hedges
  refine ⟨wellFormed_graphOf fs, wellFormed_graphOf fs', ?_⟩
  refine (rel_comp hedges (rel_of_forall₂ (forall₂_edges hclaims').flip)).mono
    fun e _ e' _ hpair => ?_
  obtain ⟨p, hdraws, hdraws'⟩ := hpair
  exact hdraws.mirrors hdraws'

-- ============================================================= verdicts

variable {v v' : Verdict α}

/-- Where no join is claimed twice, all that is found agrees. -/
theorem diagnostics_agree (h : fs.Perm fs') (hclaims : ∀ name, (claimsOf fs name).length ≤ 1)
    (hv : checkFragments fs = .ok v) (hv' : checkFragments fs' = .ok v') :
    Diagnostic.Agree v.diagnostics v'.diagnostics := by
  obtain ⟨hstitching, hanalysis⟩ := analysis_of_check hv
  obtain ⟨hstitching', hanalysis'⟩ := analysis_of_check hv'
  rw [Verdict.diagnostics, Verdict.diagnostics, hstitching, hstitching']
  refine .append (.of_perm (stitch_problems_perm h)) ?_
  exact (redrawn_of_perm h hclaims).analyze (stitched_draftOf fs).roots (stitched_draftOf fs').roots
    hanalysis hanalysis'

/-- Rules in which nothing is found are clean in any order. -/
theorem clean_of_perm (h : fs.Perm fs') (hv : checkFragments fs = .ok v)
    (hv' : checkFragments fs' = .ok v') (hclean : v.diagnostics = []) : v'.diagnostics = [] := by
  have hlinked := (sound_iff.1 (sound_of_clean hv hclean)).1
  exact (diagnostics_agree h hlinked.length_claims_le hv hv').nil_iff.1 hclean

/-- Rules without empty groups have a verdict in every order. The stitching
finds the same, spans apart. Nothing is found in one order exactly when
nothing is found in another, and then the trees are equal up to the order
of the paths at each node. Where no join is claimed twice, all that is
found agrees, up to spans and up to the place at which a loop is cut
open. -/
theorem checkFragments_perm (h : fs.Perm fs')
    (hgroups : ∀ f ∈ fs, ∀ group, f.start = .group group → group.ingredients ≠ []) :
    ∃ v v', checkFragments fs = .ok v ∧ checkFragments fs' = .ok v'
      ∧ (v.stitching.map Diagnostic.unplaced).Perm (v'.stitching.map Diagnostic.unplaced)
      ∧ (v.diagnostics = [] ↔ v'.diagnostics = [])
      ∧ (v.diagnostics = [] → ∃ t t', v.tree = some t ∧ v'.tree = some t' ∧ t.Reorders t'
          ∧ t.size = t'.size ∧ t.maxDepth = t'.maxDepth)
      ∧ ((∀ name, (claimsOf fs name).length ≤ 1) →
          Diagnostic.Agree v.diagnostics v'.diagnostics) := by
  obtain ⟨v, hv, htree⟩ := exists_verdict hgroups
  obtain ⟨v', hv', htree'⟩ := exists_verdict fun f hf => hgroups f (h.mem_iff.2 hf)
  refine ⟨v, v', hv, hv', ?_, ?_, fun hclean => ?_,
    fun hclaims => diagnostics_agree h hclaims hv hv'⟩
  · rw [(analysis_of_check hv).1, (analysis_of_check hv').1]
    exact stitch_problems_perm h
  · exact ⟨clean_of_perm h hv hv', clean_of_perm h.symm hv' hv⟩
  · have hlinked := (sound_iff.1 (sound_of_clean hv hclean)).1
    obtain ⟨f, roots, hbuilds, ht⟩ := htree hclean
    obtain ⟨f', roots', hbuilds', ht'⟩ := htree' (clean_of_perm h hv hv' hclean)
    have hflow := hbuilds.reorders hbuilds' (redrawn_of_perm h hlinked.length_claims_le)
      (wellFormed_graphOf fs).labelled.has_terminal (wellFormed_graphOf fs').labelled.has_terminal
    have hsame := hflow.finish.root
    exact ⟨_, _, ht, ht', hsame, hsame.size_eq, hsame.maxDepth_eq⟩

/-- Two joins that lead to each other, beside a dish that is done. -/
def carousel : List (Fragment String) :=
  [⟨.group ⟨[⟨"tea", none⟩], none⟩, [.step ⟨⟨"steep", []⟩, none⟩], some (.done none)⟩,
    ⟨.join ⟨"cup", none⟩, [.step ⟨⟨"stir", []⟩, none⟩], some (.join ⟨"pot", none⟩)⟩,
    ⟨.join ⟨"pot", none⟩, [.step ⟨⟨"pour", []⟩, none⟩], some (.join ⟨"cup", none⟩)⟩]

/-- The loop is cut open at the join that is mentioned first. -/
theorem diagnostics_carousel :
    Verdict.diagnostics <$> checkFragments carousel
        = .ok [.cycle (some "cup") [some "cup", some "pot", some "cup"] none]
      ∧ Verdict.diagnostics <$> checkFragments carousel.reverse
        = .ok [.cycle (some "pot") [some "pot", some "cup", some "pot"] none] := by
  constructor
  · decide +kernel
  · decide +kernel

/-- The pancakes have the same tree when their rules are read backwards,
and the carousel has the same loop. -/
theorem checkFragments_perm_pancakes :
    (∃ v v', checkFragments pancakes = .ok v ∧ checkFragments pancakes.reverse = .ok v'
        ∧ ∃ t t', v.tree = some t ∧ v'.tree = some t' ∧ t.Reorders t')
      ∧ ∃ v v', checkFragments carousel = .ok v ∧ checkFragments carousel.reverse = .ok v'
        ∧ v.diagnostics ≠ [] ∧ v.diagnostics ≠ v'.diagnostics
        ∧ Diagnostic.Agree v.diagnostics v'.diagnostics := by
  constructor
  · have hgroups : ∀ f ∈ pancakes, ∀ group, f.start = .group group → group.ingredients ≠ [] := by
      simp [pancakes]
    obtain ⟨v, v', hv, hv', -, -, htrees, -⟩ :=
      checkFragments_perm (List.reverse_perm pancakes).symm hgroups
    obtain ⟨w, hw, hclean⟩ := map_eq_ok_iff.1 diagnostics_pancakes
    cases hv.symm.trans hw
    obtain ⟨t, t', ht, ht', hsame, -, -⟩ := htrees hclean
    exact ⟨v, v', hv, hv', t, t', ht, ht', hsame⟩
  · have hgroups : ∀ f ∈ carousel, ∀ group, f.start = .group group → group.ingredients ≠ [] := by
      simp [carousel]
    have hclaims : ∀ name, (claimsOf carousel name).length ≤ 1 :=
      nodup_map_iff.1 (by decide : ((carousel.flatMap Fragment.claims).map (·.name)).Nodup)
    obtain ⟨v, v', hv, hv', -, -, -, hagree⟩ :=
      checkFragments_perm (List.reverse_perm carousel).symm hgroups
    obtain ⟨w, hw, hloop⟩ := map_eq_ok_iff.1 diagnostics_carousel.1
    obtain ⟨w', hw', hloop'⟩ := map_eq_ok_iff.1 diagnostics_carousel.2
    cases hv.symm.trans hw
    cases hv'.symm.trans hw'
    refine ⟨v, v', hv, hv', ?_, ?_, hagree hclaims⟩
    · rw [hloop]
      exact List.cons_ne_nil _ _
    · rw [hloop, hloop']
      decide

end RecipeChart
