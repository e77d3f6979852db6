/-
When a recipe is sound. The rules say so themselves, without a graph: each
of them arrives somewhere and one at the end, each join is carried on from
once and led into, and from each join one comes to the end, going from the
place where it is claimed to the next join that is mentioned there, and so
on. These are exactly the recipes in which a check finds nothing.
-/
import RecipeChart.Check
import RecipeChart.Proofs.FlowGraph.Analysing
import RecipeChart.Proofs.FlowGraph.Findings

namespace RecipeChart

open FlowGraph RecipeChart.Digraph Relation

variable {α : Type} [DecidableEq α] {fs : List (Fragment α)}

/-- From the join of this name one comes to the end: the passage that
carries on from it arrives there, or at a join from which one does. -/
inductive Arrives (fs : List (Fragment α)) : α → Prop where
  | done {f : Fragment α} {p : Passage α} {ref : JoinRef α} {span : Option Span} (hf : f ∈ fs)
      (hp : p ∈ f.passages) (howner : p.owner = .join ref)
      (htarget : p.target = some (.done span)) : Arrives fs ref.name
  | jump {f : Fragment α} {p : Passage α} {ref next : JoinRef α} (hf : f ∈ fs)
      (hp : p ∈ f.passages) (howner : p.owner = .join ref) (htarget : p.target = some (.join next))
      (hnext : Arrives fs next.name) : Arrives fs ref.name

/-- The rules make one dish. -/
structure Sound (fs : List (Fragment α)) : Prop where
  ends : ∀ f ∈ fs, f.isMention = true ∨ f.finish ≠ none
  done : ∃ f ∈ fs, ∃ span, f.finish = some (.done span)
  matched : ∀ name, Matched fs name
  arrives : ∀ name, claimsOf fs name ≠ [] ∨ feedsOf fs name ≠ [] → Arrives fs name

-- ================================================================ ways

/-- An edge for each passage, and a passage for each edge. -/
theorem Linked.exists_edge (h : Linked fs) {p : Passage α} (hp : p ∈ passagesOf fs) :
    ∃ e ∈ (graphOf fs).edges, Draws (graphOf fs) e p :=
  counterpart_of_mem_right h.edges hp

theorem Linked.exists_passage (h : Linked fs) {e : Edge α} (he : e ∈ (graphOf fs).edges) :
    ∃ p ∈ passagesOf fs, Draws (graphOf fs) e p :=
  counterpart_of_mem_left h.edges he

/-- The passage that carries on from a join is the edge out of its
vertex. -/
theorem Linked.exists_edge_of_join (h : Linked fs) {p : Passage α} {ref : JoinRef α} {i : Int}
    (hp : p ∈ passagesOf fs) (howner : p.owner = .join ref)
    (hi : (graphOf fs).Has i (.join ref.name)) :
    ∃ e ∈ (graphOf fs).edges, Draws (graphOf fs) e p ∧ e.source = i := by
  obtain ⟨e, he, hdraws⟩ := h.exists_edge hp
  have hsource := hdraws.source
  rw [howner] at hsource
  exact ⟨e, he, hdraws, (wellFormed_graphOf fs).labelled.unique_join hsource hi⟩

theorem Linked.complete (h : Linked fs) : (graphOf fs).Complete := by
  intro i kind hi hne
  cases kind with
  | terminal => exact absurd rfl hne
  | root group =>
      obtain ⟨e, he, hsource⟩ := List.mem_map.1 ((stitched_draftOf fs).roots i group hi)
      exact ⟨e.target, arrow_iff.2 ⟨e, he, hsource, rfl⟩⟩
  | join name =>
      have hclaims : claimsOf fs name ≠ [] := by
        have hmatched := h.matched name (has_join_iff.1 ⟨i, hi⟩)
        intro hnil
        rw [hnil] at hmatched
        cases hmatched.1
      obtain ⟨ref, href⟩ := List.exists_mem_of_ne_nil _ hclaims
      rw [claimsOf, ← filterMap_claim?_passagesOf, List.mem_filter, List.mem_filterMap,
        decide_eq_true_eq] at href
      obtain ⟨⟨p, hp, hclaim⟩, rfl⟩ := href
      have howner := Passage.claim?_eq_some_iff.1 hclaim
      obtain ⟨e, he, -, hsource⟩ := h.exists_edge_of_join hp howner hi
      exact ⟨e.target, arrow_iff.2 ⟨e, he, hsource, rfl⟩⟩

/-- A way in the graph from a join to the terminal is one in the rules. -/
theorem Linked.arrives_of_path (h : Linked fs) {i : Int} {name : α}
    (hi : (graphOf fs).Has i (.join name))
    (hpath : ReflTransGen (graphOf fs).digraph.Arrow i terminalId) : Arrives fs name := by
  have hlabelled := (wellFormed_graphOf fs).labelled
  induction hpath using ReflTransGen.head_induction_on generalizing name with
  | refl => cases hlabelled.unique hi hlabelled.has_terminal
  | head harrow _ ih =>
      obtain ⟨e, he, rfl, rfl⟩ := arrow_iff.1 harrow
      obtain ⟨p, hp, hdraws⟩ := h.exists_passage he
      obtain ⟨f, hf, -, hp⟩ := mem_passagesOf.1 hp
      obtain ⟨t, ht, htarget⟩ := hdraws.target
      have hkind := hlabelled.unique hdraws.source hi
      cases howner : p.owner with
      | group g =>
          rw [howner] at hkind
          cases hkind
      | join ref =>
          rw [howner] at hkind
          cases hkind
          cases t with
          | done span => exact .done hf hp howner ht
          | join next => exact .jump hf hp howner ht (ih htarget)

/-- A way in the rules from a join to the end is one in the graph. -/
theorem Linked.path_of_arrives (h : Linked fs) {i : Int} {name : α} (harrives : Arrives fs name)
    (hi : (graphOf fs).Has i (.join name)) :
    ReflTransGen (graphOf fs).digraph.Arrow i terminalId := by
  have hlabelled := (wellFormed_graphOf fs).labelled
  induction harrives generalizing i with
  | done hf hp howner htarget =>
      have hp' := mem_passagesOf_of_mem hf hp (by rw [htarget]; rfl)
      obtain ⟨e, he, hdraws, hsource⟩ := h.exists_edge_of_join hp' howner hi
      obtain ⟨t, ht, hhas⟩ := hdraws.target
      rw [htarget] at ht
      cases ht
      have hend := hlabelled.has_terminal_iff.1 hhas
      exact .single (arrow_iff.2 ⟨e, he, hsource, hend⟩)
  | jump hf hp howner htarget _ ih =>
      have hp' := mem_passagesOf_of_mem hf hp (by rw [htarget]; rfl)
      obtain ⟨e, he, hdraws, hsource⟩ := h.exists_edge_of_join hp' howner hi
      obtain ⟨t, ht, hhas⟩ := hdraws.target
      rw [htarget] at ht
      cases ht
      exact .head (arrow_iff.2 ⟨e, he, hsource, rfl⟩) (ih hhas)

-- ============================================================== verdict

/-- Of linked fragments, some way arrives exactly when one of them does. -/
theorem Linked.exists_arrow_terminal_iff (h : Linked fs) :
    (∃ i, (graphOf fs).digraph.Arrow i terminalId)
      ↔ ∃ f ∈ fs, ∃ span, f.finish = some (.done span) := by
  have hlabelled := (wellFormed_graphOf fs).labelled
  constructor
  · intro ⟨i, hi⟩
    obtain ⟨e, he, -, hend⟩ := arrow_iff.1 hi
    obtain ⟨p, hp, hdraws⟩ := h.exists_passage he
    obtain ⟨f, hf, -, hp⟩ := mem_passagesOf.1 hp
    obtain ⟨t, ht, htarget⟩ := hdraws.target
    rw [hend] at htarget
    cases t with
    | join ref => cases hlabelled.unique htarget hlabelled.has_terminal
    | done span =>
        refine ⟨f, hf, span, ?_⟩
        exact (f.exists_target_iff (x := some (.done span)) fun ref h => nomatch h).1 ⟨p, hp, ht⟩
  · intro ⟨f, hf, span, hfinish⟩
    obtain ⟨p, hp, ht⟩ :=
      (f.exists_target_iff (x := some (.done span)) fun ref h => nomatch h).2 hfinish
    have hp' := mem_passagesOf_of_mem hf hp (by rw [ht]; rfl)
    obtain ⟨e, he, hdraws⟩ := h.exists_edge hp'
    obtain ⟨t, ht', htarget⟩ := hdraws.target
    rw [ht] at ht'
    cases ht'
    exact ⟨e.source, arrow_iff.2 ⟨e, he, rfl, hlabelled.has_terminal_iff.1 htarget⟩⟩

/-- Of linked fragments, the graph is clear exactly when one of them
arrives at the end and every join leads there. -/
theorem Linked.clear_iff (h : Linked fs) :
    (graphOf fs).Clear
      ↔ (∃ f ∈ fs, ∃ span, f.finish = some (.done span))
        ∧ ∀ name, claimsOf fs name ≠ [] ∨ feedsOf fs name ≠ [] → Arrives fs name := by
  have hwell := wellFormed_graphOf fs
  rw [Clear, h.exists_arrow_terminal_iff]
  constructor
  · intro hclear
    obtain ⟨hends, -, hdone⟩ := hclear
    refine ⟨hdone, fun name hmention => ?_⟩
    obtain ⟨i, hi⟩ := has_join_iff.2 hmention
    have hend := hends i _ hi VertexKind.join_ne_terminal
    exact h.arrives_of_path hi ((hwell.ends_iff h.complete hi).1 hend)
  · intro hrules
    obtain ⟨hdone, harrives⟩ := hrules
    have hjoin : ∀ i name, (graphOf fs).Has i (.join name) →
        ReflTransGen (graphOf fs).digraph.Arrow i terminalId := by
      intro i name hi
      exact h.path_of_arrives (harrives name (has_join_iff.1 ⟨i, hi⟩)) hi
    -- A root has one edge, which leads to the end or to a join.
    have hroot : ∀ i group, (graphOf fs).Has i (.root group) →
        ReflTransGen (graphOf fs).digraph.Arrow i terminalId := by
      intro i group hi
      obtain ⟨j, hj⟩ := h.complete i _ hi VertexKind.root_ne_terminal
      obtain ⟨-, kind, hkind, hnone⟩ := hwell.has_of_arrow hj
      cases kind with
      | terminal =>
          rw [hwell.labelled.has_terminal_iff.1 hkind] at hj
          exact .single hj
      | join name => exact .head hj (hjoin j name hkind)
      | root group => cases hnone
    refine ⟨fun i kind hi hne => ?_, hroot, hdone⟩
    rw [hwell.ends_iff h.complete hi]
    cases kind with
    | terminal => exact absurd rfl hne
    | join name => exact hjoin i name hi
    | root group => exact hroot i group hi

theorem sound_iff : Sound fs ↔ Linked fs ∧ (graphOf fs).Clear := by
  constructor
  · intro h
    have hlinked : Linked fs := ⟨h.ends, h.matched⟩
    exact ⟨hlinked, hlinked.clear_iff.2 ⟨h.done, h.arrives⟩⟩
  · intro ⟨hlinked, hclear⟩
    obtain ⟨hdone, harrives⟩ := hlinked.clear_iff.1 hclear
    exact ⟨hlinked.ends, hdone, hlinked.matched, harrives⟩

/-- The analysis has a result, and nothing was found until then exactly
when the rules are sound; then there is a build order. -/
theorem analyze_stitch (fs : List (Fragment α)) :
    ∃ a, (stitch fs).1.analyze (stitch fs).2 = .ok a
      ∧ ((stitch fs).2 ++ a.diagnostics = [] ↔ Sound fs)
      ∧ a.order = if (stitch fs).2 ++ a.diagnostics = [] then some (graphOf fs).digraph.order
        else none := by
  have hstitched := stitched_draftOf fs
  have hcomplete : (stitch fs).2 = [] → (graphOf fs).Complete :=
    fun hnil => (stitch_problems_eq_nil_iff.1 hnil).complete
  obtain ⟨a, ha, hdiagnostics, horder⟩ :=
    hstitched.wellFormed.analyze_spec hstitched.roots hcomplete
  refine ⟨a, ha, ?_, horder⟩
  rw [List.append_eq_nil_iff, stitch_problems_eq_nil_iff, hdiagnostics, sound_iff]

end RecipeChart
