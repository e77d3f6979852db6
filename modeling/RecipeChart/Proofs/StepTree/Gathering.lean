/-
The tree told from the rules. What flows out of a vertex is told from the
graph by the edges that enter it. In a recipe that is free of problems the
edges are the passages of the rules, and the ends of an edge are known by
their kind, so it is told from the passages as well: a group flows as its
ingredients, and a join, or the end, as what the passages that arrive
there carry in, merged in the order of the rules. No number of a vertex
has a part in it.

There is one such flow, so rules have the same tree whenever their
passages carry the same into the end, whatever graphs they draw.
-/
import RecipeChart.Proofs.Verdict

namespace RecipeChart

open FlowGraph

variable {α : Type} [DecidableEq α]

-- ============================================================ gathering

/-- Does the passage arrive at a vertex of this kind? -/
def Passage.enters (p : Passage α) (kind : VertexKind α) : Bool :=
  p.target.map Finish.kind = some kind

/-- The flow out of the vertex of this kind, told from the passages. -/
inductive Gathers (ps : List (Passage α)) : VertexKind α → Flow α → Prop where
  | root {group : Group α} : Gathers ps (.root group) ⟨[], .group group.ingredients⟩
  | merge {kind : VertexKind α} {parts : List (Passage α × Flow α)} (hkind : kind.group? = none)
      (hentering : parts.map Prod.fst = ps.filter (·.enters kind))
      (hparts : ∀ x ∈ parts, Gathers ps x.1.owner.kind x.2) :
      Gathers ps kind (.merge (parts.map fun x => x.2.prolong x.1.actions))

variable {ps : List (Passage α)} {kind : VertexKind α} {f f' : Flow α}

/-- There is one flow out of a vertex at most. -/
theorem Gathers.unique (h : Gathers ps kind f) (h' : Gathers ps kind f') : f = f' := by
  induction h generalizing f' with
  | root =>
      cases h' with
      | root => rfl
      | merge hkind => cases hkind
  | @merge kind parts hkind hentering hparts ih =>
      cases h' with
      | root => cases hkind
      | @merge _ parts' _ hentering' hparts' =>
          have hsame : parts = parts' :=
            eq_of_map_fst (R := fun p f => Gathers ps p.owner.kind f)
              (hentering.trans hentering'.symm) (fun x hx f hf => ih x hx hf) hparts'
          rw [hsame]

-- ================================================================ rules

variable {fs : List (Fragment α)}

/-- The edges that enter a vertex are the passages that arrive at its
kind. -/
theorem Linked.entering (h : Linked fs) {i : Int} (hkind : kind.group? = none)
    (hi : (graphOf fs).Has i kind) :
    List.Forall₂ (Draws (graphOf fs)) ((graphOf fs).edges.filter (·.target = i))
      ((passagesOf fs).filter (·.enters kind)) := by
  have hlabelled := (wellFormed_graphOf fs).labelled
  refine List.rel_filter (fun e p hdraws => ?_) h.edges
  obtain ⟨t, ht, htarget⟩ := hdraws.target
  simp only [Passage.enters, ht, Option.map_some, decide_eq_true_eq, Option.some.injEq]
  constructor
  · intro heq
    rw [heq] at htarget
    exact hlabelled.unique htarget hi
  · intro heq
    rw [heq] at htarget
    exact hlabelled.unique_id hkind htarget hi

/-- What the graph of linked rules builds at a vertex is gathered from
their passages. -/
theorem Linked.gathers (h : Linked fs) {i : Int} {roots : List Int}
    (hbuilds : (graphOf fs).Builds i f roots) (hi : (graphOf fs).Has i kind) :
    Gathers (passagesOf fs) kind f := by
  have hlabelled := (wellFormed_graphOf fs).labelled
  induction hbuilds generalizing kind with
  | root hroot =>
      cases hlabelled.unique hi hroot
      exact .root
  | @merge i kind' parts hvertex hkind hedges hparts ih =>
      rw [hlabelled.unique hi hvertex]
      -- each part is paired with the passage that its edge is
      have hdrawn := h.entering hkind hvertex
      rw [← hedges, List.forall₂_map_left_iff] at hdrawn
      obtain ⟨pairs, hfst, hsnd, hdraws⟩ := exists_pairs hdrawn
      subst hfst
      have hcarried : (pairs.map Prod.fst).map Tributary.carried
          = (pairs.map fun x => (x.2, x.1.flow)).map fun x => x.2.prolong x.1.actions := by
        rw [List.map_map, List.map_map]
        refine List.map_congr_left fun x hx => ?_
        show x.1.flow.prolong x.1.edge.actions = x.1.flow.prolong x.2.actions
        rw [(hdraws x hx).actions]
      rw [hcarried]
      refine .merge hkind ?_ fun y hy => ?_
      · rw [List.map_map, ← hsnd]
        rfl
      · obtain ⟨x, hx, rfl⟩ := List.mem_map.1 hy
        exact ih x.1 (List.mem_map_of_mem hx) (hdraws x hx).source

/-- The verdict on sound rules without empty groups: no problem, and the
tree of what is gathered at the end. -/
theorem Sound.exists_gathers (h : Sound fs)
    (hgroups : ∀ f ∈ fs, ∀ group, f.start = .group group → group.ingredients ≠ []) :
    ∃ v f, checkFragments fs = .ok v ∧ v.diagnostics = [] ∧ Gathers (passagesOf fs) .terminal f
      ∧ v.tree = some (StepTree.root f.finish) := by
  obtain ⟨f, roots, hbuilds, -, hcheck⟩ := verdict_of_sound h hgroups
  have hterminal := (wellFormed_graphOf fs).labelled.has_terminal
  exact ⟨_, f, hcheck, rfl, (sound_iff.1 h).1.gathers hbuilds hterminal, rfl⟩

/-- Two lists of rules without empty groups have verdicts that agree, if
they are sound together and the same is gathered at the end: nothing is
found in the one exactly if nothing is found in the other, and then their
trees are the same. -/
theorem exists_verdicts {fs' : List (Fragment α)}
    (hgroups : ∀ f ∈ fs, ∀ group, f.start = .group group → group.ingredients ≠ [])
    (hgroups' : ∀ f ∈ fs', ∀ group, f.start = .group group → group.ingredients ≠ [])
    (hsound : Sound fs' ↔ Sound fs) (hsame : Sound fs → ∀ f,
      Gathers (passagesOf fs) .terminal f → Gathers (passagesOf fs') .terminal f) :
    ∃ v v', checkFragments fs = .ok v ∧ checkFragments fs' = .ok v'
      ∧ (v.diagnostics = [] ↔ v'.diagnostics = [])
      ∧ (v.diagnostics = [] → ∃ t, v.tree = some t ∧ v'.tree = some t) := by
  by_cases h : Sound fs
  · obtain ⟨v, f, hv, hclean, hf, htree⟩ := h.exists_gathers hgroups
    obtain ⟨v', f', hv', hclean', hf', htree'⟩ := (hsound.2 h).exists_gathers hgroups'
    rw [(hsame h f hf).unique hf'] at htree
    exact ⟨v, v', hv, hv', iff_of_true hclean hclean', fun _ => ⟨_, htree, htree'⟩⟩
  · obtain ⟨v, hv, hne⟩ := check_of_not_sound h
    obtain ⟨v', hv', hne'⟩ := check_of_not_sound fun h' => h (hsound.1 h')
    exact ⟨v, v', hv, hv', iff_of_false hne hne', fun hclean => absurd hclean hne⟩

end RecipeChart
