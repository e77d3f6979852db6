/-
How deep a tree is. Where several passages arrive at a join, the flow out
of it has a node of its own, with what they carry in below it; so each
such join puts everything that comes before it one node deeper. A rule
that passes many of them on its way makes a tree that is deeper than there
are joins on the way. Depth is carried backwards along the rule, from
where it arrives to where it sets out.
-/
import RecipeChart.Proofs.StepTree.Gathering

namespace RecipeChart

open FlowGraph

variable {α : Type}

-- ================================================================ flows

theorem StepTree.nesting_le_nestingAll {t : StepTree α} {ts : List (StepTree α)} (h : t ∈ ts) :
    t.nesting ≤ StepTree.nestingAll ts := by
  induction ts with
  | nil => cases h
  | cons u ts ih =>
      rw [StepTree.nestingAll]
      rcases List.mem_cons.1 h with rfl | h
      · exact Nat.le_max_left _ _
      · exact (ih h).trans (Nat.le_max_right _ _)

namespace Flow

/-- How many nodes lie inside one another in what the flow ends in. -/
def nesting (f : Flow α) : Nat := f.finish.nesting

theorem nesting_pos (f : Flow α) : 0 < f.nesting := by
  unfold nesting
  cases f.finish
  exact Nat.succ_pos _

/-- Actions make a run longer and no tree deeper. -/
theorem nesting_prolong (f : Flow α) (actions : List (Action α)) :
    (f.prolong actions).nesting = f.nesting := by
  obtain ⟨done, below⟩ := f
  cases below <;> rfl

variable {f : Flow α} {fs : List (Flow α)}

theorem nesting_lt_merge (h : f ∈ fs) (hseveral : 2 ≤ fs.length) :
    f.nesting < (merge fs).nesting := by
  have hbranches : merge fs = ⟨[], .branches (fs.map finish)⟩ := by
    match fs, hseveral with
    | _ :: _ :: _, _ => rfl
  rw [hbranches]
  exact Nat.lt_succ_of_le (StepTree.nesting_le_nestingAll (List.mem_map_of_mem h))

theorem nesting_le_merge (h : f ∈ fs) : f.nesting ≤ (merge fs).nesting := by
  by_cases hseveral : 2 ≤ fs.length
  · exact (nesting_lt_merge h hseveral).le
  · match fs, h, hseveral with
    | [g], h, _ => rw [List.mem_singleton.1 h, merge]
    | _ :: _ :: _, _, hseveral => exact absurd (Nat.le_add_left 2 _) hseveral

end Flow

-- ============================================================ gathering

variable [DecidableEq α] {ps : List (Passage α)} {kind : VertexKind α} {f : Flow α}

/-- What a passage carries in is no deeper than what is gathered where it
arrives, and less deep if it is not alone there. -/
theorem Gathers.exists_part (h : Gathers ps kind f) (hkind : kind.group? = none) {p : Passage α}
    (hp : p ∈ ps) (hentering : p.enters kind = true) :
    ∃ f', Gathers ps p.owner.kind f' ∧ f'.nesting ≤ f.nesting
      ∧ (2 ≤ (ps.filter (·.enters kind)).length → f'.nesting < f.nesting) := by
  cases h with
  | root => cases hkind
  | @merge _ parts _ hparts hgathers =>
      obtain ⟨x, hx, rfl⟩ : ∃ x ∈ parts, x.1 = p := by
        rw [← List.mem_map, hparts]
        exact List.mem_filter.2 ⟨hp, hentering⟩
      have hcarried : x.2.prolong x.1.actions ∈ parts.map fun x => x.2.prolong x.1.actions :=
        List.mem_map_of_mem hx
      have hle := Flow.nesting_le_merge hcarried
      rw [Flow.nesting_prolong] at hle
      refine ⟨x.2, hgathers x hx, hle, fun hseveral => ?_⟩
      rw [← hparts, List.length_map] at hseveral
      have hlt := Flow.nesting_lt_merge hcarried (by rwa [List.length_map])
      rwa [Flow.nesting_prolong] at hlt

/-- Where a rule sets out, less is gathered than where it arrives, by a
node for each join in between at which others arrive as well. -/
theorem Gathers.exists_before {owner : Start α} {actions : List (Action α)}
    {body : List (Element α)} {finish : Finish α} (h : Gathers ps finish.kind f)
    (hcut : ∀ p ∈ Passage.cut owner actions body (some finish), p ∈ ps)
    (hcrowded : ∀ ref ∈ body.filterMap Element.join?,
      2 ≤ (ps.filter (·.enters (.join ref.name))).length) :
    ∃ f', Gathers ps owner.kind f'
      ∧ f'.nesting + (body.filterMap Element.join?).length ≤ f.nesting := by
  induction body generalizing owner actions with
  | nil =>
      have hkind : finish.kind.group? = none := by
        cases finish <;> rfl
      obtain ⟨f', hf', hle, -⟩ := h.exists_part hkind (hcut _ (List.mem_singleton_self _))
        (decide_eq_true rfl)
      exact ⟨f', hf', hle⟩
  | cons x body ih =>
      cases x with
      | step s => exact ih hcut hcrowded
      | join ref =>
          obtain ⟨hhere, hcrowded⟩ := List.forall_mem_cons.1 hcrowded
          obtain ⟨g, hg, hle⟩ := ih (fun p hp => hcut p (List.mem_cons_of_mem _ hp)) hcrowded
          obtain ⟨f', hf', -, hlt⟩ := hg.exists_part rfl (hcut _ List.mem_cons_self)
            (decide_eq_true rfl)
          have hless := hlt hhere
          refine ⟨f', hf', ?_⟩
          show f'.nesting + ((body.filterMap Element.join?).length + 1) ≤ f.nesting
          omega

-- ================================================================ rules

variable {fs : List (Fragment α)}

/-- The passages that arrive at a join are those that feed it. -/
theorem length_entering (ps : List (Passage α)) (name : α) :
    (ps.filter (·.enters (.join name))).length
      = ((ps.filterMap Passage.feed?).filter (·.name = name)).length := by
  rw [← List.countP_eq_length_filter, ← List.countP_eq_length_filter, List.countP_filterMap]
  refine List.countP_congr fun p _ => ?_
  rw [Passage.enters, Passage.feed?]
  cases p.target with
  | none => simp
  | some t => cases t <;> simp [Finish.kind, Finish.join?]

/-- The tree of sound rules is deeper than there are joins on the way of a
rule to the end, if something else arrives at each of them. -/
theorem Sound.exists_tree (h : Sound fs)
    (hgroups : ∀ f ∈ fs, ∀ group, f.start = .group group → group.ingredients ≠ [])
    {f : Fragment α} (hf : f ∈ fs) {span : Option Span} (hfinish : f.finish = some (.done span))
    (hcrowded : ∀ ref ∈ f.inner, 2 ≤ (feedsOf fs ref.name).length) :
    ∃ v t, checkFragments fs = .ok v ∧ v.diagnostics = [] ∧ v.tree = some t
      ∧ f.inner.length + 2 ≤ t.nesting := by
  obtain ⟨v, top, hv, hclean, hgathers, htree⟩ := h.exists_gathers hgroups
  have hcut : ∀ p ∈ Passage.cut f.start [] f.body (some (.done span)), p ∈ passagesOf fs := by
    rw [← hfinish]
    intro p hp
    exact mem_passagesOf.2 ⟨f, hf, Fragment.isFollowed_of_finish (by rw [hfinish]; nofun), hp⟩
  have hentering : ∀ ref ∈ f.body.filterMap Element.join?,
      2 ≤ ((passagesOf fs).filter (·.enters (.join ref.name))).length := by
    intro ref href
    rw [length_entering, filterMap_feed?_passagesOf]
    exact hcrowded ref href
  have harrival : Gathers (passagesOf fs) (Finish.done span).kind top := hgathers
  obtain ⟨bottom, -, hle⟩ := harrival.exists_before hcut hentering
  refine ⟨v, StepTree.root top.finish, hv, hclean, htree, ?_⟩
  have hroot : (StepTree.root top.finish).nesting = top.nesting + 1 := by
    rw [StepTree.root, StepTree.nesting, StepTree.nestingAll, StepTree.nestingAll, Nat.max_zero]
    rfl
  have hpos := bottom.nesting_pos
  rw [hroot, Fragment.inner]
  omega

end RecipeChart
