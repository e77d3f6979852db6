/-
A check makes up no handles. What stands in the graph, in the findings and
in the tree is taken over from the rules: the roots stand for groups that
rules start from, the joins are mentioned in rules, the actions along an
edge are those of a passage, and the tree has the steps and the groups of
the rules. So a registry that has handed out the handles of the rules
answers for everything that a check makes of them.
-/
import RecipeChart.Proofs.Handles
import RecipeChart.Proofs.Origins
import RecipeChart.Proofs.Table.Contents

namespace RecipeChart

open FlowGraph

-- ================================================================ rules

/-- The handles of the fragments. -/
def handlesOf (fs : List (Fragment Handle)) : List Handle := fs.flatMap Fragment.handles

/-- The handles of all that a check made. -/
def Verdict.handles (v : Verdict Handle) : List Handle :=
  v.graph.handles ++ v.diagnostics.flatMap Diagnostic.handles
    ++ v.tree.toList.flatMap StepTree.handles

variable {fs : List (Fragment Handle)} {h : Handle}

/-- What is named in a fragment is named in the fragments. -/
theorem mem_handlesOf {f : Fragment Handle} (hf : f ∈ fs) (hh : h ∈ f.handles) :
    h ∈ handlesOf fs :=
  List.mem_flatMap.2 ⟨f, hf, hh⟩

/-- The handles of what a passage sets out from, and of its actions. -/
def Passage.handles (p : Passage Handle) : List Handle :=
  p.owner.handles ++ p.actions.flatMap Action.handles

/-- A passage of a rule names nothing that the rule does not. -/
theorem Passage.mem_of_cut {owner : Start Handle} {actions : List (Action Handle)}
    {body : List (Element Handle)} {finish : Option (Finish Handle)} {p : Passage Handle}
    (hp : p ∈ cut owner actions body finish) (hh : h ∈ p.handles) :
    h ∈ owner.handles ++ actions.flatMap Action.handles ++ body.flatMap Element.handles := by
  induction body generalizing owner actions with
  | nil =>
      rw [List.mem_singleton.1 hp] at hh
      exact List.mem_append_left _ hh
  | cons x body ih =>
      cases x with
      | step s =>
          have hlater := ih hp
          rw [List.flatMap_append, List.flatMap_singleton, ← List.append_assoc,
            List.append_assoc] at hlater
          exact hlater
      | join ref =>
          rcases List.mem_cons.1 hp with rfl | hp
          · exact List.mem_append_left _ hh
          · exact List.mem_append_right _ (ih hp)

/-- A passage of a fragment names nothing that the fragment does not. -/
theorem Fragment.mem_handles_of_passage {f : Fragment Handle} {p : Passage Handle}
    (hp : p ∈ f.passages) (hh : h ∈ p.handles) : h ∈ f.handles := by
  have hcut := Passage.mem_of_cut hp hh
  rw [List.flatMap_nil, List.append_nil] at hcut
  exact List.mem_append_left _ hcut

/-- What is named in a passage is named in the fragments. -/
theorem mem_handlesOf_of_passage {p : Passage Handle} (hp : p ∈ passagesOf fs)
    (hh : h ∈ p.handles) : h ∈ handlesOf fs := by
  obtain ⟨f, hf, -, hp⟩ := mem_passagesOf.1 hp
  exact mem_handlesOf hf (Fragment.mem_handles_of_passage hp hh)

/-- A join that is mentioned is mentioned by its handle. -/
theorem Fragment.name_mem_handles {f : Fragment Handle} {ref : JoinRef Handle}
    (href : ref ∈ f.mentions) : ref.name ∈ f.handles := by
  obtain ⟨start, body, finish⟩ := f
  rcases List.mem_append.1 href with href | href
  · refine List.mem_append_left _ ?_
    rcases List.mem_append.1 href with href | href
    · cases start with
      | group g => cases href
      | join r =>
          rw [List.mem_singleton.1 href]
          exact List.mem_append_left _ (List.mem_singleton_self r.name)
    · obtain ⟨x, hx, hjoin⟩ := List.mem_filterMap.1 href
      cases x with
      | step s => cases hjoin
      | join r =>
          cases hjoin
          exact List.mem_append_right _
            (List.mem_flatMap.2 ⟨_, hx, List.mem_singleton_self ref.name⟩)
  · refine List.mem_append_right _ ?_
    cases finish with
    | none => cases href
    | some t =>
        cases t with
        | done span => cases href
        | join r =>
            rw [List.mem_singleton.1 href]
            exact List.mem_singleton_self r.name

/-- The joins of the graph are named in the fragments. -/
theorem mem_handlesOf_of_joinNames (hh : h ∈ joinNames fs) : h ∈ handlesOf fs := by
  have hmention : ∃ f ∈ fs, ∃ ref ∈ f.mentions, ref.name = h := by
    rcases mem_joinNames.1 hh with hne | hne
    · obtain ⟨ref, href⟩ := List.exists_mem_of_ne_nil _ hne
      rw [claimsOf, List.mem_filter, List.mem_flatMap, decide_eq_true_eq] at href
      obtain ⟨⟨f, hf, href⟩, hname⟩ := href
      exact ⟨f, hf, ref, Fragment.mem_mentions_of_claims href, hname⟩
    · obtain ⟨ref, href⟩ := List.exists_mem_of_ne_nil _ hne
      rw [feedsOf, List.mem_filter, List.mem_flatMap, decide_eq_true_eq] at href
      obtain ⟨⟨f, hf, href⟩, hname⟩ := href
      exact ⟨f, hf, ref, Fragment.mem_mentions_of_feeds href, hname⟩
  obtain ⟨f, hf, ref, href, rfl⟩ := hmention
  exact mem_handlesOf hf (Fragment.name_mem_handles href)

/-- What a fragment starts from is named in it. -/
theorem mem_handlesOf_of_start {f : Fragment Handle} (hf : f ∈ fs) {group : Group Handle}
    (hstart : f.start = .group group) (hh : h ∈ group.handles) : h ∈ handlesOf fs := by
  refine mem_handlesOf hf (List.mem_append_left _ (List.mem_append_left _ ?_))
  rw [hstart]
  exact hh

-- =============================================================== graphs

/-- What stands at a vertex is named in the fragments. -/
theorem mem_handlesOf_of_vertex {v : Vertex Handle} (hv : v ∈ (graphOf fs).vertices)
    (hh : h ∈ v.kind.handles) : h ∈ handlesOf fs := by
  cases hkind : v.kind with
  | terminal =>
      rw [hkind] at hh
      cases hh
  | join name =>
      rw [hkind] at hh
      rw [List.mem_singleton.1 hh]
      have hi := has_of_mem hv
      rw [hkind] at hi
      exact mem_handlesOf_of_joinNames (mem_joinNames.2 (has_join_iff.1 ⟨v.id, hi⟩))
  | root group =>
      rw [hkind] at hh
      obtain ⟨-, f, hf, hstart⟩ := exists_start_of_root hv hkind
      exact mem_handlesOf_of_start hf hstart hh

/-- The actions along an edge are named in the fragments. -/
theorem mem_handlesOf_of_edge {e : Edge Handle} (he : e ∈ (graphOf fs).edges)
    (hh : h ∈ e.actions.flatMap Action.handles) : h ∈ handlesOf fs := by
  obtain ⟨p, hp, hdraws⟩ := counterpart_of_mem_left (stitched_draftOf fs).edges he
  rw [hdraws.actions] at hh
  exact mem_handlesOf_of_passage (mem_of_mem_drawnFrom hp) (List.mem_append_right _ hh)

/-- The handles of the graph are handles of the fragments. -/
theorem mem_handlesOf_of_graph (hh : h ∈ (graphOf fs).handles) : h ∈ handlesOf fs := by
  rcases List.mem_append.1 hh with hh | hh
  · rcases List.mem_append.1 hh with hh | hh
    · obtain ⟨v, hv, hh⟩ := List.mem_flatMap.1 hh
      exact mem_handlesOf_of_vertex hv hh
    · obtain ⟨e, he, hh⟩ := List.mem_flatMap.1 hh
      exact mem_handlesOf_of_edge he hh
  · exact mem_handlesOf_of_joinNames hh

-- ============================================================= findings

/-- The handles of a finding are handles of the fragments. -/
theorem Finds.mem_handlesOf {x : Diagnostic Handle} (hx : Finds fs x) (hh : h ∈ x.handles) :
    h ∈ handlesOf fs := by
  cases hx with
  | orphan hf hstart => exact mem_handlesOf_of_start hf hstart hh
  | dangling hp _ => exact mem_handlesOf_of_passage hp hh
  | missing hname _ | unknown hname _ | duplicate hname _ =>
      rw [List.mem_singleton.1 hh]
      exact mem_handlesOf_of_joinNames hname
  | @loop name names span hnames =>
      have hround : h = name ∨ h ∈ names ∨ h = name := by
        simpa [Diagnostic.handles] using hh
      refine mem_handlesOf_of_joinNames (hnames h ?_)
      rcases hround with rfl | hmem | rfl
      · exact List.mem_cons_self
      · exact List.mem_cons_of_mem name hmem
      · exact List.mem_cons_self
  | root hv hkind =>
      obtain ⟨-, f, hf, hstart⟩ := exists_start_of_root hv hkind
      exact mem_handlesOf_of_start hf hstart hh
  | nothing => cases hh

-- ================================================================ trees

/-- A handle of a tree is one of an action or of an ingredient. -/
theorem StepTree.exists_of_mem_handles {t : StepTree Handle} (hh : h ∈ t.handles) :
    (∃ a ∈ t.work, h ∈ a.handles) ∨ ∃ i ∈ t.goods, h ∈ i.handles := by
  obtain ⟨n, hn, hh⟩ := List.mem_flatMap.1 hh
  rcases List.mem_append.1 hh with hh | hh
  · obtain ⟨a, ha, hh⟩ := List.mem_flatMap.1 hh
    exact .inl ⟨a, List.mem_flatMap.2 ⟨n, hn, ha⟩, hh⟩
  · obtain ⟨i, hi, hh⟩ := List.mem_flatMap.1 hh
    exact .inr ⟨i, List.mem_flatMap.2 ⟨n, hn, hi⟩, hh⟩

/-- A step of the fragments is named in them. -/
theorem mem_handlesOf_of_step {a : Action Handle} (ha : a ∈ fs.flatMap Fragment.steps)
    (hh : h ∈ a.handles) : h ∈ handlesOf fs := by
  obtain ⟨f, hf, ha⟩ := List.mem_flatMap.1 ha
  obtain ⟨x, hx, haction⟩ := List.mem_filterMap.1 ha
  refine mem_handlesOf hf (List.mem_append_left _ (List.mem_append_right _ ?_))
  cases x with
  | join ref => cases haction
  | step s =>
      cases haction
      exact List.mem_flatMap.2 ⟨_, hx, hh⟩

/-- An ingredient of the fragments is named in them. -/
theorem mem_handlesOf_of_group {i : Ingredient Handle}
    (hi : i ∈ (fs.filterMap Fragment.group?).flatMap (·.ingredients)) (hh : h ∈ i.handles) :
    h ∈ handlesOf fs := by
  obtain ⟨group, hgroup, hi⟩ := List.mem_flatMap.1 hi
  obtain ⟨f, hf, hstart⟩ := List.mem_filterMap.1 hgroup
  unfold Fragment.group? at hstart
  split at hstart
  · next hgroup =>
      cases hstart
      exact mem_handlesOf_of_start hf hgroup (List.mem_flatMap.2 ⟨i, hi, hh⟩)
  · cases hstart

/-- The handles of the tree are handles of the fragments. -/
theorem mem_handlesOf_of_tree {v : Verdict Handle} (hv : checkFragments fs = .ok v)
    {t : StepTree Handle} (ht : v.tree = some t) (hh : h ∈ t.handles) : h ∈ handlesOf fs := by
  have hsound := sound_of_tree hv ht
  obtain ⟨f, roots, hbuilds, rfl, hfits⟩ := builds_of_tree hv ht
  obtain ⟨t, ht', hassemble⟩ := assembled_of_check hv hsound
  cases ht.symm.trans ht'
  rcases StepTree.exists_of_mem_handles hh with ⟨a, ha, hh⟩ | ⟨i, hi, hh⟩
  · exact mem_handlesOf_of_step ((hsound.work_tree hassemble).subset ha) hh
  · have hleaves := (hsound.leaves_perm hbuilds).flatten
    rw [← List.flatMap_def, ← List.flatMap_def, ← StepTree.leafIngredients,
      ← StepTree.goods_of_check hfits] at hleaves
    exact mem_handlesOf_of_group (hleaves.subset hi) hh

-- ============================================================== verdicts

/-- All handles that a check shows are handles of the fragments. -/
theorem mem_handlesOf_of_check {v : Verdict Handle} (hv : checkFragments fs = .ok v)
    (hh : h ∈ v.handles) : h ∈ handlesOf fs := by
  rcases List.mem_append.1 hh with hh | hh
  · rcases List.mem_append.1 hh with hh | hh
    · rw [graph_of_check hv] at hh
      exact mem_handlesOf_of_graph hh
    · obtain ⟨x, hx, hh⟩ := List.mem_flatMap.1 hh
      exact (finds_of_check hv hx).mem_handlesOf hh
  · obtain ⟨t, ht, hh⟩ := List.mem_flatMap.1 hh
    exact mem_handlesOf_of_tree hv (Option.mem_toList.1 ht) hh

end RecipeChart
