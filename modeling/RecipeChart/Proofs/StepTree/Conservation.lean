/-
Nothing is lost between the rules and the tree, and nothing is doubled. A
step of a rule is an action of one passage and so of one edge. A visit of
the assembly takes flows that wait, adds the actions of the edges into the
vertex to them, and puts one flow in their place: the work that waits grows
by just these actions. Each edge enters one vertex and each vertex comes up
once, so in the end all actions are in the one flow that is left, that of
the terminal.

The ingredients of the leaves are those of the groups, as ways and groups
match one to one, and the size of a tree that fits is their number.
-/
import RecipeChart.Proofs.StepTree.Canonical
import RecipeChart.Proofs.StepTree.Meaning

namespace RecipeChart

open FlowGraph RecipeChart.Digraph
open scoped List

variable {α : Type}

-- ================================================================ work

/-- What stands in the middle changes places. -/
theorem perm_append_exchange {β : Type} (as bs cs ds : List β) :
    ((as ++ bs) ++ (cs ++ ds)).Perm ((as ++ cs) ++ (bs ++ ds)) := by
  rw [← Multiset.coe_eq_coe]
  simp only [← Multiset.coe_add]
  exact add_add_add_comm _ _ _ _

namespace StepTree

/-- The actions of all nodes of the tree. -/
def work (t : StepTree α) : List (Action α) := t.walk.flatMap actions

theorem work_eq (t : StepTree α) : t.work = t.actions ++ t.paths.flatMap work := by
  obtain ⟨actions, ingredients, size, maxDepth, paths⟩ := t
  rw [work, walk_node, List.flatMap_cons, List.flatMap_assoc]
  rfl

@[simp]
theorem work_node (actions : List (Action α)) (ingredients : List (Ingredient α))
    (size maxDepth : Int) (paths : List (StepTree α)) :
    (node actions ingredients size maxDepth paths).work = actions ++ paths.flatMap work :=
  work_eq _

end StepTree

namespace Flow

/-- The actions in the flow and below it. -/
def work (f : Flow α) : List (Action α) := f.finish.work

theorem work_prolong (f : Flow α) (actions : List (Action α)) :
    (f.prolong actions).work.Perm (f.work ++ actions) := by
  obtain ⟨earlier, below⟩ := f
  cases below with
  | group ingredients =>
      show (StepTree.leaf (earlier ++ actions) ingredients).work.Perm
        ((StepTree.leaf earlier ingredients).work ++ actions)
      simp [StepTree.leaf]
  | branches trees =>
      show (StepTree.branch (earlier ++ actions) trees).work.Perm
        ((StepTree.branch earlier trees).work ++ actions)
      rw [StepTree.branch, StepTree.branch, StepTree.work_node, StepTree.work_node,
        List.append_assoc, List.append_assoc]
      exact List.perm_append_comm.append_left earlier

theorem work_merge (fs : List (Flow α)) : (merge fs).work = fs.flatMap work := by
  by_cases hone : fs.length = 1
  · obtain ⟨f, rfl⟩ := List.length_eq_one_iff.1 hone
    rw [List.flatMap_singleton]
    rfl
  · rw [merge_eq hone]
    show (StepTree.branch [] (fs.map finish)).work = _
    rw [StepTree.branch, StepTree.work_node, List.nil_append, List.flatMap_map]
    rfl

end Flow

namespace Waiting

/-- The actions in the flows that wait. -/
def work (w : Waiting α) : List (Action α) := w.flatMap (·.2.work)

variable {w rest : Waiting α} {v : Int} {f : Flow α}

theorem sublist_of_take (h : w.take v = .ok (f, rest)) : rest.Sublist w := by
  obtain ⟨-, rfl⟩ := take_eq_ok_iff.1 h
  exact List.filter_sublist

/-- A flow that is taken is the only one that goes. -/
theorem perm_of_take (h : w.take v = .ok (f, rest)) (hkeys : (w.map Prod.fst).Nodup) :
    w.Perm ((v, f) :: rest) := by
  obtain ⟨hlookup, rfl⟩ := take_eq_ok_iff.1 h
  exact perm_cons_filter hkeys (mem_of_lookup hlookup)

/-- What is collected is work that waited, and the actions of the edges. -/
theorem work_of_collect {edges : List (Edge α)} {flows : List (Flow α)}
    (h : w.collect edges = .ok (flows, rest)) (hkeys : (w.map Prod.fst).Nodup) :
    (flows.flatMap Flow.work ++ rest.work).Perm (w.work ++ edges.flatMap (·.actions))
      ∧ rest.Sublist w := by
  induction edges generalizing w flows with
  | nil =>
      cases h
      rw [List.flatMap_nil, List.flatMap_nil, List.nil_append, List.append_nil]
      exact ⟨.refl _, .refl _⟩
  | cons e edges ih =>
      obtain ⟨⟨f, w₁⟩, htake, h⟩ := bind_eq_ok_iff.1 h
      obtain ⟨⟨flows', w₂⟩, hcollect, h⟩ := bind_eq_ok_iff.1 h
      cases h
      have htaken := perm_of_take htake hkeys
      have hkept := sublist_of_take htake
      obtain ⟨hwork, hrest⟩ := ih hcollect (hkeys.sublist (hkept.map Prod.fst))
      refine ⟨?_, hrest.trans hkept⟩
      have hsplit : w.work.Perm (f.work ++ w₁.work) :=
        htaken.flatMap_right fun x : Int × Flow α => x.2.work
      rw [List.flatMap_cons, List.flatMap_cons, List.append_assoc]
      calc (f.prolong e.actions).work ++ (flows'.flatMap Flow.work ++ rest.work)
          ~ (f.work ++ e.actions) ++ (w₁.work ++ edges.flatMap (·.actions)) :=
            (Flow.work_prolong f e.actions).append hwork
        _ ~ (f.work ++ w₁.work) ++ (e.actions ++ edges.flatMap (·.actions)) :=
            perm_append_exchange f.work e.actions _ _
        _ ~ w.work ++ (e.actions ++ edges.flatMap (·.actions)) := hsplit.symm.append_right _

end Waiting

-- ============================================================= assembly

namespace FlowGraph

variable {g : FlowGraph α} {w w' : Waiting α} {i : Int}

/-- The actions of the edges into the vertex. -/
def workInto (g : FlowGraph α) (i : Int) : List (Action α) :=
  (g.edges.filter (·.target = i)).flatMap (·.actions)

/-- No edge enters a root. -/
theorem WellFormed.workInto_root (h : g.WellFormed) {group : Group α}
    (hi : g.Has i (.root group)) : g.workInto i = [] := by
  have hnone : g.edges.filter (·.target = i) = [] := by
    rw [List.filter_eq_nil_iff]
    intro e he htarget
    obtain ⟨kind, hkind, hnone⟩ := h.targets e he
    rw [of_decide_eq_true htarget] at hkind
    rw [h.labelled.unique hkind hi] at hnone
    cases hnone
  rw [workInto, hnone]
  rfl

/-- A visit of a vertex that is not visited yet adds the actions of the
edges into it to the work that waits. -/
theorem WellFormed.work_of_visit (h : g.WellFormed) {kind : VertexKind α} (hi : g.Has i kind)
    (hkeys : (w.map Prod.fst).Nodup) (hfresh : i ∉ w.map Prod.fst)
    (hvisit : g.visit w i = .ok w') :
    w'.work.Perm (w.work ++ g.workInto i) ∧ (w'.map Prod.fst).Nodup
      ∧ ∀ j ∈ w'.map Prod.fst, j = i ∨ j ∈ w.map Prod.fst := by
  obtain ⟨vertex, hmem, rfl, rfl⟩ := exists_vertex hi
  obtain ⟨v, hv, ⟨group, hkind, rfl⟩ | ⟨hkind, edges, flows, rest, hedges, hcollect, rfl⟩⟩ :=
    visit_cases hvisit
  · cases (h.labelled.vertex_eq hmem).symm.trans hv
    rw [hkind] at hi
    rw [h.workInto_root hi, List.append_nil, put_eq_cons hfresh]
    have hbare : (⟨[], .group group.ingredients⟩ : Flow α).work = [] := by
      show (StepTree.leaf [] group.ingredients).work = []
      simp [StepTree.leaf]
    refine ⟨?_, List.nodup_cons.2 ⟨hfresh, hkeys⟩, fun j hj => List.mem_cons.1 hj⟩
    rw [Waiting.work, List.flatMap_cons, hbare]
    exact .refl _
  · rw [h.incomingEdges_eq hmem] at hedges
    cases hedges
    obtain ⟨hwork, hrest⟩ := Waiting.work_of_collect hcollect hkeys
    have hfresh' : vertex.id ∉ rest.map Prod.fst :=
      fun hin => hfresh ((hrest.map Prod.fst).subset hin)
    rw [put_eq_cons hfresh']
    refine ⟨?_, List.nodup_cons.2 ⟨hfresh', hkeys.sublist (hrest.map Prod.fst)⟩, fun j hj => ?_⟩
    · rw [Waiting.work, List.flatMap_cons, Flow.work_merge]
      exact hwork
    · exact (List.mem_cons.1 hj).imp_right fun hin => (hrest.map Prod.fst).subset hin

/-- A run adds the actions of all edges into the vertices that come up. -/
theorem WellFormed.work_of_run (h : g.WellFormed) {order : List Int} (hnodup : order.Nodup)
    (hkinds : ∀ i ∈ order, ∃ kind, g.Has i kind) (hkeys : (w.map Prod.fst).Nodup)
    (hfresh : ∀ i ∈ order, i ∉ w.map Prod.fst) (hrun : order.foldlM g.visit w = .ok w') :
    w'.work.Perm (w.work ++ order.flatMap g.workInto) := by
  induction order generalizing w with
  | nil =>
      cases hrun
      rw [List.flatMap_nil, List.append_nil]
  | cons i order ih =>
      rw [List.foldlM_cons] at hrun
      obtain ⟨w₁, hvisit, hrun⟩ := bind_eq_ok_iff.1 hrun
      rw [List.nodup_cons] at hnodup
      rw [List.forall_mem_cons] at hkinds hfresh
      obtain ⟨kind, hi⟩ := hkinds.1
      obtain ⟨hwork, hkeys', hnew⟩ := h.work_of_visit hi hkeys hfresh.1 hvisit
      have hfresh' : ∀ j ∈ order, j ∉ w₁.map Prod.fst := by
        intro j hj hin
        rcases hnew j hin with rfl | hin
        · exact hnodup.1 hj
        · exact hfresh.2 j hj hin
      have hrest := ih hnodup.2 hkinds.2 hkeys' hfresh' hrun
      rw [List.flatMap_cons, ← List.append_assoc]
      exact hrest.trans (hwork.append_right _)

/-- Each edge enters one of the vertices. -/
theorem WellFormed.workInto_perm (h : g.WellFormed) {order : List Int}
    (hperm : order.Perm g.digraph.nodes) :
    (order.flatMap g.workInto).Perm (g.edges.flatMap (·.actions)) := by
  have hnodup : order.Nodup := hperm.nodup_iff.2 h.nodup_nodes
  have hall : g.edges.filter (·.target ∈ order) = g.edges := by
    rw [List.filter_eq_self]
    intro e he
    obtain ⟨kind, hkind, -⟩ := h.targets e he
    exact decide_eq_true (hperm.mem_iff.2 (h.mem_nodes_iff.2 ⟨kind, hkind⟩))
  have hedges := flatMap_filter_perm (fun e : Edge α => e.target) hnodup g.edges
  rw [hall] at hedges
  have hwork := hedges.flatMap_right (·.actions)
  rwa [List.flatMap_assoc] at hwork

/-- When all vertices have come up, only the flow of the terminal waits. -/
theorem Ready.eq_terminal {order : List Int} (hready : Ready g order w) (h : g.WellFormed)
    (hcomplete : g.Complete) (hperm : order.Perm g.digraph.nodes) (hi : i ∈ w.map Prod.fst) :
    i = terminalId := by
  obtain ⟨hmem, hlast⟩ := (hready.waits i).1 hi
  obtain ⟨kind, hkind⟩ := h.mem_nodes_iff.1 (hperm.mem_iff.1 hmem)
  by_contra hne
  have hother : kind ≠ .terminal := fun heq => hne (h.labelled.has_terminal_iff.1 (heq ▸ hkind))
  obtain ⟨j, hj⟩ := hcomplete i kind hkind hother
  obtain ⟨-, kind', hkind', -⟩ := h.has_of_arrow hj
  exact hlast j hj (hperm.mem_iff.2 (h.mem_nodes_iff.2 ⟨kind', hkind'⟩))

/-- Nothing waits beside the flow of the terminal then. -/
theorem Ready.rest_eq_nil {order : List Int} (hready : Ready g order w) (h : g.WellFormed)
    (hcomplete : g.Complete) (hperm : order.Perm g.digraph.nodes) {top : Flow α}
    {rest : Waiting α} (htaken : w.Perm ((terminalId, top) :: rest)) : rest = [] := by
  have hkeys := (htaken.map Prod.fst).nodup_iff.1 hready.nodup
  rw [List.map_cons, List.nodup_cons] at hkeys
  refine List.eq_nil_iff_forall_not_mem.2 fun x hx => ?_
  have hkey : x.1 ∈ rest.map Prod.fst := List.mem_map_of_mem hx
  have hwaits : x.1 ∈ w.map Prod.fst :=
    (htaken.map Prod.fst).mem_iff.2 (List.mem_cons_of_mem _ hkey)
  rw [hready.eq_terminal h hcomplete hperm hwaits] at hkey
  exact hkeys.1 hkey

/-- An assembled tree has the actions of all edges, each once. -/
theorem WellFormed.work_of_assemble (h : g.WellFormed) (hcomplete : g.Complete)
    {order : List Int} (hperm : order.Perm g.digraph.nodes)
    (hforward : Forward g.digraph.arrows order) {t : StepTree α}
    (hassemble : g.assemble order = .ok t) : t.work.Perm (g.edges.flatMap (·.actions)) := by
  obtain ⟨w, hrun, hready⟩ := (Ready.nil g).run h (List.nil_append order).symm hperm hforward
  obtain ⟨w', hrun', hassemble⟩ := bind_eq_ok_iff.1 hassemble
  cases hrun.symm.trans hrun'
  obtain ⟨⟨top, rest⟩, htake, hassemble⟩ := bind_eq_ok_iff.1 hassemble
  obtain ⟨-, -, hassemble⟩ := bind_eq_ok_iff.1 hassemble
  cases hassemble
  have htaken := Waiting.perm_of_take htake hready.nodup
  have hrest := hready.rest_eq_nil h hcomplete hperm htaken
  have hnodup : order.Nodup := hperm.nodup_iff.2 h.nodup_nodes
  have hkinds : ∀ i ∈ order, ∃ kind, g.Has i kind :=
    fun i hi => h.mem_nodes_iff.1 (hperm.mem_iff.1 hi)
  have hkeys : (([] : Waiting α).map Prod.fst).Nodup := List.nodup_nil
  have hwork := h.work_of_run hnodup hkinds hkeys (fun i _ => List.not_mem_nil) hrun
  calc (StepTree.root top.finish).work
      ~ top.work := by simp [StepTree.root, Flow.work]
    _ ~ w.work := by
        have hwork := (htaken.flatMap_right fun x : Int × Flow α => x.2.work).symm
        rw [hrest, List.flatMap_singleton] at hwork
        exact hwork
    _ ~ order.flatMap g.workInto := hwork
    _ ~ g.edges.flatMap (·.actions) := h.workInto_perm hperm

end FlowGraph

-- =============================================================== rules

def Element.action? : Element α → Option (Action α)
  | .step s => some s.action
  | .join _ => none

namespace Fragment

/-- The actions of the steps in the body. -/
def steps (f : Fragment α) : List (Action α) := f.body.filterMap Element.action?

/-- The group that the fragment starts from. -/
def group? (f : Fragment α) : Option (Group α) :=
  match f.start with
  | .group group => some group
  | .join _ => none

end Fragment

theorem Passage.flatMap_actions_cut (owner : Start α) (actions : List (Action α))
    (body : List (Element α)) (finish : Option (Finish α)) :
    (cut owner actions body finish).flatMap (·.actions)
      = actions ++ body.filterMap Element.action? := by
  induction body generalizing owner actions with
  | nil => rfl
  | cons x body ih =>
      cases x with
      | step s =>
          rw [cut, ih, List.append_assoc]
          rfl
      | join ref =>
          rw [cut, List.flatMap_cons, ih]
          rfl

/-- The actions of the passages are the steps of the rules, if every rule
but a bare mention arrives somewhere. -/
theorem flatMap_actions_passagesOf {fs : List (Fragment α)}
    (hends : ∀ f ∈ fs, f.isMention = true ∨ f.finish ≠ none) :
    (passagesOf fs).flatMap (·.actions) = fs.flatMap Fragment.steps := by
  induction fs with
  | nil => rfl
  | cons f fs ih =>
      rw [List.forall_mem_cons] at hends
      rw [List.flatMap_cons, ← ih hends.2]
      cases hfollowed : f.isFollowed with
      | true =>
          rw [passagesOf_cons_of_followed hfollowed, List.flatMap_append, Fragment.passages,
            Passage.flatMap_actions_cut]
          rfl
      | false =>
          have hmention := hends.1.resolve_right fun hne =>
            hne (Fragment.open_of_not_followed hfollowed).2
          have hbody : f.body = [] := by
            simp only [Fragment.isMention, Bool.and_eq_true, List.isEmpty_iff] at hmention
            exact hmention.1.2
          rw [passagesOf_cons_of_not_followed hfollowed, Fragment.steps, hbody]
          rfl

/-- Only fragments that do not start at a join start from a group. -/
theorem filterMap_group?_filter (fs : List (Fragment α)) :
    (fs.filter (!·.startsAtJoin)).filterMap Fragment.group? = fs.filterMap Fragment.group? := by
  rw [List.filterMap_filter]
  refine List.filterMap_congr fun f _ => ?_
  rw [Fragment.startsAtJoin, Fragment.group?]
  cases f.start <;> rfl

/-- Ways that set out from the groups of fragments have their
ingredients. -/
theorem map_fst_of_groups {climbs : List (List (Ingredient α) × List (Action α))}
    {starts : List (Fragment α)}
    (h : List.Forall₂ (fun c f => ∃ group, f.group? = some group ∧ c.1 = group.ingredients)
      climbs starts) :
    climbs.map Prod.fst = (starts.filterMap Fragment.group?).map (·.ingredients) := by
  induction h with
  | nil => rfl
  | cons hpair _ ih =>
      obtain ⟨group, hgroup, hingredients⟩ := hpair
      rw [List.map_cons, ih, List.filterMap_cons_some hgroup, List.map_cons, hingredients]

-- ============================================================= verdicts

variable [DecidableEq α] {fs : List (Fragment α)}

/-- The actions of the edges are the steps of linked rules. -/
theorem Linked.work_edges (h : Linked fs) :
    (graphOf fs).edges.flatMap (·.actions) = fs.flatMap Fragment.steps := by
  rw [← flatMap_actions_passagesOf h.ends, List.flatMap_def, List.flatMap_def,
    map_eq_of_forall₂ h.edges fun _ _ hdraws => hdraws.actions]

/-- The tree of a recipe that is free of problems is assembled in its build
order. -/
theorem assembled_of_check {v : Verdict α} (h : checkFragments fs = .ok v) (hsound : Sound fs) :
    ∃ t, v.tree = some t ∧ (graphOf fs).assemble (graphOf fs).digraph.order = .ok t := by
  obtain ⟨a, ha, hclean, horder⟩ := analyze_stitch fs
  rw [if_pos (hclean.2 hsound)] at horder
  obtain ⟨a', ha', h⟩ := bind_eq_ok_iff.1 h
  cases ha.symm.trans ha'
  obtain ⟨tree, htree, h⟩ := bind_eq_ok_iff.1 h
  cases h
  rw [horder] at htree
  obtain ⟨t, ht, htree⟩ := bind_eq_ok_iff.1 htree
  cases htree
  exact ⟨t, rfl, ht⟩

/-- The nodes of the tree have the steps of the rules, each once. -/
theorem Sound.work_tree (h : Sound fs) {t : StepTree α}
    (hassemble : (graphOf fs).assemble (graphOf fs).digraph.order = .ok t) :
    t.work.Perm (fs.flatMap Fragment.steps) := by
  have hlinked := (sound_iff.1 h).1
  obtain ⟨hperm, hforward⟩ := h.order_spec
  rw [← hlinked.work_edges]
  exact (wellFormed_graphOf fs).work_of_assemble hlinked.complete hperm hforward hassemble

/-- The leaves have the ingredients of the groups, each group once. -/
theorem Sound.leaves_perm (h : Sound fs) {f : Flow α} {roots : List Int}
    (hbuilds : (graphOf fs).Builds terminalId f roots) :
    (((StepTree.root f.finish).walk.filter StepTree.isLeaf).map StepTree.ingredients).Perm
      ((fs.filterMap Fragment.group?).map (·.ingredients)) := by
  obtain ⟨starts, hopens, hperm⟩ := h.exists_starts hbuilds
  have hwell := wellFormed_graphOf fs
  have hgroups : List.Forall₂ (fun c f => ∃ group, f.group? = some group ∧ c.1 = group.ingredients)
      f.finish.climbs starts := by
    refine (forall₂_comp (hbuilds.climbs h.fed) hopens).imp fun c f hpair => ?_
    obtain ⟨r, ⟨group, hr, hingredients, -⟩, group', first, rest, e, hstart, -, howner, -, rfl,
      hdraws⟩ := hpair
    have hsource := hdraws.source
    rw [howner] at hsource
    cases hwell.labelled.unique hr hsource
    exact ⟨group, by rw [Fragment.group?, hstart], hingredients⟩
  rw [← StepTree.map_fst_climbs, StepTree.climbs_root, map_fst_of_groups hgroups]
  have hstarts := (hperm.filterMap Fragment.group?).map (·.ingredients)
  rwa [filterMap_group?_filter] at hstarts

end RecipeChart
