/-
The tree means what the rules say. Following the rules from a group of
ingredients, one reads the actions up to the first join, goes on where
that join is claimed, and so on until the end. In a recipe that is free of
problems this gives, for each rule that starts from ingredients, exactly
the actions that are met on the way from one leaf of the tree to the root,
and the leaf has the ingredients of the rule.

The rules are followed passage by passage and the graph edge by edge. As
every passage is an edge and every edge a passage, the one follows the
other; and as the edges make one tree, every leaf is one rule.
-/
import RecipeChart.Proofs.Verdict

namespace RecipeChart

open FlowGraph RecipeChart.Digraph Relation

variable {α : Type} [DecidableEq α] {fs : List (Fragment α)}

-- ============================================================ following

/-- Following the rules from the passage on, these actions are read until
the end. -/
inductive Leads (fs : List (Fragment α)) : Passage α → List (Action α) → Prop where
  | done {p : Passage α} {span : Option Span} (ht : p.target = some (.done span)) :
      Leads fs p p.actions
  | on {p q : Passage α} {f : Fragment α} {ref ref' : JoinRef α} {actions : List (Action α)}
      (ht : p.target = some (.join ref)) (hf : f ∈ fs) (hq : q ∈ f.passages)
      (howner : q.owner = .join ref') (hname : ref'.name = ref.name)
      (hrest : Leads fs q actions) : Leads fs p (p.actions ++ actions)

omit [DecidableEq α] in
theorem Leads.isSome_target {p : Passage α} {actions : List (Action α)} (h : Leads fs p actions) :
    p.target.isSome = true := by
  cases h with
  | done ht =>
      rw [ht]
      rfl
  | on ht =>
      rw [ht]
      rfl

/-- What the edges spell out is read in the rules. -/
theorem Linked.leads_of_along (h : Linked fs) {e : Edge α} {p : Passage α} {i j : Int}
    {actions : List (Action α)} (hdraws : Draws (graphOf fs) e p) (hi : e.target = i)
    (hj : j = terminalId) (halong : (graphOf fs).Along i j actions) :
    Leads fs p (p.actions ++ actions) := by
  have hlabelled := (wellFormed_graphOf fs).labelled
  obtain ⟨t, ht, htarget⟩ := hdraws.target
  induction halong generalizing e p t with
  | here =>
      rw [hi, hj] at htarget
      cases t with
      | join ref => cases hlabelled.unique htarget hlabelled.has_terminal
      | done span =>
          rw [List.append_nil]
          exact .done ht
  | on he' _ ih =>
      obtain ⟨q, hq, hdraws'⟩ := h.exists_passage he'
      obtain ⟨t', ht', htarget'⟩ := hdraws'.target
      have hkind := hdraws'.source
      rw [hi] at htarget
      have hsame := hlabelled.unique htarget hkind
      obtain ⟨f, hf, -, hmem⟩ := mem_passagesOf.1 hq
      have hrest := ih hdraws' rfl hj t' ht' htarget'
      rw [← hdraws'.actions] at hrest
      -- As the vertex is entered and left again, it is a join.
      cases howner : q.owner with
      | group g =>
          rw [howner] at hsame
          cases t <;> cases hsame
      | join ref' =>
          rw [howner] at hsame
          cases t with
          | done span => cases hsame
          | join ref =>
              injection hsame with hname
              exact .on ht hf hmem howner hname.symm hrest

/-- Where no join is claimed twice, the rules can be followed in one way
only. -/
theorem Linked.leads_unique (h : Linked fs) {p : Passage α} {as bs : List (Action α)}
    (ha : Leads fs p as) (hb : Leads fs p bs) : as = bs := by
  induction ha generalizing bs with
  | done ht =>
      cases hb with
      | done ht' => rfl
      | on ht' =>
          rw [ht] at ht'
          cases ht'
  | on ht hf hq howner hname hrest ih =>
      cases hb with
      | done ht' =>
          rw [ht] at ht'
          cases ht'
      | on ht' hf' hq' howner' hname' hrest' =>
          rw [ht] at ht'
          cases ht'
          have hmem := mem_passagesOf_of_mem hf hq hrest.isSome_target
          have hmem' := mem_passagesOf_of_mem hf' hq' hrest'.isSome_target
          have hclaim := Passage.claim?_eq_some_iff.2 howner
          have hclaim' := Passage.claim?_eq_some_iff.2 howner'
          have hsame := eq_of_nodup_filterMap (nodup_claims h.length_claims_le) hmem hmem' hclaim
            hclaim' (hname.trans hname'.symm)
          subst hsame
          rw [ih hrest']

-- ============================================================== starts

section Starts

omit [DecidableEq α]

theorem filter_isNone_eq_nil {ps : List (Passage α)} (h : ∀ p ∈ ps, ∃ ref, p.owner = .join ref) :
    ps.filter (·.claim?.isNone) = [] := by
  rw [List.filter_eq_nil_iff]
  intro p hp
  obtain ⟨ref, href⟩ := h p hp
  rw [Passage.claim?_eq_some_iff.2 href]
  exact Bool.false_ne_true

/-- The passages of a fragment that starts at a join all carry on from
joins. -/
theorem filter_isNone_cons_of_join {f : Fragment α} (h : f.startsAtJoin = true)
    (fs : List (Fragment α)) :
    (passagesOf (f :: fs)).filter (·.claim?.isNone)
      = (passagesOf fs).filter (·.claim?.isNone) := by
  have howners : ∀ p ∈ f.passages, ∃ ref, p.owner = .join ref := by
    intro p hp
    cases howner : p.owner with
    | join ref => exact ⟨ref, rfl⟩
    | group group =>
        rw [Fragment.startsAtJoin, Fragment.start_of_owner hp howner] at h
        cases h
  cases hfollowed : f.isFollowed with
  | true =>
      rw [passagesOf_cons_of_followed hfollowed, List.filter_append,
        filter_isNone_eq_nil howners, List.nil_append]
  | false => rw [passagesOf_cons_of_not_followed hfollowed]

/-- Of the passages of a fragment that starts from ingredients, the first
sets out from them. -/
theorem filter_isNone_cons_of_group {f : Fragment α} {group : Group α}
    (hstart : f.start = .group group) (hfinish : f.finish ≠ none) (fs : List (Fragment α)) :
    ∃ p rest, p.owner = .group group ∧ f.passages = p :: rest
      ∧ (passagesOf (f :: fs)).filter (·.claim?.isNone)
        = p :: (passagesOf fs).filter (·.claim?.isNone) := by
  have hfollowed := Fragment.isFollowed_of_finish hfinish
  obtain ⟨actions, target, rest, hpassages, hrest⟩ :=
    Fragment.passages_of_group hstart hfollowed
  refine ⟨_, rest, rfl, hpassages, ?_⟩
  rw [passagesOf_cons_of_followed hfollowed, List.filter_append, hpassages,
    List.filter_cons_of_pos (by rfl), filter_isNone_eq_nil hrest]
  rfl

/-- Linked fragments that start from ingredients have one passage each
that sets out from them. -/
theorem forall₂_starts (hends : ∀ f ∈ fs, f.isMention = true ∨ f.finish ≠ none) :
    List.Forall₂
      (fun p f => ∃ group rest, f.start = .group group ∧ p.owner = .group group
        ∧ f.passages = p :: rest)
      ((passagesOf fs).filter (·.claim?.isNone)) (fs.filter (!·.startsAtJoin)) := by
  induction fs with
  | nil => exact .nil
  | cons f fs ih =>
      rw [List.forall_mem_cons] at hends
      have htail := ih hends.2
      cases hstart : f.start with
      | group group =>
          have hgroup : f.startsAtJoin = false := by
            rw [Fragment.startsAtJoin, hstart]
          have hfinish : f.finish ≠ none := by
            rcases hends.1 with hmention | hfinish
            · rw [Fragment.isMention_eq, hgroup] at hmention
              cases hmention
            · exact hfinish
          obtain ⟨p, rest, howner, hpassages, hsame⟩ :=
            filter_isNone_cons_of_group hstart hfinish fs
          rw [hsame, List.filter_cons_of_pos (by simp [hgroup])]
          exact .cons ⟨group, rest, hstart, howner, hpassages⟩ htail
      | join ref =>
          have hjoin : f.startsAtJoin = true := by
            rw [Fragment.startsAtJoin, hstart]
          rw [filter_isNone_cons_of_join hjoin, List.filter_cons_of_neg (by simp [hjoin])]
          exact htail

end Starts

/-- Does the edge out of the root belong to the fragment? -/
def Opens (fs : List (Fragment α)) (r : Int) (f : Fragment α) : Prop :=
  ∃ group first rest e, f.start = .group group ∧ f.passages = first :: rest
    ∧ first.owner = .group group ∧ e ∈ (graphOf fs).edges ∧ e.source = r
    ∧ Draws (graphOf fs) e first

open Classical in
/-- The edges that leave roots. -/
noncomputable def rootedEdges (g : FlowGraph α) : List (Edge α) :=
  g.edges.filter fun e => decide (∃ group, g.Has e.source (.root group))

omit [DecidableEq α] in
theorem mem_rootedEdges {g : FlowGraph α} {e : Edge α} :
    e ∈ rootedEdges g ↔ e ∈ g.edges ∧ ∃ group, g.Has e.source (.root group) := by
  classical
  rw [rootedEdges, List.mem_filter, decide_eq_true_eq]

/-- The edges that leave roots belong, one by one, to the fragments that
start from ingredients. -/
theorem Linked.forall₂_opens (h : Linked fs) :
    List.Forall₂ (Opens fs) ((rootedEdges (graphOf fs)).map (·.source))
      (fs.filter (!·.startsAtJoin)) := by
  classical
  have hlabelled := (wellFormed_graphOf fs).labelled
  -- Edges go with passages, and an edge leaves a root if its passage leaves a group.
  have hrooted : List.Forall₂ (fun e p => e ∈ (graphOf fs).edges ∧ Draws (graphOf fs) e p)
      (rootedEdges (graphOf fs)) ((passagesOf fs).filter (·.claim?.isNone)) := by
    refine List.rel_filter (fun e p hpair => ?_) (forall₂_mem_left h.edges)
    have hsource := hpair.2.source
    show decide (∃ group, (graphOf fs).Has e.source (.root group)) = true
      ↔ p.claim?.isNone = true
    rw [decide_eq_true_eq]
    cases howner : p.owner with
    | group group =>
        rw [howner] at hsource
        rw [Passage.claim?_eq_none_iff.2 ⟨group, howner⟩]
        exact ⟨fun _ => rfl, fun _ => ⟨group, hsource⟩⟩
    | join ref =>
        rw [howner] at hsource
        rw [Passage.claim?_eq_some_iff.2 howner]
        constructor
        · intro hroot
          obtain ⟨group, hgroup⟩ := hroot
          cases hlabelled.unique hsource hgroup
        · intro hfalse
          cases hfalse
  rw [List.forall₂_map_left_iff]
  refine (forall₂_comp hrooted (forall₂_starts h.ends)).imp fun e f hpair => ?_
  obtain ⟨p, ⟨he, hdraws⟩, group, rest, hstart, howner, hpassages⟩ := hpair
  exact ⟨group, p, rest, e, hstart, hpassages, howner, he, rfl, hdraws⟩

/-- The flow into the terminal comes from every root of sound rules, and
from each of them once. -/
theorem Sound.perm_roots (h : Sound fs) {f : Flow α} {roots : List Int}
    (hbuilds : (graphOf fs).Builds terminalId f roots) :
    roots.Perm ((rootedEdges (graphOf fs)).map (·.source)) := by
  have hclear := (sound_iff.1 h).2
  have hwell := wellFormed_graphOf fs
  have hnodup : roots.Nodup :=
    hbuilds.nodup_roots hwell ⟨terminalId, .refl, fun _ => hwell.not_arrow_terminal⟩
  have hnodup' : ((rootedEdges (graphOf fs)).map (·.source)).Nodup :=
    hwell.single.sublist (List.filter_sublist.map _)
  refine (List.perm_ext_iff_of_nodup hnodup hnodup').2 fun r => ?_
  rw [hbuilds.mem_roots_iff hwell, List.mem_map]
  constructor
  · intro hroot
    obtain ⟨⟨group, hr⟩, -⟩ := hroot
    obtain ⟨e, he, rfl⟩ := List.mem_map.1 ((stitched_draftOf fs).roots r group hr)
    exact ⟨e, mem_rootedEdges.2 ⟨he, group, hr⟩, rfl⟩
  · intro hedge
    obtain ⟨e, he, rfl⟩ := hedge
    obtain ⟨-, group, hr⟩ := mem_rootedEdges.1 he
    exact ⟨⟨group, hr⟩, hclear.2.1 e.source group hr⟩

/-- The roots of sound rules are, in some order, those of the fragments
that start from ingredients. -/
theorem Sound.exists_starts (h : Sound fs) {f : Flow α} {roots : List Int}
    (hbuilds : (graphOf fs).Builds terminalId f roots) :
    ∃ starts : List (Fragment α), List.Forall₂ (Opens fs) roots starts
      ∧ starts.Perm (fs.filter (!·.startsAtJoin)) :=
  List.perm_comp_forall₂ (h.perm_roots hbuilds) (sound_iff.1 h).1.forall₂_opens

-- ============================================================= meaning

/-- Is the way that of the fragment? It sets out from the leaf with the
ingredients of the fragment, and the actions along it are what is read in
the rules from the first passage of the fragment on. -/
def Tells (fs : List (Fragment α)) (way : List (StepTree α)) (f : Fragment α) : Prop :=
  ∃ group first rest leaf, f.start = .group group ∧ f.passages = first :: rest
    ∧ way.head? = some leaf ∧ leaf.ingredients = group.ingredients
    ∧ ∀ actions, Leads fs first actions ↔ actions = way.flatMap StepTree.actions

/-- From a root the edges spell out what is read from its fragment on. -/
theorem Opens.leads (hlinked : Linked fs) {r : Int} {f : Fragment α} (h : Opens fs r f)
    {actions : List (Action α)} (halong : (graphOf fs).Along r terminalId actions) :
    ∃ group first rest, f.start = .group group ∧ f.passages = first :: rest
      ∧ (graphOf fs).Has r (.root group) ∧ Leads fs first actions := by
  have hwell := wellFormed_graphOf fs
  obtain ⟨group, first, rest, e, hstart, hpassages, howner, he, rfl, hdraws⟩ := h
  have hroot := hdraws.source
  rw [howner] at hroot
  refine ⟨group, first, rest, hstart, hpassages, hroot, ?_⟩
  generalize hi : e.source = i at halong
  generalize hj : terminalId = j at halong
  cases halong with
  | here =>
      rw [hi, ← hj] at hroot
      cases hwell.labelled.unique hroot hwell.labelled.has_terminal
  | @on e' _ actions he' hrest =>
      have hsame := List.inj_on_of_nodup_map hwell.single he he' hi
      subst hsame
      rw [hdraws.actions]
      exact hlinked.leads_of_along hdraws rfl hj.symm hrest

/-- In a recipe that is free of problems, the ways from the leaves of the
tree to its root are, one for one, the readings of the fragments that
start from ingredients. -/
theorem ways_tell_rules {v : Verdict α} (h : checkFragments fs = .ok v)
    (hclean : v.diagnostics = []) :
    ∃ t, v.tree = some t
      ∧ t.ways.map List.head? = (t.walk.filter StepTree.isLeaf).map some
      ∧ (∀ way ∈ t.ways, way.IsChain (fun below above => below ∈ above.paths)
        ∧ way.getLast? = some t)
      ∧ ∃ starts : List (Fragment α), starts.Perm (fs.filter (!·.startsAtJoin))
        ∧ List.Forall₂ (Tells fs) t.ways starts := by
  have hsound : Sound fs := by
    by_contra hnot
    obtain ⟨v', hv', hne⟩ := check_of_not_sound hnot
    rw [h] at hv'
    cases hv'
    exact hne hclean
  obtain ⟨flow, roots, hbuilds, hcheck⟩ := check_of_sound hsound
  rw [hcheck] at h
  obtain ⟨-, -, hv⟩ := bind_eq_ok_iff.1 h
  cases hv
  have hlinked := (sound_iff.1 hsound).1
  have hwell := wellFormed_graphOf fs
  refine ⟨_, rfl, StepTree.heads_ways _, fun way hway => StepTree.chain_of_mem_ways hway, ?_⟩
  obtain ⟨starts, hopens, hperm⟩ := hsound.exists_starts hbuilds
  refine ⟨starts, hperm, ?_⟩
  have hmeets := hbuilds.climbs hsound.fed
  -- Each way is met at a root, and each root is opened by one fragment: the two are put
  -- together over the root.
  rw [← StepTree.climbs_root, StepTree.climbs, List.forall₂_map_left_iff] at hmeets
  refine (forall₂_mem_left (forall₂_comp hmeets hopens)).imp fun way f hpair => ?_
  obtain ⟨hway, r, ⟨group, hr, hingredients, halong⟩, hopen⟩ := hpair
  obtain ⟨group', first, rest, hstart, hpassages, hr', hleads⟩ := hopen.leads hlinked halong
  cases hwell.labelled.unique hr hr'
  cases hhead : way.head? with
  | none => exact absurd (List.head?_eq_none_iff.1 hhead) (StepTree.ne_nil_of_mem_ways hway)
  | some leaf =>
      refine ⟨group, first, rest, leaf, hstart, hpassages, hhead, ?_, fun actions => ?_⟩
      · rw [StepTree.met, hhead] at hingredients
        exact hingredients
      · constructor
        · intro hactions
          exact hlinked.leads_unique hactions hleads
        · intro hactions
          rw [hactions]
          exact hleads

/-- The two ways of the pancakes are the readings of their two groups. -/
theorem ways_tell_rules_pancakes :
    ∃ v, checkFragments pancakes = .ok v ∧ v.diagnostics = [] ∧ ∃ t, v.tree = some t
      ∧ ∃ starts : List (Fragment String), starts.Perm (pancakes.filter (!·.startsAtJoin))
        ∧ List.Forall₂ (Tells pancakes) t.ways starts := by
  obtain ⟨v, hv, hclean⟩ := map_eq_ok_iff.1 diagnostics_pancakes
  obtain ⟨t, ht, -, -, hways⟩ := ways_tell_rules hv hclean
  exact ⟨v, hv, hclean, t, ht, hways⟩

end RecipeChart
