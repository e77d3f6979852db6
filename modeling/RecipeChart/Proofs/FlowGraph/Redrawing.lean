/-
Graphs that differ in their numbers only. A graph is redrawn when its edges
are drawn in another order, so that its vertices get other numbers: edge by
edge the actions are the same and the ends are of the same kind.

A join has one vertex in each of the two graphs, and so has the terminal,
so ways between them carry over. Roots may be of equal groups and are told
apart by their edges alone: every root has one, so what is found on roots
is compared edge by edge. Loops run through joins, and the names on them
are the names on the loops of the other graph. Where a loop is cut open
depends on where the search meets it first, and that on the numbers.
-/
import RecipeChart.Proofs.FlowGraph.Analysing
import RecipeChart.Proofs.Matching

namespace RecipeChart

open Relation RecipeChart.Digraph

variable {α : Type}

-- ============================================================ findings

/-- Are the findings the same but for their spans, or do they tell of one
loop? -/
inductive Diagnostic.Alike : Diagnostic α → Diagnostic α → Prop where
  | same {d d' : Diagnostic α} (h : d.unplaced = d'.unplaced) : Alike d d'
  | turned {d d' : Diagnostic α} {c : Cycle (Option α)} (h : d.GoesRound c) (h' : d'.GoesRound c) :
      Alike d d'

/-- Are the findings alike, in whatever order? -/
def Diagnostic.Agree (ds ds' : List (Diagnostic α)) : Prop :=
  Multiset.Rel Alike (ds : Multiset (Diagnostic α)) ds'

/-- Findings that agree in two parts agree. -/
theorem Diagnostic.Agree.append {ds ds' es es' : List (Diagnostic α)} (h : Agree ds ds')
    (h' : Agree es es') : Agree (ds ++ es) (ds' ++ es') := by
  rw [Agree, ← Multiset.coe_add, ← Multiset.coe_add]
  exact Multiset.Rel.add h h'

/-- Findings that are the same but for their spans agree. -/
theorem Diagnostic.Agree.of_perm {ds ds' : List (Diagnostic α)}
    (h : (ds.map unplaced).Perm (ds'.map unplaced)) : Agree ds ds' := by
  have hmap : (ds : Multiset (Diagnostic α)).map unplaced = (ds' : Multiset _).map unplaced :=
    Multiset.coe_eq_coe.2 h
  rw [← Multiset.rel_eq, Multiset.rel_map] at hmap
  exact hmap.mono fun _ _ _ _ hsame => .same hsame

/-- Findings that agree are both none or both some. -/
theorem Diagnostic.Agree.nil_iff {ds ds' : List (Diagnostic α)} (h : Agree ds ds') :
    ds = [] ↔ ds' = [] := by
  have hcard := Multiset.card_eq_card_of_rel h
  rw [Multiset.coe_card, Multiset.coe_card] at hcard
  rw [← List.length_eq_zero_iff, ← List.length_eq_zero_iff, hcard]

namespace FlowGraph

-- =============================================================== edges

/-- Is it the same edge but for the numbers of its ends? -/
structure Mirrors (g g' : FlowGraph α) (e e' : Edge α) : Prop where
  actions : e.actions = e'.actions
  source : ∃ kind, g.Has e.source kind ∧ g'.Has e'.source kind
  target : ∃ kind, g.Has e.target kind ∧ g'.Has e'.target kind

/-- Two graphs with the same edges, in whatever order and with whatever
numbers. -/
structure Redrawn (g g' : FlowGraph α) : Prop where
  left : g.WellFormed
  right : g'.WellFormed
  edges : Multiset.Rel (Mirrors g g') g.edges g'.edges

variable {g g' : FlowGraph α} {i i' j : Int} {kind kind' : VertexKind α} {e e' : Edge α}

theorem Mirrors.symm (h : Mirrors g g' e e') : Mirrors g' g e' e :=
  ⟨h.actions.symm, h.source.imp fun _ => And.symm, h.target.imp fun _ => And.symm⟩

/-- To be redrawn goes both ways. -/
theorem Redrawn.symm (h : Redrawn g g') : Redrawn g' g :=
  ⟨h.right, h.left, (Multiset.rel_flip.2 h.edges).mono fun _ _ _ _ => Mirrors.symm⟩

/-- The source of a mirrored edge is of the kind that the source of the
edge is of. -/
theorem Mirrors.source_has (h : Mirrors g g' e e') (hg : g.Labelled) (hi : g.Has e.source kind) :
    g'.Has e'.source kind := by
  obtain ⟨kind', hsource, hsource'⟩ := h.source
  rwa [hg.unique hi hsource]

/-- The edge in the other graph arrives at the same kind. -/
theorem Mirrors.target_has (h : Mirrors g g' e e') (hg : g.Labelled) (hi : g.Has e.target kind) :
    g'.Has e'.target kind := by
  obtain ⟨kind', htarget, htarget'⟩ := h.target
  rwa [hg.unique hi htarget]

/-- Every edge has its like in the other graph. -/
theorem Redrawn.exists_edge (h : Redrawn g g') (he : e ∈ g.edges) :
    ∃ e' ∈ g'.edges, Mirrors g g' e e' := by
  obtain ⟨e', he', hmirrors⟩ := Multiset.exists_mem_of_rel_of_mem h.edges (Multiset.mem_coe.2 he)
  exact ⟨e', Multiset.mem_coe.1 he', hmirrors⟩

-- ================================================================ ways

section Ways

variable [DecidableEq α]

/-- An arrow between vertices that are no roots is carried over. -/
theorem Redrawn.exists_arrow (h : Redrawn g g') (hij : g.digraph.Arrow i j)
    (hkind : kind.group? = none) (hi : g.Has i kind) (hi' : g'.Has i' kind)
    (hj : g.Has j kind') : ∃ j', g'.digraph.Arrow i' j' ∧ g'.Has j' kind' := by
  obtain ⟨e, he, rfl, rfl⟩ := arrow_iff.1 hij
  obtain ⟨e', he', hmirrors⟩ := h.exists_edge he
  have hsource := h.right.labelled.unique_id hkind (hmirrors.source_has h.left.labelled hi) hi'
  exact ⟨e'.target, arrow_iff.2 ⟨e', he', hsource, rfl⟩, hmirrors.target_has h.left.labelled hj⟩

/-- A way to the terminal is carried over. -/
theorem Redrawn.path_terminal (h : Redrawn g g')
    (hpath : ReflTransGen g.digraph.Arrow i terminalId) (hkind : kind.group? = none)
    (hi : g.Has i kind) (hi' : g'.Has i' kind) :
    ReflTransGen g'.digraph.Arrow i' terminalId := by
  induction hpath using ReflTransGen.head_induction_on generalizing i' kind with
  | refl =>
      rw [h.left.labelled.unique hi h.left.labelled.has_terminal] at hi'
      rw [h.right.labelled.has_terminal_iff.1 hi']
  | head harrow _ ih =>
      obtain ⟨-, kind', hj, hkind'⟩ := h.left.has_of_arrow harrow
      obtain ⟨j', harrow', hj'⟩ := h.exists_arrow harrow hkind hi hi' hj
      exact .head harrow' (ih hkind' hj hj')

/-- A way to the terminal from the source of an edge, which may be a root,
is carried over with the edge. -/
theorem Redrawn.path_of_mirrors (h : Redrawn g g') (he : e ∈ g.edges) (he' : e' ∈ g'.edges)
    (hmirrors : Mirrors g g' e e') (hpath : ReflTransGen g.digraph.Arrow e.source terminalId) :
    ReflTransGen g'.digraph.Arrow e'.source terminalId := by
  have harrow : g.digraph.Arrow e.source e.target := arrow_iff.2 ⟨e, he, rfl, rfl⟩
  rcases hpath.cases_head with hterminal | ⟨j, hj, hrest⟩
  · rw [hterminal] at harrow
    exact absurd harrow h.left.not_arrow_terminal
  · -- the first step is taken along the edge: roots of one kind are not told apart by it
    rw [h.left.single_digraph.unique hj harrow] at hrest
    obtain ⟨kind, htarget, hkind⟩ := h.left.targets e he
    refine .head (arrow_iff.2 ⟨e', he', rfl, rfl⟩) ?_
    exact h.path_terminal hrest hkind htarget (hmirrors.target_has h.left.labelled htarget)

end Ways

-- =============================================================== loops

section Loops

/-- Loops run through joins: no arrow enters a root, and none leaves the
terminal. -/
theorem WellFormed.exists_join_of_round (h : g.WellFormed) {c : Cycle Int}
    (hc : g.digraph.IsRound c) (hi : i ∈ c) : ∃ name, g.Has i (.join name) := by
  obtain ⟨j, hj, hout⟩ := TransGen.head'_iff.1 (hc.leads hi hi)
  obtain ⟨k, hk, hin⟩ := TransGen.tail'_iff.1 (hc.leads hi hi)
  obtain ⟨⟨kind, hkind, hne⟩, -⟩ := h.has_of_arrow hj
  obtain ⟨-, kind', hkind', hnone⟩ := h.has_of_arrow hin
  rw [h.labelled.unique hkind' hkind] at hnone
  cases kind with
  | terminal => exact absurd rfl hne
  | join name => exact ⟨name, hkind⟩
  | root group => cases hnone

/-- The names on the loops of the graph are those that are reported: every
join on a loop is a start of the search. -/
theorem WellFormed.mem_loopNames (h : g.WellFormed) {names : Cycle (Option α)} :
    names ∈ g.loopNames ↔ ∃ c, g.digraph.IsRound c ∧ c.map g.nameAt = names := by
  rw [loopNames, List.mem_map]
  refine exists_congr fun c => and_congr_left fun _ => ?_
  rw [mem_reports_nil_iff h.single_digraph]
  refine ⟨fun hc => hc.1, fun hc => ⟨hc, ?_⟩⟩
  obtain ⟨i, hi⟩ := hc.exists_mem
  obtain ⟨name, hname⟩ := h.exists_join_of_round hc hi
  exact ⟨i, mem_starts_iff.2 ⟨_, hname, VertexKind.join_ne_terminal⟩, i, hi, .refl⟩

variable [DecidableEq α]

/-- No two loops bear the same names. -/
theorem WellFormed.nodup_loopNames (h : g.WellFormed) : g.loopNames.Nodup := by
  refine (nodup_reports h.single_digraph (Closed.nil g.digraph)).map_on fun c hc c' hc' hsame => ?_
  have hround := ((mem_reports_nil_iff h.single_digraph).1 hc).1
  have hround' := ((mem_reports_nil_iff h.single_digraph).1 hc').1
  -- the join of a name is one vertex, and a vertex is on one loop at most
  obtain ⟨i, hi⟩ := hround.exists_mem
  have hname : g.nameAt i ∈ c'.map g.nameAt := hsame ▸ Cycle.mem_map.2 ⟨i, hi, rfl⟩
  obtain ⟨j, hj, hname⟩ := Cycle.mem_map.1 hname
  obtain ⟨a, ha⟩ := h.exists_join_of_round hround hi
  obtain ⟨b, hb⟩ := h.exists_join_of_round hround' hj
  rw [h.labelled.nameAt_eq ha, h.labelled.nameAt_eq hb] at hname
  cases hname
  rw [h.labelled.unique_join hb ha] at hj
  exact hround.unique hround' h.single_digraph hi hj

/-- The vertex that the join of this vertex has in the other graph. -/
def renumber (g g' : FlowGraph α) (i : Int) : Int := ((g.nameAt i).bind g'.join?).getD i

/-- The join of a vertex has its vertex in the other graph. -/
theorem Redrawn.has_renumber (h : Redrawn g g') {name : α} (hi : g.Has i (.join name))
    (hij : g.digraph.Arrow i j) : g'.Has (renumber g g' i) (.join name) := by
  obtain ⟨e, he, rfl, -⟩ := arrow_iff.1 hij
  obtain ⟨e', -, hmirrors⟩ := h.exists_edge he
  have hsource := hmirrors.source_has h.left.labelled hi
  rw [renumber, h.left.labelled.nameAt_eq hi]
  show g'.Has ((g'.join? name).getD e.source) _
  rw [h.right.labelled.join?_eq_some_iff.2 hsource]
  exact hsource

/-- A loop is carried over, with the names on it. -/
theorem Redrawn.loop (h : Redrawn g g') {c : Cycle Int} (hc : g.digraph.IsRound c) :
    g'.digraph.IsRound (c.map (renumber g g'))
      ∧ (c.map (renumber g g')).map g'.nameAt = c.map g.nameAt := by
  have hjoin : ∀ x ∈ c, ∃ name, g.Has x (.join name) ∧ g'.Has (renumber g g' x) (.join name) := by
    intro x hx
    obtain ⟨name, hname⟩ := h.left.exists_join_of_round hc hx
    obtain ⟨y, hxy⟩ := hc.exists_arrow hx
    exact ⟨name, hname, h.has_renumber hname hxy⟩
  constructor
  · refine hc.map (fun x hx y hy hsame => ?_) fun x hx y hy hxy => ?_
    · obtain ⟨a, ha, ha'⟩ := hjoin x hx
      obtain ⟨b, hb, hb'⟩ := hjoin y hy
      rw [hsame] at ha'
      cases h.right.labelled.unique ha' hb'
      exact h.left.labelled.unique_join ha hb
    · obtain ⟨a, ha, ha'⟩ := hjoin x hx
      obtain ⟨b, hb, hb'⟩ := hjoin y hy
      obtain ⟨z, hz, hzkind⟩ := h.exists_arrow hxy rfl ha ha' hb
      rwa [h.right.labelled.unique_join hb' hzkind]
  · obtain ⟨i, hi⟩ := hc.exists_mem
    obtain ⟨around, rfl⟩ := exists_cut hi
    rw [Cycle.map_coe, Cycle.map_coe, Cycle.map_coe, List.map_map]
    refine congrArg _ (List.map_congr_left fun x hx => ?_)
    obtain ⟨name, hname, hname'⟩ := hjoin x (Cycle.mem_coe_iff.2 hx)
    rw [Function.comp_apply, h.right.labelled.nameAt_eq hname', h.left.labelled.nameAt_eq hname]

/-- The names along the loops are the same in both graphs, in whatever
order. -/
theorem Redrawn.perm_loopNames (h : Redrawn g g') : g.loopNames.Perm g'.loopNames := by
  refine (List.perm_ext_iff_of_nodup h.left.nodup_loopNames h.right.nodup_loopNames).2
    fun names => ?_
  rw [h.left.mem_loopNames, h.right.mem_loopNames]
  constructor
  · intro ⟨c, hc, hnames⟩
    obtain ⟨hround, hsame⟩ := h.loop hc
    exact ⟨_, hround, hsame.trans hnames⟩
  · intro ⟨c, hc, hnames⟩
    obtain ⟨hround, hsame⟩ := h.symm.loop hc
    exact ⟨_, hround, hsame.trans hnames⟩

/-- The findings on loops are alike. -/
theorem Redrawn.cycles (h : Redrawn g g') {found found' : List (Diagnostic α)}
    (hfound : g.cycles = .ok found) (hfound' : g'.cycles = .ok found') :
    Diagnostic.Agree found found' := by
  obtain ⟨ds, hds, hgoes⟩ := h.left.cycles_goesRound
  cases hfound.symm.trans hds
  obtain ⟨ds', hds', hgoes'⟩ := h.right.cycles_goesRound
  cases hfound'.symm.trans hds'
  have hnames := rel_of_forall₂ hgoes
  rw [Multiset.coe_eq_coe.2 h.perm_loopNames] at hnames
  refine (rel_comp hnames (rel_of_forall₂ hgoes'.flip)).mono fun d _ d' _ hpair => ?_
  obtain ⟨c, hd, hd'⟩ := hpair
  exact .turned hd hd'

end Loops

-- ============================================================= arriving

section Arriving

/-- What is found on the vertex of this number, spans apart, if it does not
arrive. -/
def strayAt (g : FlowGraph α) (i : Int) : Option (Diagnostic α) :=
  (g.labels.lookup i).bind fun
    | .root group =>
      if i ∈ g.digraph.reachBack terminalId then none else some (.disconnected group.unplaced none)
    | _ => none

/-- What is found cut off is told vertex by vertex, in the order of the
table. -/
theorem Labelled.map_disconnected (h : g.Labelled) :
    g.disconnected.map Diagnostic.unplaced = (g.vertices.map (·.id)).filterMap g.strayAt := by
  rw [FlowGraph.disconnected, List.map_filterMap, List.filterMap_map]
  refine List.filterMap_congr fun v hv => ?_
  rw [Function.comp_apply, strayAt, (lookup_iff_mem h.nodup).2 (has_of_mem hv)]
  cases v.kind with
  | terminal => rfl
  | join name => rfl
  | root group =>
      show Option.map _ (if _ then _ else _) = (if _ then _ else _)
      split <;> rfl

/-- Every root is found at the source of its edge. -/
theorem WellFormed.perm_disconnected (h : g.WellFormed)
    (hroots : ∀ i group, g.Has i (.root group) → i ∈ g.edges.map (·.source)) :
    (g.disconnected.map Diagnostic.unplaced).Perm
      (g.edges.filterMap fun e => g.strayAt e.source) := by
  have hsources : ((g.vertices.map (·.id)).filter (· ∈ g.edges.map (·.source))).Perm
      (g.edges.map (·.source)) := by
    refine (List.perm_ext_iff_of_nodup (h.labelled.nodup_ids.filter _) h.single).2 fun i => ?_
    rw [List.mem_filter, decide_eq_true_eq]
    refine ⟨And.right, fun hi => ⟨?_, hi⟩⟩
    obtain ⟨e, he, rfl⟩ := List.mem_map.1 hi
    obtain ⟨kind, hkind, -⟩ := h.sources e he
    obtain ⟨v, hv, hid, -⟩ := exists_vertex hkind
    exact List.mem_map.2 ⟨v, hv, hid⟩
  -- What no edge leaves is no root.
  have hothers : ((g.vertices.map (·.id)).filter
      fun i => !decide (i ∈ g.edges.map (·.source))).filterMap g.strayAt = [] := by
    rw [List.filterMap_eq_nil_iff]
    intro i hi
    rw [List.mem_filter, Bool.not_eq_true', decide_eq_false_iff_not] at hi
    obtain ⟨v, hv, rfl⟩ := List.mem_map.1 hi.1
    rw [strayAt, (lookup_iff_mem h.labelled.nodup).2 (has_of_mem hv)]
    cases hkind : v.kind with
    | terminal => rfl
    | join name => rfl
    | root group => exact absurd (hroots _ group (hkind ▸ has_of_mem hv)) hi.2
  have hsplit := (List.filter_append_perm (fun i => decide (i ∈ g.edges.map (·.source)))
    (g.vertices.map (·.id))).filterMap g.strayAt
  rw [List.filterMap_append, hothers, List.append_nil] at hsplit
  rw [h.labelled.map_disconnected, show (fun e => g.strayAt e.source)
    = g.strayAt ∘ fun e : Edge α => e.source from rfl, ← List.filterMap_map]
  exact hsplit.symm.trans (hsources.filterMap g.strayAt)

/-- Something arrives at the end in both graphs or in neither. -/
theorem Redrawn.exists_arrow_terminal (h : Redrawn g g')
    (hin : ∃ i, g.digraph.Arrow i terminalId) : ∃ i, g'.digraph.Arrow i terminalId := by
  obtain ⟨i, hi⟩ := hin
  obtain ⟨e, he, -, hterminal⟩ := arrow_iff.1 hi
  obtain ⟨e', he', hmirrors⟩ := h.exists_edge he
  have htarget := hmirrors.target_has h.left.labelled (h.left.labelled.has_terminal_iff.2 hterminal)
  exact ⟨e'.source, arrow_iff.2 ⟨e', he', rfl, h.right.labelled.has_terminal_iff.1 htarget⟩⟩

/-- A graph is found empty once or not at all. -/
theorem emptiness_cases {found : List (Diagnostic α)} (h : g.emptiness = .ok found) :
    found = [] ∨ found = [.emptyRecipe none] := by
  obtain ⟨count, -, h⟩ := bind_eq_ok_iff.1 h
  cases h
  split
  · exact .inr rfl
  · exact .inl rfl

/-- The finding on a recipe in which nothing arrives is the same. -/
theorem Redrawn.emptiness (h : Redrawn g g') {found found' : List (Diagnostic α)}
    (hfound : g.emptiness = .ok found) (hfound' : g'.emptiness = .ok found') : found = found' := by
  obtain ⟨ds, hds, hnil⟩ := h.left.emptiness_spec
  cases hfound.symm.trans hds
  obtain ⟨ds', hds', hnil'⟩ := h.right.emptiness_spec
  cases hfound'.symm.trans hds'
  have hsame : found = [] ↔ found' = [] := by
    rw [hnil, hnil']
    exact ⟨h.exists_arrow_terminal, h.symm.exists_arrow_terminal⟩
  rcases emptiness_cases hfound with rfl | rfl
  · exact (hsame.1 rfl).symm
  · rcases emptiness_cases hfound' with rfl | rfl
    · cases hsame.2 rfl
    · rfl

variable [DecidableEq α]

/-- The same is found on the sources of mirrored edges. -/
theorem Redrawn.strayAt_eq (h : Redrawn g g') (he : e ∈ g.edges) (he' : e' ∈ g'.edges)
    (hmirrors : Mirrors g g' e e') : g.strayAt e.source = g'.strayAt e'.source := by
  obtain ⟨kind, hsource, hsource'⟩ := hmirrors.source
  rw [strayAt, strayAt, (lookup_iff_mem h.left.labelled.nodup).2 hsource,
    (lookup_iff_mem h.right.labelled.nodup).2 hsource']
  have hpath : e.source ∈ g.digraph.reachBack terminalId
      ↔ e'.source ∈ g'.digraph.reachBack terminalId := by
    rw [mem_reachBack, mem_reachBack]
    exact ⟨h.path_of_mirrors he he' hmirrors, h.symm.path_of_mirrors he' he hmirrors.symm⟩
  cases kind with
  | terminal => rfl
  | join name => rfl
  | root group => simp only [Option.bind_some, hpath]

/-- The findings on ingredients that do not arrive are the same. -/
theorem Redrawn.disconnected (h : Redrawn g g')
    (hroots : ∀ i group, g.Has i (.root group) → i ∈ g.edges.map (·.source))
    (hroots' : ∀ i group, g'.Has i (.root group) → i ∈ g'.edges.map (·.source)) :
    (g.disconnected.map Diagnostic.unplaced).Perm (g'.disconnected.map Diagnostic.unplaced) := by
  have hedges : (g.edges.filterMap fun e => g.strayAt e.source).Perm
      (g'.edges.filterMap fun e => g'.strayAt e.source) :=
    Multiset.coe_eq_coe.1 <| filterMap_eq_of_rel h.edges fun e he e' he' hmirrors =>
      h.strayAt_eq (Multiset.mem_coe.1 he) (Multiset.mem_coe.1 he') hmirrors
  exact (h.left.perm_disconnected hroots).trans
    (hedges.trans (h.right.perm_disconnected hroots').symm)

/-- What the analysis finds in the two graphs agrees. -/
theorem Redrawn.analyze (h : Redrawn g g')
    (hroots : ∀ i group, g.Has i (.root group) → i ∈ g.edges.map (·.source))
    (hroots' : ∀ i group, g'.Has i (.root group) → i ∈ g'.edges.map (·.source))
    {earlier earlier' : List (Diagnostic α)} {a a' : Analysis α} (ha : g.analyze earlier = .ok a)
    (ha' : g'.analyze earlier' = .ok a') : Diagnostic.Agree a.diagnostics a'.diagnostics := by
  obtain ⟨loops, empty, hloops, hempty, heq⟩ := findings_of_analyze ha
  obtain ⟨loops', empty', hloops', hempty', heq'⟩ := findings_of_analyze ha'
  rw [heq, heq', h.emptiness hempty hempty']
  refine .append (.append (h.cycles hloops hloops') ?_) (.of_perm (List.Perm.refl _))
  exact .of_perm (h.disconnected hroots hroots')

end Arriving

end FlowGraph

end RecipeChart
