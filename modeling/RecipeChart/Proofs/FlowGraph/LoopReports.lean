/-
The findings on loops. In a stitched graph a loop runs through joins only,
and a join is one vertex, so the names in a finding tell which loop it is.
Each loop of the graph has one finding. It names the join at which the
first start that leads into the loop comes to it, then the joins around
the loop as one follows the other, and that join again.

Roots and joins are the starts, so no loop is without one: in the end, a
join on the loop leads into it.
-/
import RecipeChart.Proofs.Digraph.Reporting
import RecipeChart.Proofs.FlowGraph.Redrawing
import RecipeChart.Proofs.FlowGraph.Soundness

namespace RecipeChart

open Relation RecipeChart.Digraph

variable {α : Type}

/-- Is it a finding on a loop? -/
def Diagnostic.isCycle : Diagnostic α → Bool
  | .cycle .. => true
  | _ => false

namespace FlowGraph

variable {g : FlowGraph α} {i j : Int} {kind : VertexKind α}

-- ========================================================== successors

/-- What a vertex records as its way on: none where no edge leaves it, and
else where its edge leads. -/
theorem WellFormed.successor_cases (h : g.WellFormed) (hi : g.Has i kind) :
    (g.successor i = .ok none ∧ ∀ j, ¬ g.digraph.Arrow i j)
      ∨ ∃ j, g.successor i = .ok (some j) ∧ g.digraph.Arrow i j := by
  obtain ⟨v, hv, rfl, -⟩ := exists_vertex hi
  have hrecord : g.successor v.id
      = (v.outgoing.mapM g.edge).map fun recorded => recorded.map (·.target) := by
    rw [successor, outgoingEdge, h.labelled.vertex_eq hv]
    show (v.outgoing.mapM g.edge >>= fun recorded => Except.ok (recorded.map (·.target))) = _
    cases v.outgoing.mapM g.edge <;> rfl
  rw [hrecord]
  rcases h.outgoing_cases hv with ⟨hout, hempty⟩ | ⟨e, he, hsource, hout, -⟩
  · left
    rw [hout]
    refine ⟨rfl, fun j harrow => ?_⟩
    obtain ⟨e, he, hsource, -⟩ := arrow_iff.1 harrow
    exact List.filter_eq_nil_iff.1 hempty e he (decide_eq_true hsource)
  · right
    have hedge : v.outgoing.mapM g.edge = .ok (some e) := by
      rw [hout]
      show (some <$> g.edge e.id) = _
      rw [h.edge_eq he]
      rfl
    rw [hedge]
    exact ⟨e.target, rfl, arrow_iff.2 ⟨e, he, hsource, rfl⟩⟩

/-- What a vertex records as its way on is where its arrow leads. -/
theorem WellFormed.successor_eq_some_iff (h : g.WellFormed) (hi : g.Has i kind) :
    g.successor i = .ok (some j) ↔ g.digraph.Arrow i j := by
  rcases h.successor_cases hi with ⟨hrecord, hnone⟩ | ⟨k, hrecord, harrow⟩
  · rw [hrecord]
    exact ⟨fun hsome => (nomatch hsome), fun hij => absurd hij (hnone j)⟩
  · rw [hrecord]
    constructor
    · intro hsome
      cases hsome
      exact harrow
    · intro hij
      rw [h.single_digraph.unique hij harrow]

/-- The roots, and then the joins, are told apart by their numbers. -/
theorem Labelled.nodup_starts (h : g.Labelled) : g.starts.Nodup := by
  have hids := h.nodup_ids
  rw [starts, List.map_append]
  refine List.nodup_append.2 ⟨hids.sublist (List.filter_sublist.map _),
    hids.sublist (List.filter_sublist.map _), fun a ha b hb heq => ?_⟩
  subst heq
  obtain ⟨v, hv, rfl⟩ := List.mem_map.1 ha
  obtain ⟨w, hw, hsame⟩ := List.mem_map.1 hb
  obtain ⟨hv, hroot⟩ := List.mem_filter.1 hv
  obtain ⟨hw, hjoin⟩ := List.mem_filter.1 hw
  rw [List.inj_on_of_nodup_map hids hw hv hsame] at hjoin
  cases hkind : v.kind <;> rw [hkind] at hroot hjoin
  · cases hroot
  · cases hroot
  · cases hjoin

-- ============================================================= findings

section Findings

variable [DecidableEq α]

/-- Does the second join follow the first one? -/
def Follows (g : FlowGraph α) (a b : α) : Prop :=
  ∃ i j, g.join? a = some i ∧ g.join? b = some j ∧ g.successor i = .ok (some j)

/-- Does the finding tell of the loop, for this start? No earlier start
leads into the loop, and the way from this one comes to it at the join that
is named first. The joins are named as they follow one another. -/
structure Tells (g : FlowGraph α) (start : Int) (c : Cycle Int) (finding : Diagnostic α) :
    Prop where
  first : ∃ earlier later, g.starts = earlier ++ start :: later
    ∧ ∀ u ∈ earlier, ¬ g.digraph.RunsInto u c
  names : ∃ name names i around span, c = ↑(i :: around) ∧ g.digraph.Meets start c i
    ∧ (name :: names).map g.join? = (i :: around).map some ∧ (name :: names).Nodup
    ∧ (name :: names ++ [name]).IsChain g.Follows
    ∧ finding = .cycle (some name) ((name :: names ++ [name]).map some) span

/-- The joins that have the vertices of a loop. -/
theorem WellFormed.exists_names (h : g.WellFormed) {vertices : List Int}
    (hall : ∀ x ∈ vertices, ∃ name, g.Has x (.join name)) :
    ∃ names : List α, names.map g.join? = vertices.map some
      ∧ vertices.map g.nameAt = names.map some := by
  induction vertices with
  | nil => exact ⟨[], rfl, rfl⟩
  | cons x vertices ih =>
      rw [List.forall_mem_cons] at hall
      obtain ⟨⟨name, hname⟩, hall⟩ := hall
      obtain ⟨names, hjoins, hnames⟩ := ih hall
      refine ⟨name :: names, ?_, ?_⟩
      · rw [List.map_cons, List.map_cons, hjoins, h.labelled.join?_eq_some_iff.2 hname]
      · rw [List.map_cons, List.map_cons, hnames, h.labelled.nameAt_eq hname]
        rfl

/-- Where vertices follow one another, so do their joins. -/
theorem WellFormed.isChain_follows (h : g.WellFormed) {vertices : List Int} {names : List α}
    (hnames : names.map g.join? = vertices.map some) (hchain : vertices.IsChain g.digraph.Arrow) :
    names.IsChain g.Follows := by
  refine (List.isChain_map (R := fun x y => ∃ i j, x = some i ∧ y = some j
    ∧ g.successor i = .ok (some j)) g.join?).1 ?_
  rw [hnames, List.isChain_map]
  refine hchain.imp fun i j hij => ⟨i, j, rfl, rfl, ?_⟩
  obtain ⟨⟨kind, hi, -⟩, -⟩ := h.has_of_arrow hij
  exact (h.successor_eq_some_iff hi).2 hij

/-- A finding on a loop that is reported for a start tells of it. -/
theorem WellFormed.tells_of_reportedFor (h : g.WellFormed) {start : Int} {around : List Int}
    {span : Option Span} (hround : g.digraph.IsRound ↑(i :: around))
    (hreported : g.digraph.ReportedFor g.starts (i :: around) start) :
    g.Tells start ↑(i :: around)
      (.cycle (g.nameAt i) ((i :: around).map g.nameAt ++ [g.nameAt i]) span) := by
  obtain ⟨hfirst, w, around', heq, hmeets⟩ := hreported
  cases heq
  obtain ⟨names, hjoins, hnames⟩ := h.exists_names fun x hx =>
    h.exists_join_of_round hround (Cycle.mem_coe_iff.2 hx)
  cases names with
  | nil => cases hjoins
  | cons name names =>
      have hname : g.nameAt i = some name := (List.cons.inj hnames).1
      have hclosed : (name :: names ++ [name]).map g.join? = (i :: around ++ [i]).map some := by
        rw [List.map_append, List.map_append, hjoins]
        exact congrArg (_ ++ [·]) (List.cons.inj hjoins).1
      refine ⟨hfirst, name, names, i, around, span, rfl, hmeets, hjoins, ?_, ?_, ?_⟩
      · have hids : ((i :: around).map some).Nodup :=
          (Cycle.nodup_coe_iff.1 hround.nodup).map (Option.some_injective Int)
        rw [← hjoins] at hids
        exact hids.of_map
      · exact h.isChain_follows hclosed ((Cycle.chain_coe_cons _ _ _).1 hround.chain)
      · rw [hnames, hname, List.map_append]
        rfl

/-- A finding tells of one loop at most. -/
theorem Tells.unique {start start' : Int} {c c' : Cycle Int} {finding : Diagnostic α}
    (h : g.Tells start c finding) (h' : g.Tells start' c' finding) : c = c' := by
  obtain ⟨-, name, names, i, around, span, rfl, -, hjoins, -, -, rfl⟩ := h
  obtain ⟨-, name', names', i', around', span', rfl, -, hjoins', -, -, heq⟩ := h'
  injection heq with hname hloop _
  have hsame : name :: names ++ [name] = name' :: names' ++ [name'] :=
    List.map_injective_iff.2 (Option.some_injective α) hloop
  have hsplit := List.append_inj_left' hsame rfl
  rw [hsplit, hjoins'] at hjoins
  rw [List.map_injective_iff.2 (Option.some_injective Int) hjoins]

theorem Tells.isCycle {start : Int} {c : Cycle Int} {finding : Diagnostic α}
    (h : g.Tells start c finding) : finding.isCycle = true := by
  obtain ⟨-, name, names, i, around, span, -, -, -, -, -, rfl⟩ := h
  rfl

/-- The findings on the loops of a graph: one for each loop, in the order
of the first starts that lead into them. -/
theorem WellFormed.cycles_tell (h : g.WellFormed) :
    ∃ found, g.cycles = .ok found ∧ ∃ entries : List (Int × Cycle Int),
      List.Forall₂ (fun finding entry => g.Tells entry.1 entry.2 finding) found entries
        ∧ (entries.map Prod.fst).Sublist g.starts
        ∧ entries.map Prod.snd = g.digraph.reports g.starts [] := by
  obtain ⟨found, hfound, hfindings⟩ := h.cycles_eq
  obtain ⟨heads, hsub, hheads⟩ : ∃ heads, heads.Sublist g.starts
      ∧ List.Forall₂ (g.digraph.ReportedFor g.starts) (g.digraph.loops g.starts []) heads :=
    exists_heads h.single_digraph (Closed.nil g.digraph)
  obtain ⟨pairs, hloops, rfl, hpairs⟩ := exists_pairs hheads
  refine ⟨found, hfound, pairs.map fun p => (p.2, (p.1 : Cycle Int)), ?_, ?_, ?_⟩
  · rw [← hloops, List.forall₂_map_left_iff] at hfindings
    rw [List.forall₂_map_right_iff]
    refine ((forall₂_mem_left hfindings).imp fun ⟨loop, start⟩ finding hp => ?_).flip
    obtain ⟨hmem, hround, i, around, span, rfl, rfl⟩ := hp
    exact h.tells_of_reportedFor hround (hpairs _ hmem)
  · rw [List.map_map]
    exact hsub
  · rw [reports, ← hloops, List.map_map, List.map_map]
    rfl

/-- The findings on loops are on loops, and each loop that is led into from
a start has one. -/
theorem WellFormed.tells_of_cycles (h : g.WellFormed) {found : List (Diagnostic α)}
    (hfound : g.cycles = .ok found) :
    (∀ finding ∈ found, finding.isCycle = true)
      ∧ ∀ c, g.digraph.IsRound c → (∃ i ∈ g.starts, g.digraph.RunsInto i c) →
        ∃ finding ∈ found, ∃ start, g.Tells start c finding := by
  obtain ⟨found', hfound', entries, htells, -, hreports⟩ := h.cycles_tell
  cases hfound.symm.trans hfound'
  constructor
  · intro finding hfinding
    obtain ⟨entry, -, hentry⟩ := counterpart_of_mem_left htells hfinding
    exact hentry.isCycle
  · intro c hround hstart
    have hreported := (mem_reports_nil_iff h.single_digraph).2 ⟨hround, hstart⟩
    rw [← hreports] at hreported
    obtain ⟨entry, hentry, rfl⟩ := List.mem_map.1 hreported
    obtain ⟨finding, hfinding, hentry⟩ := counterpart_of_mem_right htells hentry
    exact ⟨finding, hfinding, entry.1, hentry⟩

omit [DecidableEq α] in
/-- The findings on loops among all that an analysis finds. -/
theorem filter_isCycle_of_analyze {earlier found : List (Diagnostic α)} {a : Analysis α}
    (h : g.analyze earlier = .ok a) (hfound : g.cycles = .ok found)
    (hcycles : ∀ finding ∈ found, finding.isCycle = true) :
    a.diagnostics.filter Diagnostic.isCycle = found := by
  obtain ⟨loops, empty, hloops, hempty, hdiagnostics⟩ := findings_of_analyze h
  cases hfound.symm.trans hloops
  have hdisconnected : g.disconnected.filter Diagnostic.isCycle = [] := by
    rw [List.filter_eq_nil_iff]
    intro finding hfinding
    obtain ⟨v, -, hv⟩ := List.mem_filterMap.1 hfinding
    split at hv
    · split at hv
      · cases hv
      · cases hv
        exact Bool.false_ne_true
    · cases hv
  have hemptiness : empty.filter Diagnostic.isCycle = [] := by
    obtain ⟨n, -, hn⟩ := bind_eq_ok_iff.1 hempty
    cases hn
    split <;> rfl
  rw [hdiagnostics, List.filter_append, List.filter_append, hdisconnected, hemptiness,
    List.append_nil, List.append_nil, List.filter_eq_self]
  exact hcycles

end Findings

end FlowGraph

open FlowGraph

/-- The findings on loops, in a graph that is stitched from fragments. The
analysis has a result, a vertex records as its way on where its arrow
leads, each start stands once among the starts, and a finding tells of one
loop only. Whatever was found before, the findings on loops belong one by
one to the loops of the graph, each loop once; each tells of its loop, for
the first start that leads into it; and they come in the order of these
starts. -/
theorem analyze_tells_loops [DecidableEq α] (fs : List (Fragment α)) :
    (∃ a, (stitch fs).1.analyze (stitch fs).2 = .ok a)
      ∧ (∀ i kind, (stitch fs).1.Has i kind → ∀ j,
        (stitch fs).1.successor i = .ok (some j) ↔ (stitch fs).1.digraph.Arrow i j)
      ∧ (stitch fs).1.starts.Nodup
      ∧ (∀ finding start c start' c', (stitch fs).1.Tells start c finding →
        (stitch fs).1.Tells start' c' finding → c = c')
      ∧ ∀ earlier a, (stitch fs).1.analyze earlier = .ok a →
        ∃ entries : List (Int × Cycle Int),
          List.Forall₂ (fun finding entry => (stitch fs).1.Tells entry.1 entry.2 finding)
              (a.diagnostics.filter Diagnostic.isCycle) entries
            ∧ (entries.map Prod.snd).Nodup
            ∧ (∀ c, c ∈ entries.map Prod.snd ↔ (stitch fs).1.digraph.IsRound c)
            ∧ (entries.map Prod.fst).Sublist (stitch fs).1.starts := by
  have hwell : (stitch fs).1.WellFormed := wellFormed_graphOf fs
  obtain ⟨a, ha, -⟩ := analyze_stitch fs
  refine ⟨⟨a, ha⟩, fun i kind hi j => hwell.successor_eq_some_iff hi, hwell.labelled.nodup_starts,
    fun finding start c start' c' h h' => h.unique h', fun earlier a ha => ?_⟩
  obtain ⟨found, hfound, entries, htells, hsub, hreports⟩ := hwell.cycles_tell
  have hcycles : ∀ finding ∈ found, finding.isCycle = true := by
    intro finding hfinding
    obtain ⟨entry, -, hentry⟩ := counterpart_of_mem_left htells hfinding
    obtain ⟨-, name, names, i, around, span, -, -, -, -, -, rfl⟩ := hentry
    rfl
  rw [filter_isCycle_of_analyze ha hfound hcycles]
  refine ⟨entries, htells, ?_, fun c => ?_, hsub⟩
  · rw [hreports]
    exact nodup_reports hwell.single_digraph (Closed.nil _)
  · rw [hreports, mem_reports_nil_iff hwell.single_digraph]
    refine ⟨fun hc => hc.1, fun hc => ⟨hc, ?_⟩⟩
    -- a join on the loop is a start that leads into it
    obtain ⟨i, hi⟩ := hc.exists_mem
    obtain ⟨name, hname⟩ := hwell.exists_join_of_round hc hi
    exact ⟨i, mem_starts_iff.2 ⟨_, hname, VertexKind.join_ne_terminal⟩, i, hi, .refl⟩

/-- Two joins that lead to each other, tea that comes to the one that is
mentioned second, and a join that leads to itself. -/
def roundabout : List (Fragment String) :=
  [⟨.join ⟨"pot", none⟩, [.step ⟨⟨"pour", []⟩, none⟩], some (.join ⟨"cup", none⟩)⟩,
    ⟨.join ⟨"cup", none⟩, [.step ⟨⟨"stir", []⟩, none⟩], some (.join ⟨"pot", none⟩)⟩,
    ⟨.group ⟨[⟨"tea", none⟩], none⟩, [.step ⟨⟨"steep", []⟩, none⟩], some (.join ⟨"cup", none⟩)⟩,
    ⟨.join ⟨"spoon", none⟩, [.step ⟨⟨"wave", []⟩, none⟩], some (.join ⟨"spoon", none⟩)⟩]

/-- The roundabout has two loops, and the one that the tea comes to is cut
open at the cup. -/
theorem analyze_tells_loops_roundabout :
    ∃ a, (stitch roundabout).1.analyze (stitch roundabout).2 = .ok a
      ∧ a.diagnostics.filter Diagnostic.isCycle
        = [.cycle (some "cup") [some "cup", some "pot", some "cup"] none,
          .cycle (some "spoon") [some "spoon", some "spoon"] none]
      ∧ ∃ start c start' c', (stitch roundabout).1.Tells start c
          (.cycle (some "cup") [some "cup", some "pot", some "cup"] none)
        ∧ (stitch roundabout).1.Tells start' c'
          (.cycle (some "spoon") [some "spoon", some "spoon"] none)
        ∧ ∀ c'', (stitch roundabout).1.digraph.IsRound c'' ↔ c'' = c ∨ c'' = c' := by
  obtain ⟨⟨a, ha⟩, -, -, -, hall⟩ := analyze_tells_loops roundabout
  have hfound : (fun a : Analysis String => a.diagnostics.filter Diagnostic.isCycle)
      <$> (stitch roundabout).1.analyze (stitch roundabout).2
        = .ok [.cycle (some "cup") [some "cup", some "pot", some "cup"] none,
          .cycle (some "spoon") [some "spoon", some "spoon"] none] := by
    decide +kernel
  obtain ⟨a', ha', hfound⟩ := map_eq_ok_iff.1 hfound
  cases ha.symm.trans ha'
  refine ⟨a, ha, hfound, ?_⟩
  obtain ⟨entries, htells, -, hrounds, -⟩ := hall _ a ha
  rw [hfound] at htells
  cases htells with
  | @cons _ entry _ rest hcup hrest =>
      cases hrest with
      | @cons _ entry' _ rest hspoon hrest =>
          cases hrest
          refine ⟨entry.1, entry.2, entry'.1, entry'.2, hcup, hspoon, fun c => ?_⟩
          rw [← hrounds c]
          simp

end RecipeChart
