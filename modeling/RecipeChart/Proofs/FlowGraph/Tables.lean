/-
The tables of a graph, read row by row. Here it is said of each table what
a reader of it relies on: which numbers its rows bear, which joins are
listed, which edge a vertex records as leaving it, and how the edges that
enter are shared out among the vertices. Graphs of which all this holds are
the well-formed ones in which every root has its edge, so the analysis
never finds their tables in disagreement; and the graph of any fragments is
one of them.
-/
import Mathlib.Data.List.Sort
import RecipeChart.Proofs.FlowGraph.Soundness

namespace RecipeChart

variable {α : Type}

namespace FlowGraph

variable {g : FlowGraph α}

-- ============================================================== tables

/-- The tables agree, row by row. -/
structure Consistent (g : FlowGraph α) : Prop where
  /-- Vertices and edges bear the numbers of their rows. -/
  vertexIds : g.vertices.map (·.id) = numbers g.vertices.length
  edgeIds : g.edges.map (·.id) = numbers g.edges.length
  /-- Edges lead between vertices of the table. -/
  ends : ∀ e ∈ g.edges, e.source ∈ g.vertices.map (·.id) ∧ e.target ∈ g.vertices.map (·.id)
  /-- Vertex 0 is the only terminal, and nothing leaves it. -/
  terminal : ∀ i, g.Has i .terminal ↔ i = terminalId
  last : ∀ e ∈ g.edges, e.source ≠ terminalId
  /-- Each join vertex is listed under its name, in the order of the
  vertices, and no name is listed twice. -/
  joins : g.joins = g.vertices.filterMap fun v => v.kind.name?.map fun name => (name, v.id)
  names : (g.joins.map Prod.fst).Nodup
  /-- The edges that leave a vertex are the one that it records, or none. -/
  outgoing : ∀ v ∈ g.vertices, (g.edges.filter (·.source = v.id)).map (·.id) = v.outgoing.toList
  /-- One edge leaves a root, and none enters it. -/
  roots : ∀ v ∈ g.roots, (g.edges.filter (·.source = v.id)).length = 1
    ∧ ∀ e ∈ g.edges, e.target ≠ v.id
  /-- Every edge is recorded once, by the vertex that it enters. -/
  partition : (g.vertices.flatMap (·.incoming)).Perm (g.edges.map (·.id))
  incoming : ∀ v ∈ g.vertices, ∀ e ∈ g.edges, e.id ∈ v.incoming ↔ e.target = v.id
  rising : ∀ v ∈ g.vertices, v.incoming.Pairwise (· < ·)

-- ======================================================= from agreement

/-- The edges that enter are shared out among the vertices. -/
theorem WellFormed.incoming_perm (h : g.WellFormed) :
    (g.vertices.flatMap (·.incoming)).Perm (g.edges.map (·.id)) := by
  have hshared : g.vertices.flatMap (·.incoming)
      = ((g.vertices.map (·.id)).flatMap fun i => g.edges.filter (·.target = i)).map (·.id) := by
    rw [List.flatMap_map, List.map_flatMap]
    exact List.flatMap_congr h.incoming
  have htargets : g.edges.filter (·.target ∈ g.vertices.map (·.id)) = g.edges := by
    rw [List.filter_eq_self]
    exact fun e he => decide_eq_true (h.ends he).2
  have hperm := flatMap_filter_perm (·.target) h.labelled.nodup_ids g.edges
  rw [htargets] at hperm
  rw [hshared]
  exact hperm.map _

/-- In a graph whose tables agree they do so row by row, if every root has
its edge. -/
theorem WellFormed.consistent (h : g.WellFormed)
    (hroots : ∀ i group, g.Has i (.root group) → i ∈ g.edges.map (·.source)) :
    g.Consistent where
  vertexIds := by
    rw [← map_fst_labels, h.labelled.numbered, length_labels]
  edgeIds := h.numbered
  ends := fun _ he => h.ends he
  terminal := fun _ => h.labelled.has_terminal_iff
  last := by
    intro e he heq
    obtain ⟨kind, hkind, hne⟩ := h.sources e he
    rw [heq] at hkind
    exact hne (h.labelled.unique hkind h.labelled.has_terminal)
  joins := by
    rw [h.labelled.joins, filterMap_joinLabel]
  names := h.labelled.names
  outgoing := by
    intro v hv
    rcases h.outgoing_cases hv with ⟨hout, hempty⟩ | ⟨e, he, hsource, hout, hcount⟩
    · rw [hempty, hout]
      rfl
    -- One edge leaves the vertex, so the one that is recorded is the one that is counted.
    · obtain ⟨e', hone⟩ := List.length_eq_one_iff.1 hcount
      have hmem : e ∈ g.edges.filter (·.source = v.id) :=
        List.mem_filter.2 ⟨he, decide_eq_true hsource⟩
      rw [hone, List.mem_singleton] at hmem
      rw [hone, hout, hmem]
      rfl
  roots := by
    intro v hv
    obtain ⟨hv, group, hkind⟩ := mem_roots_iff.1 hv
    have hi := has_of_mem hv
    rw [hkind] at hi
    constructor
    · rcases h.outgoing_cases hv with ⟨-, hempty⟩ | ⟨-, -, -, -, hcount⟩
      · obtain ⟨e, he, hsource⟩ := List.mem_map.1 (hroots _ group hi)
        exact absurd (decide_eq_true hsource) (List.filter_eq_nil_iff.1 hempty e he)
      · exact hcount
    · intro e he htarget
      obtain ⟨kind, hkind', hnone⟩ := h.targets e he
      rw [htarget] at hkind'
      rw [h.labelled.unique hkind' hi] at hnone
      cases hnone
  partition := h.incoming_perm
  incoming := by
    intro v hv e he
    -- Edges have different numbers, so a number on record is that of an edge that enters.
    have hids : (g.edges.map (·.id)).Nodup := h.numbered ▸ nodup_numbers _
    rw [h.incoming v hv, List.mem_map]
    constructor
    · intro ⟨e', he', hid⟩
      obtain ⟨he', htarget⟩ := List.mem_filter.1 he'
      rw [← List.inj_on_of_nodup_map hids he' he hid]
      exact of_decide_eq_true htarget
    · intro htarget
      exact ⟨e, List.mem_filter.2 ⟨he, decide_eq_true htarget⟩, rfl⟩
  rising := by
    intro v hv
    have hnumbers := pairwise_numbers g.edges.length
    rw [← h.numbered] at hnumbers
    rw [h.incoming v hv]
    exact hnumbers.sublist (List.filter_sublist.map _)

-- ========================================================= to agreement

namespace Consistent

theorem numbered (h : g.Consistent) : g.labels.map Prod.fst = numbers g.labels.length := by
  rw [map_fst_labels, h.vertexIds, length_labels]

theorem labelled (h : g.Consistent) : g.Labelled where
  numbered := h.numbered
  terminal := by
    have hterminal : (terminalId, .terminal) ∈ g.labels := (h.terminal terminalId).2 rfl
    have hnodup : (g.labels.map Prod.fst).Nodup := h.numbered ▸ nodup_numbers _
    have hfirst := congrArg List.head? h.numbered
    cases hlabels : g.labels with
    | nil =>
        rw [hlabels] at hterminal
        cases hterminal
    | cons l labels =>
        -- the first row bears the number of the terminal
        rw [hlabels, List.length_cons, numbers, List.range_succ_eq_map] at hfirst
        have hid : l.1 = terminalId := Option.some.inj hfirst
        have hmem : l ∈ g.labels := hlabels ▸ List.mem_cons_self
        rw [List.inj_on_of_nodup_map hnodup hmem hterminal hid]
        rfl
  single := fun l hl hkind => (h.terminal l.1).1 (hkind ▸ hl)
  joins := by
    rw [filterMap_joinLabel, h.joins]
  names := h.names

/-- The edge that a vertex records is the first one that leaves it. -/
theorem outgoing_eq (h : g.Consistent) {v : Vertex α} (hv : v ∈ g.vertices) :
    v.outgoing = (g.edges.find? (·.source = v.id)).map (·.id) := by
  have hout := congrArg List.head? (h.outgoing v hv)
  rw [List.head?_map, List.head?_filter] at hout
  rw [hout]
  cases v.outgoing <;> rfl

/-- The edges that a vertex records are all that enter it, in their
order. -/
theorem incoming_eq (h : g.Consistent) {v : Vertex α} (hv : v ∈ g.vertices) :
    v.incoming = (g.edges.filter (·.target = v.id)).map (·.id) := by
  have hnumbers := pairwise_numbers g.edges.length
  rw [← h.edgeIds] at hnumbers
  apply (h.rising v hv).eq_of_mem_iff (hnumbers.sublist (List.filter_sublist.map _))
  intro i
  rw [List.mem_map]
  constructor
  · intro hi
    have hedge := h.partition.subset (List.mem_flatMap.2 ⟨v, hv, hi⟩)
    obtain ⟨e, he, rfl⟩ := List.mem_map.1 hedge
    exact ⟨e, List.mem_filter.2 ⟨he, decide_eq_true ((h.incoming v hv e he).1 hi)⟩, rfl⟩
  · intro ⟨e, he, hid⟩
    obtain ⟨he, htarget⟩ := List.mem_filter.1 he
    rw [← hid]
    exact (h.incoming v hv e he).2 (of_decide_eq_true htarget)

/-- Each vertex is left by one edge at most. -/
theorem length_le (h : g.Consistent) {v : Vertex α} (hv : v ∈ g.vertices) :
    (g.edges.filter (·.source = v.id)).length ≤ 1 := by
  have hout := congrArg List.length (h.outgoing v hv)
  rw [List.length_map] at hout
  rw [hout]
  exact Option.length_toList_le

theorem wellFormed (h : g.Consistent) : g.WellFormed where
  labelled := h.labelled
  numbered := h.edgeIds
  sources := by
    intro e he
    obtain ⟨kind, hkind⟩ := mem_ids_iff.1 (h.ends e he).1
    refine ⟨kind, hkind, fun heq => h.last e he ?_⟩
    rw [heq] at hkind
    exact (h.terminal _).1 hkind
  targets := by
    intro e he
    obtain ⟨v, hv, hid⟩ := List.mem_map.1 (h.ends e he).2
    refine ⟨v.kind, hid ▸ has_of_mem hv, ?_⟩
    cases hkind : v.kind with
    | terminal => rfl
    | join name => rfl
    | root group =>
        have hentered := (h.roots v (mem_roots_iff.2 ⟨hv, group, hkind⟩)).2 e he
        exact absurd hid.symm hentered
  single := nodup_sources (fun e he => (h.ends e he).1) fun _ hv => h.length_le hv
  outgoing := fun _ hv => h.outgoing_eq hv
  incoming := fun _ hv => h.incoming_eq hv

theorem mem_sources_of_root (h : g.Consistent) {i : Int} {group : Group α}
    (hi : g.Has i (.root group)) : i ∈ g.edges.map (·.source) := by
  obtain ⟨v, hv, rfl, hkind⟩ := exists_vertex hi
  obtain ⟨e, hone⟩ := List.length_eq_one_iff.1 (h.roots v (mem_roots_iff.2 ⟨hv, group, hkind⟩)).1
  have he : e ∈ g.edges.filter (·.source = v.id) := hone ▸ List.mem_singleton_self e
  obtain ⟨he, hsource⟩ := List.mem_filter.1 he
  exact List.mem_map.2 ⟨e, he, of_decide_eq_true hsource⟩

end Consistent

/-- To agree row by row is to be well-formed and to have an edge from every
root. -/
theorem consistent_iff :
    g.Consistent ↔ g.WellFormed
      ∧ ∀ i group, g.Has i (.root group) → i ∈ g.edges.map (·.source) := by
  constructor
  · intro h
    exact ⟨h.wellFormed, fun _ _ hi => h.mem_sources_of_root hi⟩
  · intro ⟨h, hroots⟩
    exact h.consistent hroots

/-- Where the tables agree row by row, the analysis does not find them in
disagreement. -/
theorem Consistent.checkOutgoing_eq_ok (h : g.Consistent) : g.checkOutgoing = .ok () :=
  h.wellFormed.checkOutgoing_eq_ok fun _ _ hi => h.mem_sources_of_root hi

end FlowGraph

-- =========================================================== fragments

open FlowGraph

variable [DecidableEq α]

/-- The tables that any fragments leave behind agree row by row, the joins
are found under their names and no others are, and the analysis does not
find the tables in disagreement. -/
theorem stitch_consistent (fs : List (Fragment α)) :
    (stitch fs).1.Consistent
      ∧ (∀ name i, (stitch fs).1.join? name = some i ↔ (stitch fs).1.Has i (.join name))
      ∧ (stitch fs).1.checkOutgoing = .ok () := by
  have hstitched := stitched_draftOf fs
  have hconsistent : (stitch fs).1.Consistent :=
    consistent_iff.2 ⟨hstitched.wellFormed, hstitched.roots⟩
  exact ⟨hconsistent, fun name i => hconsistent.labelled.join?_eq_some_iff,
    hconsistent.checkOutgoing_eq_ok⟩

end RecipeChart
