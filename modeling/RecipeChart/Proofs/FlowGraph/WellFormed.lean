/-
Graphs whose tables agree. Vertices and edges bear the numbers of their
places. Vertex 0 is the only terminal, and the table of joins lists the
join vertices. Every edge leads between vertices of the table, none leaves
the terminal, none enters a root and no two leave the same vertex; and
every vertex records the edges that enter it, in their order, and the one
that leaves it.

What a vertex is, its number and its kind, is never changed once it
stands in the table. So everything that is said of numbers and kinds alone
is said of the labels of a graph, which a new edge leaves as they are.
-/
import RecipeChart.FlowGraph
import RecipeChart.Proofs.Repeats

namespace RecipeChart

variable {α : Type}

theorem VertexKind.join_ne_terminal {name : α} : VertexKind.join name ≠ .terminal := by
  intro heq
  cases heq

theorem VertexKind.root_ne_terminal {group : Group α} : VertexKind.root group ≠ .terminal := by
  intro heq
  cases heq

namespace FlowGraph

-- ============================================================== labels

/-- The numbers and kinds of the vertices. -/
def labels (g : FlowGraph α) : List (Int × VertexKind α) := g.vertices.map fun v => (v.id, v.kind)

/-- The join that a label is of, if it is of one. -/
def joinLabel (l : Int × VertexKind α) : Option (α × Int) := l.2.name?.map fun name => (name, l.1)

/-- Does a vertex of this number and this kind stand in the table? -/
def Has (g : FlowGraph α) (i : Int) (kind : VertexKind α) : Prop := (i, kind) ∈ g.labels

/-- The numbers of so many rows. -/
def numbers (n : Nat) : List Int := (List.range n).map Int.ofNat

/-- One row more has one number more, behind the others. -/
theorem numbers_succ (n : Nat) : numbers (n + 1) = numbers n ++ [(n : Int)] := by
  rw [numbers, List.range_succ, List.map_append]
  rfl

/-- The numbers of so many rows are those below their count. -/
theorem mem_numbers {n : Nat} {i : Int} : i ∈ numbers n ↔ ∃ k < n, (k : Int) = i := by
  simp [numbers]

theorem nodup_numbers (n : Nat) : (numbers n).Nodup :=
  List.nodup_range.map fun _ _ h => Int.ofNat.inj h

/-- The numbers of rows ascend. -/
theorem pairwise_numbers (n : Nat) : (numbers n).Pairwise (· < ·) :=
  List.pairwise_lt_range.map _ fun _ _ h => Int.ofNat_lt.2 h

/-- Numbers and kinds are as they should be, and the joins are listed. -/
structure Labelled (g : FlowGraph α) : Prop where
  numbered : g.labels.map Prod.fst = numbers g.labels.length
  terminal : g.labels.head? = some (terminalId, .terminal)
  single : ∀ l ∈ g.labels, l.2 = .terminal → l.1 = terminalId
  joins : g.joins = g.labels.filterMap joinLabel
  names : (g.joins.map Prod.fst).Nodup

/-- Edges lead between vertices of the table, and the vertices record them:
all that enter a vertex, in their order, and the last that leaves it. -/
structure Recorded (g : FlowGraph α) : Prop where
  labelled : g.Labelled
  numbered : g.edges.map (·.id) = numbers g.edges.length
  ends : ∀ e ∈ g.edges, (∃ kind, g.Has e.source kind) ∧ ∃ kind, g.Has e.target kind
  outgoing : ∀ v ∈ g.vertices,
    v.outgoing = (g.edges.filter (·.source = v.id)).getLast?.map (·.id)
  incoming : ∀ v ∈ g.vertices, v.incoming = (g.edges.filter (·.target = v.id)).map (·.id)

/-- The tables agree. -/
structure WellFormed (g : FlowGraph α) : Prop where
  labelled : g.Labelled
  numbered : g.edges.map (·.id) = numbers g.edges.length
  sources : ∀ e ∈ g.edges, ∃ kind, g.Has e.source kind ∧ kind ≠ .terminal
  targets : ∀ e ∈ g.edges, ∃ kind, g.Has e.target kind ∧ kind.group? = none
  single : (g.edges.map (·.source)).Nodup
  outgoing : ∀ v ∈ g.vertices, v.outgoing = (g.edges.find? (·.source = v.id)).map (·.id)
  incoming : ∀ v ∈ g.vertices, v.incoming = (g.edges.filter (·.target = v.id)).map (·.id)

variable {g : FlowGraph α} {i j : Int} {kind kind' : VertexKind α}

/-- A vertex of the table stands there under its own number and kind. -/
theorem has_of_mem {v : Vertex α} (h : v ∈ g.vertices) : g.Has v.id v.kind :=
  List.mem_map.2 ⟨v, h, rfl⟩

/-- What stands in the table under a number and a kind is a vertex. -/
theorem exists_vertex (h : g.Has i kind) : ∃ v ∈ g.vertices, v.id = i ∧ v.kind = kind := by
  obtain ⟨v, hv, heq⟩ := List.mem_map.1 h
  injection heq with hid hkind
  exact ⟨v, hv, hid, hkind⟩

theorem length_labels (g : FlowGraph α) : g.labels.length = g.vertices.length := List.length_map _

theorem map_fst_labels (g : FlowGraph α) : g.labels.map Prod.fst = g.vertices.map (·.id) := by
  rw [labels, List.map_map]
  rfl

/-- The numbers of the vertices are those that stand in the table under some
kind. -/
theorem mem_ids_iff {i : Int} : i ∈ g.vertices.map (·.id) ↔ ∃ kind, g.Has i kind := by
  rw [← map_fst_labels, List.mem_map]
  constructor
  · intro ⟨l, hl, hi⟩
    exact ⟨l.2, hi ▸ hl⟩
  · intro ⟨kind, hi⟩
    exact ⟨_, hi, rfl⟩

/-- What the labels list of joins is what the vertices do. -/
theorem filterMap_joinLabel (g : FlowGraph α) :
    g.labels.filterMap joinLabel
      = g.vertices.filterMap fun v => v.kind.name?.map fun name => (name, v.id) := by
  rw [labels, List.filterMap_map]
  rfl

/-- Where no vertex of the table is left by two edges and edges leave
vertices of the table only, no two edges leave the same one. -/
theorem nodup_sources (hends : ∀ e ∈ g.edges, e.source ∈ g.vertices.map (·.id))
    (hle : ∀ v ∈ g.vertices, (g.edges.filter (·.source = v.id)).length ≤ 1) :
    (g.edges.map (·.source)).Nodup := by
  refine nodup_map_iff.2 fun i => ?_
  by_cases hi : i ∈ g.vertices.map (·.id)
  · obtain ⟨v, hv, rfl⟩ := List.mem_map.1 hi
    exact hle v hv
  · have hnone : g.edges.filter (·.source = i) = [] := by
      rw [List.filter_eq_nil_iff]
      intro e he hsource
      apply hi
      rw [← of_decide_eq_true hsource]
      exact hends e he
    rw [hnone]
    exact Nat.zero_le 1

/-- Edges lead between vertices of the table. -/
theorem WellFormed.ends (h : g.WellFormed) {e : Edge α} (he : e ∈ g.edges) :
    e.source ∈ g.vertices.map (·.id) ∧ e.target ∈ g.vertices.map (·.id) := by
  obtain ⟨kind, hsource, -⟩ := h.sources e he
  obtain ⟨kind', htarget, -⟩ := h.targets e he
  exact ⟨mem_ids_iff.2 ⟨kind, hsource⟩, mem_ids_iff.2 ⟨kind', htarget⟩⟩

namespace Labelled

/-- No number is given twice. -/
theorem nodup (h : g.Labelled) : (g.labels.map Prod.fst).Nodup := by
  rw [h.numbered]
  exact nodup_numbers _

/-- A number has one kind. -/
theorem unique (h : g.Labelled) (hi : g.Has i kind) (hi' : g.Has i kind') : kind = kind' :=
  congrArg Prod.snd (List.inj_on_of_nodup_map h.nodup hi hi' rfl)

/-- No two vertices have one number. -/
theorem nodup_ids (h : g.Labelled) : (g.vertices.map (·.id)).Nodup := by
  have hlabels := h.nodup
  rwa [labels, List.map_map] at hlabels

/-- The numbers in use are those of the places. -/
theorem exists_nat (h : g.Labelled) (hi : g.Has i kind) :
    ∃ n < g.vertices.length, (n : Int) = i := by
  have hmem : i ∈ g.labels.map Prod.fst := List.mem_map.2 ⟨_, hi, rfl⟩
  rw [h.numbered, mem_numbers, length_labels] at hmem
  exact hmem

/-- The next number is not in use. -/
theorem fresh (h : g.Labelled) : ¬ g.Has g.vertices.length kind := by
  intro hi
  obtain ⟨n, hn, heq⟩ := h.exists_nat hi
  omega

/-- The terminal stands in the first place of the table. -/
theorem has_terminal (h : g.Labelled) : g.Has terminalId .terminal :=
  List.mem_of_head? h.terminal

/-- The terminal stands first. -/
theorem exists_top (h : g.Labelled) :
    ∃ top rest, g.vertices = top :: rest ∧ top.id = terminalId ∧ top.kind = .terminal := by
  have hfirst := h.terminal
  rw [labels, List.head?_map, Option.map_eq_some_iff] at hfirst
  obtain ⟨top, htop, hlabel⟩ := hfirst
  obtain ⟨rest, hvertices⟩ := List.head?_eq_some_iff.1 htop
  injection hlabel with hid hkind
  exact ⟨top, rest, hvertices, hid, hkind⟩

/-- Nothing else is a terminal. -/
theorem has_terminal_iff (h : g.Labelled) : g.Has i .terminal ↔ i = terminalId := by
  constructor
  · intro hi
    exact h.single _ hi rfl
  · intro hi
    rw [hi]
    exact h.has_terminal

/-- A vertex bears the number of its place. -/
theorem id_getElem (h : g.Labelled) {n : Nat} (hn : n < g.vertices.length) :
    g.vertices[n].id = n := by
  have hnumber := congrArg (·[n]?) h.numbered
  simp only [labels, numbers, List.map_map, List.length_map, List.getElem?_map,
    List.getElem?_eq_getElem hn, List.getElem?_range hn, Option.map_some] at hnumber
  exact Option.some.inj hnumber

/-- The vertex of the table is what its number leads to. -/
theorem vertex_eq (h : g.Labelled) {v : Vertex α} (hv : v ∈ g.vertices) :
    g.vertex v.id = .ok v := by
  obtain ⟨n, hn, rfl⟩ := List.mem_iff_getElem.1 hv
  rw [vertex, h.id_getElem hn, Rows.row?_natCast, List.getElem?_eq_getElem hn]

/-- A number of the table is one that the graph holds. -/
theorem holds_eq_true (h : g.Labelled) (hi : g.Has i kind) : g.holds i = true := by
  obtain ⟨n, hn, rfl⟩ := h.exists_nat hi
  rw [holds, Rows.place?_natCast, if_pos hn]
  rfl

/-- To change the vertex of a number is to change the one that bears it. -/
theorem modify_eq_map (h : g.Labelled) (hi : g.Has i kind) (f : Vertex α → Vertex α) :
    (g.modify i f).vertices = g.vertices.map fun v => if v.id = i then f v else v := by
  obtain ⟨n, hn, rfl⟩ := h.exists_nat hi
  refine List.ext_getElem? fun m => ?_
  rw [modify, Rows.modify_natCast, List.getElem?_modify, List.getElem?_map]
  by_cases hm : m < g.vertices.length
  · rw [List.getElem?_eq_getElem hm]
    have hid := h.id_getElem hm
    by_cases hnm : n = m
    · subst hnm
      simp [hid]
    · have hne : ¬ (m : Int) = n := by omega
      simp [hid, hnm, hne]
  · rw [List.getElem?_eq_none (Nat.le_of_not_lt hm)]
    simp

/-- The table of joins lists the join vertices. -/
theorem mem_joins_iff (h : g.Labelled) {name : α} :
    (name, i) ∈ g.joins ↔ g.Has i (.join name) := by
  rw [h.joins, List.mem_filterMap]
  constructor
  · intro ⟨⟨k, kind⟩, hl, heq⟩
    cases kind <;> cases heq
    exact hl
  · intro hi
    exact ⟨_, hi, rfl⟩

/-- The table of joins finds the join vertices. -/
theorem join?_eq_some_iff [DecidableEq α] (h : g.Labelled) {name : α} :
    g.join? name = some i ↔ g.Has i (.join name) := by
  rw [join?, lookup_iff_mem h.names, h.mem_joins_iff]

/-- A name has one vertex. -/
theorem unique_join [DecidableEq α] (h : g.Labelled) {name : α} (hi : g.Has i (.join name))
    (hj : g.Has j (.join name)) : i = j :=
  Option.some.inj ((h.join?_eq_some_iff.2 hi).symm.trans (h.join?_eq_some_iff.2 hj))

/-- A vertex that is no root has its kind to itself. -/
theorem unique_id [DecidableEq α] (h : g.Labelled) {kind : VertexKind α}
    (hkind : kind.group? = none) (hi : g.Has i kind) (hj : g.Has j kind) : i = j := by
  cases kind with
  | terminal => exact (h.has_terminal_iff.1 hi).trans (h.has_terminal_iff.1 hj).symm
  | join name => exact h.unique_join hi hj
  | root group => cases hkind

end Labelled

-- ============================================================= records

/-- In tables that agree the vertices record the edges. -/
theorem WellFormed.recorded (h : g.WellFormed) : g.Recorded where
  labelled := h.labelled
  numbered := h.numbered
  ends := by
    intro e he
    obtain ⟨kind, hsource, -⟩ := h.sources e he
    obtain ⟨kind', htarget, -⟩ := h.targets e he
    exact ⟨⟨kind, hsource⟩, ⟨kind', htarget⟩⟩
  outgoing := by
    intro v hv
    have hcount : (g.edges.filter (·.source = v.id)).length ≤ 1 := nodup_map_iff.1 h.single v.id
    rw [h.outgoing v hv, ← List.head?_filter, head?_eq_getLast? hcount]
  incoming := h.incoming

/-- Where vertices record the edges and each edge is one of its kind, the
tables agree. -/
theorem Recorded.wellFormed (h : g.Recorded)
    (hsources : ∀ e ∈ g.edges, ∃ kind, g.Has e.source kind ∧ kind ≠ .terminal)
    (htargets : ∀ e ∈ g.edges, ∃ kind, g.Has e.target kind ∧ kind.group? = none)
    (hsingle : (g.edges.map (·.source)).Nodup) : g.WellFormed where
  labelled := h.labelled
  numbered := h.numbered
  sources := hsources
  targets := htargets
  single := hsingle
  outgoing := by
    intro v hv
    have hcount : (g.edges.filter (·.source = v.id)).length ≤ 1 := nodup_map_iff.1 hsingle v.id
    rw [h.outgoing v hv, ← head?_eq_getLast? hcount, List.head?_filter]
  incoming := h.incoming

/-- The graph that is begun with, a terminal and nothing else, is well
formed. -/
theorem WellFormed.empty : (FlowGraph.empty : FlowGraph α).WellFormed where
  labelled := by
    refine ⟨rfl, rfl, fun l hl _ => ?_, rfl, List.nodup_nil⟩
    rw [List.mem_singleton.1 hl]
  numbered := rfl
  sources := fun e he => absurd he List.not_mem_nil
  targets := fun e he => absurd he List.not_mem_nil
  single := List.nodup_nil
  outgoing := fun v hv => by rw [List.mem_singleton.1 hv]; rfl
  incoming := fun v hv => by rw [List.mem_singleton.1 hv]; rfl

-- ======================================================== new vertices

section NewVertex

variable {span : Option Span} {joins : List (α × Int)}

/-- A new vertex adds its label behind the others. -/
theorem labels_addVertex (g : FlowGraph α) (kind : VertexKind α) (span : Option Span) :
    (g.addVertex kind span).labels = g.labels ++ [((g.vertices.length : Int), kind)] := by
  rw [labels, addVertex, List.map_append]
  rfl

/-- Numbers and kinds are as they should be with a vertex more, if it is
no terminal and its name, if it has one, is new and put on the list of
joins. -/
theorem Labelled.addVertex (h : g.Labelled) (hkind : kind ≠ .terminal)
    (hjoins : joins = g.joins ++ (joinLabel (g.vertices.length, kind)).toList)
    (hnew : ∀ name ∈ kind.name?, ∀ i, ¬ g.Has i (.join name)) :
    Labelled { g.addVertex kind span with joins } := by
  have hlabels : labels { g.addVertex kind span with joins }
      = g.labels ++ [((g.vertices.length : Int), kind)] := labels_addVertex g kind span
  constructor
  · rw [hlabels, List.map_append, h.numbered, List.length_append, List.length_singleton,
      numbers_succ, length_labels]
    rfl
  · rw [hlabels, List.head?_append, h.terminal]
    rfl
  · intro l hl hterminal
    rw [hlabels] at hl
    rcases List.mem_append.1 hl with hl | hl
    · exact h.single l hl hterminal
    · rw [List.mem_singleton.1 hl] at hterminal
      exact absurd hterminal hkind
  · rw [hlabels, List.filterMap_append, ← h.joins]
    simp only [hjoins]
    cases kind <;> rfl
  · simp only [hjoins, List.map_append]
    -- The names stay apart: a root has none, and that of a join is new.
    cases kind with
    | terminal => exact absurd rfl hkind
    | root group =>
        rw [show (joinLabel ((g.vertices.length : Int), VertexKind.root group)) = none from rfl]
        simpa using h.names
    | join name =>
        have hout : name ∉ g.joins.map Prod.fst := by
          intro hmem
          obtain ⟨⟨name', i⟩, hl, rfl⟩ := List.mem_map.1 hmem
          rw [h.joins, List.mem_filterMap] at hl
          obtain ⟨⟨k, kind⟩, hl, heq⟩ := hl
          cases kind <;> cases heq
          exact hnew _ rfl _ hl
        rw [show (joinLabel ((g.vertices.length : Int), VertexKind.join name))
          = some (name, (g.vertices.length : Int)) from rfl]
        refine List.nodup_append.2 ⟨h.names, List.nodup_singleton _, ?_⟩
        intro a ha b hb hab
        rw [List.mem_singleton.1 hb] at hab
        rw [hab] at ha
        exact hout ha

/-- A new vertex is the one thing that stands in the table then and did not
before. -/
theorem has_addVertex_iff :
    (g.addVertex kind span).Has i kind'
      ↔ g.Has i kind' ∨ (i = g.vertices.length ∧ kind' = kind) := by
  rw [Has, labels_addVertex, List.mem_append, List.mem_singleton, Prod.mk.injEq]
  rfl

/-- A new vertex, which no edge knows of, records none. -/
theorem Recorded.addVertex (h : g.Recorded) (hkind : kind ≠ .terminal)
    (hjoins : joins = g.joins ++ (joinLabel (g.vertices.length, kind)).toList)
    (hnew : ∀ name ∈ kind.name?, ∀ i, ¬ g.Has i (.join name)) :
    Recorded { g.addVertex kind span with joins } := by
  -- Edges know labelled vertices only, and the new number has had no label.
  have hnone : ∀ (key : Edge α → Int), (∀ e ∈ g.edges, ∃ kind, g.Has (key e) kind) →
      g.edges.filter (key · = (g.vertices.length : Int)) = [] := by
    intro key hkey
    rw [List.filter_eq_nil_iff]
    intro e he heq
    obtain ⟨k, hk⟩ := hkey e he
    rw [of_decide_eq_true heq] at hk
    exact h.labelled.fresh hk
  constructor
  · exact h.labelled.addVertex hkind hjoins hnew
  · exact h.numbered
  · intro e he
    obtain ⟨⟨k, hk⟩, ⟨k', hk'⟩⟩ := h.ends e he
    exact ⟨⟨k, has_addVertex_iff.2 (.inl hk)⟩, ⟨k', has_addVertex_iff.2 (.inl hk')⟩⟩
  · intro v hv
    rcases List.mem_append.1 hv with hv | hv
    · exact h.outgoing v hv
    · rw [List.mem_singleton.1 hv]
      show none = Option.map _ (g.edges.filter (·.source = (g.vertices.length : Int))).getLast?
      rw [hnone (·.source) fun e he => (h.ends e he).1]
      rfl
  · intro v hv
    rcases List.mem_append.1 hv with hv | hv
    · exact h.incoming v hv
    · rw [List.mem_singleton.1 hv]
      show [] = (g.edges.filter (·.target = (g.vertices.length : Int))).map _
      rw [hnone (·.target) fun e he => (h.ends e he).2]
      rfl

/-- A new vertex keeps the tables in agreement. -/
theorem WellFormed.addVertex (h : g.WellFormed) (hkind : kind ≠ .terminal)
    (hjoins : joins = g.joins ++ (joinLabel (g.vertices.length, kind)).toList)
    (hnew : ∀ name ∈ kind.name?, ∀ i, ¬ g.Has i (.join name)) :
    WellFormed { g.addVertex kind span with joins } := by
  refine (h.recorded.addVertex hkind hjoins hnew).wellFormed (fun e he => ?_) (fun e he => ?_)
    h.single
  · obtain ⟨k, hk, hne⟩ := h.sources e he
    exact ⟨k, has_addVertex_iff.2 (.inl hk), hne⟩
  · obtain ⟨k, hk, hnone⟩ := h.targets e he
    exact ⟨k, has_addVertex_iff.2 (.inl hk), hnone⟩

end NewVertex

/-- A graph with a vertex of this number and kind, old or new, and with
nothing else that is new. -/
structure Gains (g : FlowGraph α) (i : Int) (kind : VertexKind α) (g' : FlowGraph α) : Prop where
  wellFormed : g'.WellFormed
  edges : g'.edges = g.edges
  has : ∀ {j k}, g'.Has j k ↔ g.Has j k ∨ (j = i ∧ k = kind)

/-- A new root is all that is gained. -/
theorem WellFormed.gains_addRoot (h : g.WellFormed) (group : Group α) :
    g.Gains (g.addRoot group).1 (.root group) (g.addRoot group).2 := by
  have hnew : ∀ name ∈ (VertexKind.root group).name?, ∀ i, ¬ g.Has i (.join name) :=
    fun name hname => nomatch hname
  have hjoins : g.joins
      = g.joins ++ (joinLabel ((g.vertices.length : Int), VertexKind.root group)).toList :=
    (List.append_nil g.joins).symm
  exact ⟨h.addVertex VertexKind.root_ne_terminal hjoins hnew, rfl, has_addVertex_iff⟩

/-- The vertex of a join, found or made, is all that is gained. -/
theorem WellFormed.gains_joinVertex [DecidableEq α] (h : g.WellFormed) (ref : JoinRef α) :
    g.Gains (g.joinVertex ref).1 (.join ref.name) (g.joinVertex ref).2 := by
  rw [joinVertex]
  cases hjoin : g.join? ref.name with
  | some i =>
      have hi : g.Has i (.join ref.name) := h.labelled.join?_eq_some_iff.1 hjoin
      refine ⟨h, rfl, fun {j k} => ⟨.inl, fun hj => ?_⟩⟩
      rcases hj with hj | ⟨rfl, rfl⟩
      · exact hj
      · exact hi
  | none =>
      have hnew : ∀ name ∈ (VertexKind.join ref.name).name?, ∀ i, ¬ g.Has i (.join name) := by
        intro name hname i hi
        cases hname
        rw [← h.labelled.join?_eq_some_iff, hjoin] at hi
        cases hi
      exact ⟨h.addVertex VertexKind.join_ne_terminal rfl hnew, rfl, has_addVertex_iff⟩

-- =========================================================== new edges

section NewEdge

variable {source target : Int} {actions : List (Action α)} {span : Option Span}

/-- What changes neither numbers nor kinds leaves the labels. -/
theorem labels_of_map {g' : FlowGraph α} {f : Vertex α → Vertex α}
    (hvertices : g'.vertices = g.vertices.map f)
    (hf : ∀ v, (f v).id = v.id ∧ (f v).kind = v.kind) : g'.labels = g.labels := by
  rw [labels, hvertices, List.map_map]
  refine List.map_congr_left fun v _ => ?_
  exact Prod.ext (hf v).1 (hf v).2

/-- Labels and joins are all that matters. -/
theorem Labelled.of_labels {g' : FlowGraph α} (h : g.Labelled) (hlabels : g'.labels = g.labels)
    (hjoins : g'.joins = g.joins) : g'.Labelled := by
  obtain ⟨hnumbered, hterminal, hsingle, hlist, hnames⟩ := h
  rw [← hlabels] at hnumbered hterminal hsingle hlist
  rw [← hjoins] at hlist hnames
  exact ⟨hnumbered, hterminal, hsingle, hlist, hnames⟩

/-- The vertex, once it knows of the new edge. -/
def touch (source target e : Int) (v : Vertex α) : Vertex α :=
  { v with
    outgoing := if v.id = source then some e else v.outgoing
    incoming := if v.id = target then v.incoming ++ [e] else v.incoming }

/-- A new edge is recorded at its two ends, and no other vertex is
touched. -/
theorem Labelled.vertices_addEdge (h : g.Labelled) (hsource : g.Has source kind)
    (htarget : g.Has target kind') :
    (g.addEdge source target actions span).vertices
      = g.vertices.map (touch source target g.edges.length) := by
  have hbare : (g.addBareEdge source target actions span).Labelled := h.of_labels rfl rfl
  have hholds : (g.addBareEdge source target actions span).holds source = true :=
    hbare.holds_eq_true hsource
  have hout := hbare.modify_eq_map hsource fun v => { v with outgoing := some g.edges.length }
  have hlabels := labels_of_map hout fun v => by split <;> exact ⟨rfl, rfl⟩
  have hlabelled := hbare.of_labels hlabels rfl
  have htarget' : Has ((g.addBareEdge source target actions span).modify source
      fun v => { v with outgoing := some (g.edges.length : Int) }) target kind' := by
    rw [Has, hlabels]
    exact htarget
  rw [addEdge, if_pos hholds, hlabelled.modify_eq_map htarget', hout, List.map_map]
  refine List.map_congr_left fun v _ => ?_
  rw [Function.comp_apply, touch]
  by_cases hs : v.id = source
  · by_cases ht : v.id = target
    · simp only [if_pos hs, if_pos ht]
    · simp only [if_pos hs, if_neg ht]
  · by_cases ht : v.id = target
    · simp only [if_neg hs, if_pos ht]
    · simp only [if_neg hs, if_neg ht]

/-- A new edge stands behind the others, under the number of its place. -/
theorem edges_addEdge :
    (g.addEdge source target actions span).edges
      = g.edges ++ [⟨g.edges.length, source, target, actions, span⟩] := by
  simp only [addEdge]
  split <;> rfl

/-- A new edge makes no join. -/
theorem joins_addEdge : (g.addEdge source target actions span).joins = g.joins := by
  simp only [addEdge]
  split <;> rfl

/-- A new edge leaves the labels. -/
theorem Labelled.labels_addEdge (h : g.Labelled) (hsource : g.Has source kind)
    (htarget : g.Has target kind') :
    (g.addEdge source target actions span).labels = g.labels :=
  labels_of_map (h.vertices_addEdge hsource htarget) fun _ => ⟨rfl, rfl⟩

/-- Both vertices record a new edge. -/
theorem Recorded.addEdge (h : g.Recorded) (hsource : g.Has source kind)
    (htarget : g.Has target kind') : (g.addEdge source target actions span).Recorded := by
  have hvertices : (g.addEdge source target actions span).vertices
      = g.vertices.map (touch source target g.edges.length) :=
    h.labelled.vertices_addEdge hsource htarget
  have hlabels : (g.addEdge source target actions span).labels = g.labels :=
    h.labelled.labels_addEdge hsource htarget
  constructor
  · exact h.labelled.of_labels hlabels joins_addEdge
  · rw [edges_addEdge, List.map_append, h.numbered, List.length_append, List.length_singleton,
      numbers_succ]
    rfl
  · intro e he
    rw [edges_addEdge] at he
    simp only [Has, hlabels]
    rcases List.mem_append.1 he with he | he
    · exact h.ends e he
    · rw [List.mem_singleton.1 he]
      exact ⟨⟨kind, hsource⟩, ⟨kind', htarget⟩⟩
  · intro v hv
    rw [hvertices] at hv
    obtain ⟨w, hw, rfl⟩ := List.mem_map.1 hv
    rw [edges_addEdge, List.filter_append]
    -- The source records the new edge as its last; any other vertex keeps its own.
    by_cases hid : w.id = source
    · simp [touch, hid]
    · have hne : ¬ source = w.id := fun heq => hid heq.symm
      simp [touch, hid, hne, h.outgoing w hw]
  · intro v hv
    rw [hvertices] at hv
    obtain ⟨w, hw, rfl⟩ := List.mem_map.1 hv
    rw [edges_addEdge, List.filter_append, List.map_append]
    by_cases hid : w.id = target
    · simp [touch, hid, h.incoming w hw]
    · have hne : ¬ target = w.id := fun heq => hid heq.symm
      simp [touch, hid, hne, h.incoming w hw]

/-- A new edge from a vertex that none leaves keeps the tables in
agreement. -/
theorem WellFormed.addEdge (h : g.WellFormed) (hsource : g.Has source kind)
    (hkind : kind ≠ .terminal) (hfree : source ∉ g.edges.map (·.source))
    (htarget : g.Has target kind') (hkind' : kind'.group? = none) :
    (g.addEdge source target actions span).WellFormed := by
  have hlabels : (g.addEdge source target actions span).labels = g.labels :=
    h.labelled.labels_addEdge hsource htarget
  refine (h.recorded.addEdge hsource htarget).wellFormed ?_ ?_ ?_
  · rw [edges_addEdge, List.forall_mem_append, List.forall_mem_singleton]
    simp only [Has, hlabels]
    exact ⟨h.sources, kind, hsource, hkind⟩
  · rw [edges_addEdge, List.forall_mem_append, List.forall_mem_singleton]
    simp only [Has, hlabels]
    exact ⟨h.targets, kind', htarget, hkind'⟩
  · rw [edges_addEdge, List.map_append]
    refine List.nodup_append.2 ⟨h.single, List.nodup_singleton _, fun i hi j hj heq => ?_⟩
    rw [heq, List.mem_singleton.1 hj] at hi
    exact hfree hi

end NewEdge

-- ============================================================ terminal

/-- A finish is noted at the terminal, where it was first met. -/
theorem Labelled.vertices_meetTerminal (h : g.Labelled) (span : Option Span) :
    (g.meetTerminal span).vertices = g.vertices.map fun v =>
      if v.id = terminalId then { v with span := v.span.or span } else v :=
  h.modify_eq_map h.has_terminal _

/-- To meet the terminal changes nothing but a span. -/
theorem WellFormed.gains_meetTerminal (h : g.WellFormed) (span : Option Span) :
    g.Gains terminalId .terminal (g.meetTerminal span) := by
  have hvertices := h.labelled.vertices_meetTerminal span
  have hlabels : (g.meetTerminal span).labels = g.labels :=
    labels_of_map hvertices fun v => by split <;> exact ⟨rfl, rfl⟩
  constructor
  · constructor
    · exact h.labelled.of_labels hlabels rfl
    · exact h.numbered
    · unfold Has
      rw [hlabels]
      exact h.sources
    · unfold Has
      rw [hlabels]
      exact h.targets
    · exact h.single
    · intro v hv
      rw [hvertices] at hv
      obtain ⟨w, hw, rfl⟩ := List.mem_map.1 hv
      split <;> exact h.outgoing w hw
    · intro v hv
      rw [hvertices] at hv
      obtain ⟨w, hw, rfl⟩ := List.mem_map.1 hv
      split <;> exact h.incoming w hw
  · rfl
  · intro j k
    unfold Has
    rw [hlabels]
    refine ⟨.inl, fun hj => ?_⟩
    rcases hj with hj | ⟨rfl, rfl⟩
    · exact hj
    · exact h.labelled.has_terminal

end FlowGraph

end RecipeChart
