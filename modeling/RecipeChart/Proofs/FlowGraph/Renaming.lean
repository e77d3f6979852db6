/-
A graph that is renamed. The vertices and edges keep their numbers, what
they record of one another, and the kind of thing that they stand for; only
the texts are others. So the tables of the renamed graph agree like those of
the graph, if the renaming keeps the names of joins apart: that is the one
place where a name is compared to another.
-/
import RecipeChart.FlowGraph.Rename
import RecipeChart.Proofs.FlowGraph.WellFormed
import RecipeChart.Proofs.Traversal

namespace RecipeChart

variable {α β ε : Type} {f : α → Except ε β}

-- ================================================================ parts

/-- The same kind of thing, its texts renamed. -/
inductive VertexKind.Renamed (f : α → Except ε β) : VertexKind α → VertexKind β → Prop where
  | terminal : Renamed f .terminal .terminal
  | join {name : α} {name' : β} (h : f name = .ok name') : Renamed f (.join name) (.join name')
  | root {group : Group α} {group' : Group β} (h : group.traverse f = .ok group') :
      Renamed f (.root group) (.root group')

/-- The vertex in the same place, its texts renamed. -/
structure Vertex.Renamed (f : α → Except ε β) (v : Vertex α) (v' : Vertex β) : Prop where
  id : v'.id = v.id
  kind : v.kind.Renamed f v'.kind
  incoming : v'.incoming = v.incoming
  outgoing : v'.outgoing = v.outgoing

structure Edge.Renamed (f : α → Except ε β) (e : Edge α) (e' : Edge β) : Prop where
  id : e'.id = e.id
  source : e'.source = e.source
  target : e'.target = e.target
  actions : e.actions.mapM (Action.traverse f) = .ok e'.actions

/-- The same entry of the table of joins, its name renamed. -/
def JoinRenamed (f : α → Except ε β) (j : α × Int) (j' : β × Int) : Prop :=
  f j.1 = .ok j'.1 ∧ j'.2 = j.2

/-- A kind that is traversed is renamed. -/
theorem VertexKind.renamed_of_traverse {kind : VertexKind α} {kind' : VertexKind β}
    (h : kind.traverse f = .ok kind') : kind.Renamed f kind' := by
  cases kind with
  | terminal =>
      cases h
      exact .terminal
  | join name =>
      obtain ⟨name', hname, h⟩ := bind_eq_ok_iff.1 h
      cases h
      exact .join hname
  | root group =>
      obtain ⟨group', hgroup, h⟩ := bind_eq_ok_iff.1 h
      cases h
      exact .root hgroup

namespace VertexKind.Renamed

variable {kind : VertexKind α} {kind' : VertexKind β}

theorem terminal_iff (h : kind.Renamed f kind') : kind' = .terminal ↔ kind = .terminal := by
  cases h <;> simp

/-- A root stays a root. -/
theorem isSome_group? (h : kind.Renamed f kind') : kind'.group?.isSome = kind.group?.isSome := by
  cases h <;> rfl

end VertexKind.Renamed

/-- A vertex that is traversed keeps its number and its edges. -/
theorem Vertex.renamed_of_traverse {v : Vertex α} {v' : Vertex β} (h : v.traverse f = .ok v') :
    v.Renamed f v' := by
  obtain ⟨kind, hkind, h⟩ := bind_eq_ok_iff.1 h
  cases h
  exact ⟨rfl, VertexKind.renamed_of_traverse hkind, rfl, rfl⟩

/-- An edge that is traversed keeps its number and its ends. -/
theorem Edge.renamed_of_traverse {e : Edge α} {e' : Edge β} (h : e.traverse f = .ok e') :
    e.Renamed f e' := by
  obtain ⟨actions, hactions, h⟩ := bind_eq_ok_iff.1 h
  cases h
  exact ⟨rfl, rfl, rfl, hactions⟩

namespace FlowGraph

variable {g : FlowGraph α} {g' : FlowGraph β}

/-- The graph, its texts renamed. -/
structure Renamed (f : α → Except ε β) (g : FlowGraph α) (g' : FlowGraph β) : Prop where
  vertices : List.Forall₂ (Vertex.Renamed f) g.vertices g'.vertices
  edges : List.Forall₂ (Edge.Renamed f) g.edges g'.edges
  joins : List.Forall₂ (JoinRenamed f) g.joins g'.joins

/-- A graph that is traversed is renamed. -/
theorem renamed_of_traverse (h : g.traverse f = .ok g') : g.Renamed f g' := by
  obtain ⟨vertices, hvertices, h⟩ := bind_eq_ok_iff.1 h
  obtain ⟨edges, hedges, h⟩ := bind_eq_ok_iff.1 h
  obtain ⟨joins, hjoins, h⟩ := bind_eq_ok_iff.1 h
  cases h
  refine ⟨(mapM_eq_ok_iff.1 hvertices).imp fun _ _ => Vertex.renamed_of_traverse,
    (mapM_eq_ok_iff.1 hedges).imp fun _ _ => Edge.renamed_of_traverse,
    (mapM_eq_ok_iff.1 hjoins).imp fun j j' hj => ?_⟩
  obtain ⟨name, hname, hj⟩ := bind_eq_ok_iff.1 hj
  cases hj
  exact ⟨hname, rfl⟩

-- =============================================================== tables

namespace Renamed

/-- The vertices keep their numbers. -/
theorem ids (h : g.Renamed f g') : g'.labels.map Prod.fst = g.labels.map Prod.fst := by
  rw [map_fst_labels, map_fst_labels]
  exact (map_eq_of_forall₂ h.vertices fun _ _ hv => hv.id.symm).symm

/-- The edges keep their sources. -/
theorem sources (h : g.Renamed f g') : g'.edges.map (·.source) = g.edges.map (·.source) :=
  (map_eq_of_forall₂ h.edges fun _ _ he => he.source.symm).symm

/-- What stands in the table stands there still, under the renamed kind. -/
theorem exists_has (h : g.Renamed f g') {i : Int} {kind : VertexKind α} (hi : g.Has i kind) :
    ∃ kind', g'.Has i kind' ∧ kind.Renamed f kind' := by
  obtain ⟨v, hv, rfl, rfl⟩ := exists_vertex hi
  obtain ⟨v', hv', hrenamed⟩ := counterpart_of_mem_left h.vertices hv
  exact ⟨v'.kind, hrenamed.id ▸ has_of_mem hv', hrenamed.kind⟩

/-- The edges with the same end are the same edges. -/
theorem map_id_filter (h : g.Renamed f g') {key : Edge α → Int} {key' : Edge β → Int}
    (hkey : ∀ e e', Edge.Renamed f e e' → key' e' = key e) (i : Int) :
    (g'.edges.filter (key' · = i)).map (·.id) = (g.edges.filter (key · = i)).map (·.id) := by
  have hfilter : List.Forall₂ (Edge.Renamed f) (g.edges.filter (key · = i))
      (g'.edges.filter (key' · = i)) := by
    refine List.rel_filter (fun e e' he => ?_) h.edges
    simp only [decide_eq_true_eq, hkey e e' he]
  exact (map_eq_of_forall₂ hfilter fun _ _ he => he.id.symm).symm

/-- The labels keep their numbers and their order. -/
theorem labels (h : g.Renamed f g') :
    List.Forall₂ (fun l l' => l'.1 = l.1 ∧ l.2.Renamed f l'.2) g.labels g'.labels := by
  rw [FlowGraph.labels, FlowGraph.labels, List.forall₂_map_left_iff, List.forall₂_map_right_iff]
  exact h.vertices.imp fun _ _ hv => ⟨hv.id, hv.kind⟩

/-- What the labels list of joins is renamed with them. -/
theorem joinLabels (h : g.Renamed f g') :
    List.Forall₂ (JoinRenamed f) (g.labels.filterMap joinLabel)
      (g'.labels.filterMap joinLabel) := by
  refine List.rel_filterMap (fun l l' hl => ?_) h.labels
  obtain ⟨i, kind⟩ := l
  obtain ⟨i', kind'⟩ := l'
  obtain ⟨hid, hkind⟩ := hl
  cases hkind with
  | terminal => exact .none
  | join hname => exact .some ⟨hname, hid⟩
  | root _ => exact .none

/-- Where names stay apart, the renamed graph is labelled like the graph. -/
theorem labelled (h : g.Renamed f g') (hinj : ∀ {a b c}, f a = .ok c → f b = .ok c → a = b)
    (hg : g.Labelled) : g'.Labelled where
  numbered := by
    rw [h.ids, hg.numbered, length_labels, length_labels, h.vertices.length_eq]
  terminal := by
    obtain ⟨rest, hfirst⟩ := List.head?_eq_some_iff.1 hg.terminal
    have hlabels := h.labels
    rw [hfirst] at hlabels
    obtain ⟨l', rest', hl, -, hfirst'⟩ := List.forall₂_cons_left_iff.1 hlabels
    rw [hfirst']
    exact congrArg some (Prod.ext hl.1 (hl.2.terminal_iff.2 rfl))
  single := by
    intro l' hl' hterminal
    obtain ⟨l, hl, hid, hkind⟩ := counterpart_of_mem_right h.labels hl'
    rw [hid]
    exact hg.single l hl (hkind.terminal_iff.1 hterminal)
  joins := by
    have hunique : Relator.RightUnique (JoinRenamed f) := by
      intro j j' j'' hj hj'
      exact Prod.ext (Except.ok.inj (hj.1.symm.trans hj'.1)) (hj.2.trans hj'.2.symm)
    have hjoins := h.joins
    rw [hg.joins] at hjoins
    exact hunique.forall₂ hjoins h.joinLabels
  names := by
    have hnames : List.Forall₂ (fun a b => f a = .ok b) (g.joins.map Prod.fst)
        (g'.joins.map Prod.fst) := by
      rw [List.forall₂_map_left_iff, List.forall₂_map_right_iff]
      exact h.joins.imp fun _ _ hj => hj.1
    have hunique : Relator.BiUnique fun a b => f a = .ok b :=
      ⟨fun _ _ _ => hinj, fun _ _ _ hb hc => Except.ok.inj (hb.symm.trans hc)⟩
    exact (List.rel_nodup hunique hnames).1 hg.names

/-- Where names stay apart, the tables of a renamed graph agree as those of
the graph do. -/
theorem wellFormed (h : g.Renamed f g') (hinj : ∀ {a b c}, f a = .ok c → f b = .ok c → a = b)
    (hg : g.WellFormed) : g'.WellFormed where
  labelled := h.labelled hinj hg.labelled
  numbered := by
    rw [← h.edges.length_eq, ← hg.numbered]
    exact (map_eq_of_forall₂ h.edges fun _ _ he => he.id.symm).symm
  sources := by
    intro e' he'
    obtain ⟨e, he, hrenamed⟩ := counterpart_of_mem_right h.edges he'
    obtain ⟨kind, hkind, hne⟩ := hg.sources e he
    obtain ⟨kind', hkind', hsame⟩ := h.exists_has hkind
    rw [hrenamed.source]
    exact ⟨kind', hkind', fun heq => hne (hsame.terminal_iff.1 heq)⟩
  targets := by
    intro e' he'
    obtain ⟨e, he, hrenamed⟩ := counterpart_of_mem_right h.edges he'
    obtain ⟨kind, hkind, hnone⟩ := hg.targets e he
    obtain ⟨kind', hkind', hsame⟩ := h.exists_has hkind
    rw [hrenamed.target]
    refine ⟨kind', hkind', ?_⟩
    rw [← Option.isNone_iff_eq_none, ← Option.not_isSome, hsame.isSome_group?, hnone]
    rfl
  single := by
    rw [h.sources]
    exact hg.single
  outgoing := by
    intro v' hv'
    obtain ⟨v, hv, hrenamed⟩ := counterpart_of_mem_right h.vertices hv'
    have hsources := h.map_id_filter (fun _ _ he => he.source) v.id
    rw [hrenamed.outgoing, hrenamed.id, hg.outgoing v hv, ← List.head?_filter, ← List.head?_filter,
      ← List.head?_map, ← List.head?_map, hsources]
  incoming := by
    intro v' hv'
    obtain ⟨v, hv, hrenamed⟩ := counterpart_of_mem_right h.vertices hv'
    rw [hrenamed.incoming, hrenamed.id, hg.incoming v hv]
    exact (h.map_id_filter (fun _ _ he => he.target) v.id).symm

end Renamed

end FlowGraph

end RecipeChart
