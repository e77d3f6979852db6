/-
Stitching does not read spans, and it reads the name of a join only to
tell joins apart. To relabel a value is to give its joins other names and
to take its spans away; the texts of ingredients and steps stay. Each
operation of the stitching commutes with this: to relabel and then operate
gives what one gets from operating and then relabelling.

One operation looks names up, the one that finds the vertex of a join. It
commutes if no two of the names that it meets become one, so the invariant
of a run over fragments has two parts: the one draft is the other one
relabelled, and the names in its table are among those on which the
relabelling is injective.
-/
import Mathlib.Data.Set.Function
import RecipeChart.Proofs.FlowGraph.Findings
import RecipeChart.Recipe.Unplaced

namespace RecipeChart

variable {α : Type}

-- ============================================================== recipes

section Definitions

variable (σ : α → α)

/-- The mention of the join under its other name, without its place. -/
def JoinRef.relabel (r : JoinRef α) : JoinRef α := ⟨σ r.name, none⟩

def Start.relabel : Start α → Start α
  | .group g => .group g.unplaced
  | .join r => .join (r.relabel σ)

def Element.relabel : Element α → Element α
  | .step s => .step s.unplaced
  | .join r => .join (r.relabel σ)

def Finish.relabel : Finish α → Finish α
  | .join r => .join (r.relabel σ)
  | .done _ => .done none

def Fragment.relabel (f : Fragment α) : Fragment α :=
  ⟨f.start.relabel σ, f.body.map (Element.relabel σ), f.finish.map (Finish.relabel σ)⟩

-- =============================================================== graphs

def VertexKind.relabel : VertexKind α → VertexKind α
  | .terminal => .terminal
  | .join name => .join (σ name)
  | .root group => .root group.unplaced

def Vertex.relabel (v : Vertex α) : Vertex α :=
  { v with kind := v.kind.relabel σ, span := none }

/-- The edge without its place. An edge names no join. -/
def Edge.unplaced (e : Edge α) : Edge α := { e with span := none }

def FlowGraph.relabel (g : FlowGraph α) : FlowGraph α :=
  ⟨g.vertices.map (Vertex.relabel σ), g.edges.map Edge.unplaced,
    g.joins.map fun j => (σ j.1, j.2)⟩

/-- The graph without its places. -/
def FlowGraph.unplaced (g : FlowGraph α) : FlowGraph α := g.relabel id

-- ============================================================= findings

def Diagnostic.relabel : Diagnostic α → Diagnostic α
  | .missingContinuation name _ => .missingContinuation (σ name) none
  | .duplicateContinuation name _ => .duplicateContinuation (σ name) none
  | .unknownJoin name _ => .unknownJoin (σ name) none
  | .orphan group _ => .orphan group.unplaced none
  | .dangling start actions _ => .dangling (start.relabel σ) actions none
  | .cycle name loop _ => .cycle (name.map σ) (loop.map (Option.map σ)) none
  | .disconnected group _ => .disconnected group.unplaced none
  | .emptyRecipe _ => .emptyRecipe none

-- =============================================================== drafts

/-- The notes without the places of the mentions. -/
def unplacedNotes (noted : List (Int × Option Span)) : List (Int × Option Span) :=
  noted.map fun entry => (entry.1, none)

def Draft.relabel (d : Draft α) : Draft α :=
  ⟨d.graph.relabel σ, d.problems.map (Diagnostic.relabel σ), unplacedNotes d.claims,
    unplacedNotes d.feeds⟩

def Run.relabel (run : Run α) : Run α := ⟨run.source, run.owner.relabel σ, run.actions⟩

end Definitions

-- ============================================================= unplaced

/-- To give every name to itself is to take the spans away. -/
theorem Start.relabel_id : (Start.relabel id : Start α → Start α) = Start.unplaced := by
  funext s
  cases s <;> rfl

theorem Element.relabel_id : (Element.relabel id : Element α → Element α) = Element.unplaced := by
  funext x
  cases x <;> rfl

theorem Finish.relabel_id : (Finish.relabel id : Finish α → Finish α) = Finish.unplaced := by
  funext t
  cases t <;> rfl

/-- To keep all names is to take the spans away. -/
theorem Fragment.relabel_id : (Fragment.relabel id : Fragment α → Fragment α)
    = Fragment.unplaced := by
  funext f
  rw [relabel, Start.relabel_id, Element.relabel_id, Finish.relabel_id]
  rfl

/-- For a problem too, the one change is that of its spans. -/
theorem Diagnostic.relabel_id : (Diagnostic.relabel id : Diagnostic α → Diagnostic α)
    = Diagnostic.unplaced := by
  funext x
  cases x with
  | dangling start actions span =>
      rw [relabel, Start.relabel_id]
      rfl
  | cycle name loop span => simp [relabel, unplaced]
  | _ => rfl

-- ================================================================= rows

namespace Rows

variable {β γ : Type}

/-- A row of what is made of rows is made of the row. -/
theorem row?_map (rows : List β) (number : Int) (f : β → γ) :
    row? (rows.map f) number = (row? rows number).map f := by
  rw [row?, row?, List.length_map]
  cases place? rows.length number with
  | none => rfl
  | some place => exact List.getElem?_map

/-- To change a row and then all rows is to change all rows and then that
one, if the two changes of a row commute. -/
theorem map_modify (rows : List β) (number : Int) {f : β → β} {f' : γ → γ} {h : β → γ}
    (hf : ∀ b, h (f b) = f' (h b)) :
    (modify rows number f).map h = modify (rows.map h) number f' := by
  rw [modify, modify, List.length_map]
  cases place? rows.length number with
  | none => rfl
  | some place =>
      refine List.ext_getElem? fun n => ?_
      rw [List.getElem?_map, List.getElem?_modify, List.getElem?_modify, List.getElem?_map]
      cases rows[n]? with
      | none => rfl
      | some b =>
          by_cases hn : place = n
          · simp [hn, hf]
          · simp [hn]

end Rows

-- =============================================================== graphs

namespace FlowGraph

variable {σ : α → α} {g : FlowGraph α}

/-- A vertex that is added may be relabelled before or after. -/
theorem relabel_addVertex (kind : VertexKind α) (span : Option Span) :
    (g.addVertex kind span).relabel σ = (g.relabel σ).addVertex (kind.relabel σ) none := by
  simp [relabel, addVertex, Vertex.relabel]

/-- So may a root, which bears no name. -/
theorem relabel_addRoot (group : Group α) :
    (g.relabel σ).addRoot group.unplaced
      = ((g.addRoot group).1, (g.addRoot group).2.relabel σ) := by
  rw [addRoot, addRoot, relabel_addVertex]
  simp [relabel, VertexKind.relabel, Group.unplaced]

/-- A change of a vertex that commutes with relabelling does so in the
table. -/
theorem relabel_modify (v : Int) {f f' : Vertex α → Vertex α}
    (hf : ∀ x, (f x).relabel σ = f' (x.relabel σ)) :
    (g.modify v f).relabel σ = (g.relabel σ).modify v f' := by
  rw [relabel, modify, Rows.map_modify _ _ hf]
  rfl

/-- An edge that is added may be relabelled before or after; it loses its
span only. -/
theorem relabel_addEdge (source target : Int) (actions : List (Action α)) (span : Option Span) :
    (g.addEdge source target actions span).relabel σ
      = (g.relabel σ).addEdge source target actions none := by
  have hbare : (g.addBareEdge source target actions span).relabel σ
      = (g.relabel σ).addBareEdge source target actions none := by
    simp [relabel, addBareEdge, Edge.unplaced]
  have hholds : ((g.addBareEdge source target actions span).relabel σ).holds source
      = (g.addBareEdge source target actions span).holds source := by
    simp [holds, relabel]
  have hlength : (g.relabel σ).edges.length = g.edges.length := List.length_map _
  have hout : ((g.addBareEdge source target actions span).modify source
        fun v => { v with outgoing := some (g.edges.length : Int) }).relabel σ
      = ((g.addBareEdge source target actions span).relabel σ).modify source
        fun v => { v with outgoing := some (g.edges.length : Int) } :=
    relabel_modify source fun x => rfl
  rw [addEdge, addEdge, ← hbare, hholds, hlength]
  split
  · rw [← hout]
    exact relabel_modify target fun x => rfl
  · rfl

/-- To note the terminal at a place is to note it at none. -/
theorem relabel_meetTerminal (span : Option Span) :
    (g.meetTerminal span).relabel σ = (g.relabel σ).meetTerminal none :=
  relabel_modify terminalId fun _ => rfl

-- ================================================================ names

/-- Are the joins of the graph among these? -/
def NamesIn (g : FlowGraph α) (S : Set α) : Prop := ∀ j ∈ g.joins, j.1 ∈ S

/-- An edge brings no new name. -/
theorem NamesIn.addEdge {S : Set α} (h : g.NamesIn S) (source target : Int)
    (actions : List (Action α)) (span : Option Span) :
    (g.addEdge source target actions span).NamesIn S := by
  rw [NamesIn, joins_addEdge]
  exact h

section Names

variable [DecidableEq α] {S : Set α}

/-- A name is found under its other name, if no two become one. -/
theorem join?_relabel (hσ : S.InjOn σ) (h : g.NamesIn S) {name : α} (hname : name ∈ S) :
    (g.relabel σ).join? (σ name) = g.join? name := by
  show (g.joins.map fun j => (σ j.1, j.2)).lookup (σ name) = g.joins.lookup name
  unfold NamesIn at h
  generalize g.joins = joins at h
  induction joins with
  | nil => rfl
  | cons j joins ih =>
      rw [List.forall_mem_cons] at h
      rw [List.map_cons, List.lookup_cons, List.lookup_cons, ih h.2]
      have hsame : (σ name == σ j.1) = (name == j.1) := by
        rw [Bool.eq_iff_iff, beq_iff_eq, beq_iff_eq]
        exact hσ.eq_iff hname h.1
      rw [hsame]

/-- The vertex of a join is found under its other name if no two names of
the table become one. -/
theorem relabel_joinVertex (hσ : S.InjOn σ) (h : g.NamesIn S) {ref : JoinRef α}
    (href : ref.name ∈ S) :
    (g.relabel σ).joinVertex (ref.relabel σ)
      = ((g.joinVertex ref).1, (g.joinVertex ref).2.relabel σ) := by
  have hfind : (g.relabel σ).join? (ref.relabel σ).name = g.join? ref.name :=
    join?_relabel hσ h href
  rw [joinVertex, joinVertex, hfind]
  cases g.join? ref.name with
  | some v => rfl
  | none => simp [relabel, addVertex, Vertex.relabel, VertexKind.relabel, JoinRef.relabel]

/-- The vertex of a join brings no name but its own. -/
theorem NamesIn.joinVertex (h : g.NamesIn S) {ref : JoinRef α} (href : ref.name ∈ S) :
    (g.joinVertex ref).2.NamesIn S := by
  rw [FlowGraph.joinVertex]
  cases g.join? ref.name with
  | some v => exact h
  | none =>
      intro j hj
      rcases List.mem_append.1 hj with hj | hj
      · exact h j hj
      · rw [List.mem_singleton.1 hj]
        exact href

end Names

end FlowGraph

-- =============================================================== drafts

/-- The second draft is the first one relabelled, and the joins of the
first are among these. -/
structure Renames (σ : α → α) (S : Set α) (d d' : Draft α) : Prop where
  eq : d' = d.relabel σ
  names : d.graph.NamesIn S

/-- A run and its draft, relabelled. -/
structure RunRenames (σ : α → α) (S : Set α) (x x' : Run α × Draft α) : Prop where
  run : x'.1 = x.1.relabel σ
  draft : Renames σ S x.2 x'.2

/-- As many mentions are noted at a vertex without their places. -/
theorem spansOf_unplacedNotes (v : Int) (noted : List (Int × Option Span)) :
    spansOf v (unplacedNotes noted) = (spansOf v noted).map fun _ => none := by
  rw [spansOf, unplacedNotes, List.filter_map, List.map_map, spansOf, List.map_map]
  rfl

open FlowGraph

section Steps

variable {σ : α → α} {S : Set α} {d d' : Draft α} {run : Run α}

/-- A problem is noted in both drafts. -/
theorem Renames.note (h : Renames σ S d d') (problem : Diagnostic α) :
    Renames σ S (d.note problem) (d'.note (problem.relabel σ)) := by
  refine ⟨?_, h.names⟩
  rw [h.eq]
  simp [Draft.note, Draft.relabel]

/-- A run draws its edge in both drafts. -/
theorem Renames.draw (h : Renames σ S d d') (run : Run α) (w : Int) :
    Renames σ S (d.draw run w) (d'.draw (run.relabel σ) w) := by
  rw [h.eq, Draft.draw, Draft.draw, Run.relabel]
  cases run.source with
  | none => exact ⟨rfl, h.names⟩
  | some source =>
      refine ⟨?_, h.names.addEdge _ _ _ _⟩
      have hspan : (run.owner.relabel σ).span = none := by cases run.owner <;> rfl
      simp only [Draft.relabel, relabel_addEdge, hspan]

variable [DecidableEq α] {ref : JoinRef α}

/-- A join is claimed in both drafts, under its two names. -/
theorem Renames.claim (hσ : S.InjOn σ) (h : Renames σ S d d') (href : ref.name ∈ S) :
    RunRenames σ S (d.claim ref) (d'.claim (ref.relabel σ)) := by
  have hvertex := relabel_joinVertex hσ h.names href
  have hspans : spansOf (d.graph.joinVertex ref).1 (unplacedNotes d.claims) = []
      ↔ spansOf (d.graph.joinVertex ref).1 d.claims = [] := by
    rw [spansOf_unplacedNotes, List.map_eq_nil_iff]
  rw [h.eq]
  refine ⟨?_, ?_, h.names.joinVertex href⟩
  · simp only [Draft.claim, Draft.relabel, hvertex, hspans]
    rfl
  · simp only [Draft.claim, Draft.relabel, hvertex, unplacedNotes, List.map_append]
    rfl

/-- A join is fed in both drafts, under its two names. -/
theorem Renames.feed (hσ : S.InjOn σ) (h : Renames σ S d d') (href : ref.name ∈ S)
    (run : Run α) : Renames σ S (d.feed run ref) (d'.feed (run.relabel σ) (ref.relabel σ)) := by
  have hvertex := relabel_joinVertex hσ h.names href
  rw [h.eq]
  simp only [Draft.feed, Draft.relabel, hvertex]
  refine Renames.draw ⟨?_, h.names.joinVertex href⟩ run _
  simp only [Draft.relabel, unplacedNotes, List.map_append]
  rfl

-- =========================================================== fragments

variable {x x' : Run α × Draft α}

/-- What one element of a body preserves. -/
theorem RunRenames.pass (hσ : S.InjOn σ) (h : RunRenames σ S x x') (e : Element α)
    (he : ∀ ref ∈ e.join?, ref.name ∈ S) :
    RunRenames σ S (Draft.pass x e) (Draft.pass x' (e.relabel σ)) := by
  obtain ⟨run, d⟩ := x
  obtain ⟨run', d'⟩ := x'
  obtain ⟨hrun, hdraft⟩ := h
  cases hrun
  cases e with
  | step s => exact ⟨rfl, hdraft⟩
  | join ref => exact (hdraft.feed hσ (he ref rfl) run).claim hσ (he ref rfl)

/-- A body is passed in both drafts. -/
theorem RunRenames.foldl_pass (hσ : S.InjOn σ) (h : RunRenames σ S x x')
    (body : List (Element α)) (hbody : ∀ ref ∈ body.filterMap Element.join?, ref.name ∈ S) :
    RunRenames σ S (body.foldl Draft.pass x)
      ((body.map (Element.relabel σ)).foldl Draft.pass x') := by
  induction body generalizing x x' with
  | nil => exact h
  | cons e body ih =>
      refine ih (h.pass hσ e fun ref href => ?_) fun ref href => ?_
      · exact hbody ref (List.mem_filterMap.2 ⟨e, List.mem_cons_self, href⟩)
      · obtain ⟨e', he', hjoin⟩ := List.mem_filterMap.1 href
        exact hbody ref (List.mem_filterMap.2 ⟨e', List.mem_cons_of_mem e he', hjoin⟩)

/-- An end is arrived at in both drafts. -/
theorem Renames.arrive (hσ : S.InjOn σ) (h : Renames σ S d d') (run : Run α)
    (finish : Option (Finish α)) (hfinish : ∀ ref ∈ finish.bind Finish.join?, ref.name ∈ S) :
    Renames σ S (Draft.arrive run d finish)
      (Draft.arrive (run.relabel σ) d' (finish.map (Finish.relabel σ))) := by
  cases finish with
  | none =>
      have hspan : (run.owner.relabel σ).span = none := by cases run.owner <;> rfl
      have hnote := h.note (.dangling run.owner run.actions run.owner.span)
      simp only [Diagnostic.relabel] at hnote
      simp only [Draft.arrive, Option.map_none, Run.relabel, hspan]
      exact hnote
  | some t =>
      cases t with
      | join ref => exact h.feed hσ (hfinish ref rfl) run
      | done span =>
          have hmet : Renames σ S { d with graph := d.graph.meetTerminal span }
              { d' with graph := d'.graph.meetTerminal none } := by
            refine ⟨?_, h.names⟩
            rw [h.eq]
            simp only [Draft.relabel, relabel_meetTerminal]
          exact hmet.draw run terminalId

/-- A start is set out from in both drafts. -/
theorem Renames.setOut (hσ : S.InjOn σ) (h : Renames σ S d d') (s : Start α)
    (hs : ∀ ref ∈ s.join?, ref.name ∈ S) :
    RunRenames σ S (d.setOut s) (d'.setOut (s.relabel σ)) := by
  cases s with
  | join ref => exact h.claim hσ (hs ref rfl)
  | group group =>
      rw [h.eq]
      refine ⟨?_, ?_, h.names⟩
      · simp only [Draft.setOut, Start.relabel, Draft.relabel, relabel_addRoot]
        rfl
      · simp only [Draft.setOut, Start.relabel, Draft.relabel, relabel_addRoot]

omit [DecidableEq α] in
/-- Ingredients that reach nothing reach nothing under other names. -/
theorem isOpen_relabel (f : Fragment α) : Draft.isOpen (f.relabel σ) = Draft.isOpen f := by
  have hjoin : ∀ e : Element α, (e.relabel σ).isJoin = e.isJoin := by
    intro e
    cases e <;> rfl
  simp [Draft.isOpen, Fragment.relabel, List.all_map, Function.comp_def, hjoin]

omit [DecidableEq α] in
/-- A bare mention is one under another name. -/
theorem isBare_relabel (f : Fragment α) : Draft.isBare (f.relabel σ) = Draft.isBare f := by
  simp [Draft.isBare, Fragment.relabel]

/-- What one fragment preserves. -/
theorem Renames.add (hσ : S.InjOn σ) (h : Renames σ S d d') (f : Fragment α)
    (hf : ∀ ref ∈ f.mentions, ref.name ∈ S) : Renames σ S (d.add f) (d'.add (f.relabel σ)) := by
  -- The names of a fragment stand at its start, in its body or at its end.
  have hstart : ∀ ref ∈ f.start.join?, ref.name ∈ S := fun ref href =>
    hf ref (List.mem_append_left _ (List.mem_append_left _ (Option.mem_toList.2 href)))
  have hbody : ∀ ref ∈ f.body.filterMap Element.join?, ref.name ∈ S := fun ref href =>
    hf ref (List.mem_append_left _ (List.mem_append_right _ href))
  have hfinish : ∀ ref ∈ f.finish.bind Finish.join?, ref.name ∈ S := fun ref href =>
    hf ref (List.mem_append_right _ (Option.mem_toList.2 href))
  have hfollow : Renames σ S (Draft.follow f (d.setOut f.start))
      (Draft.follow (f.relabel σ) (d'.setOut (f.start.relabel σ))) := by
    obtain ⟨hrun, hdraft⟩ := (h.setOut hσ f.start hstart).foldl_pass hσ f.body hbody
    show Renames σ S (Draft.arrive _ _ f.finish) (Draft.arrive _ _ _)
    rw [show (f.relabel σ).body = f.body.map (Element.relabel σ) from rfl, hrun]
    exact hdraft.arrive hσ _ f.finish hfinish
  cases hs : f.start with
  | group g =>
      have hs' : (f.relabel σ).start = .group g.unplaced := by
        rw [Fragment.relabel, hs]
        rfl
      rw [hs] at hfollow
      simp only [Draft.add, hs, hs', isOpen_relabel]
      split
      · exact h.note (.orphan g g.span)
      · exact hfollow
  | join ref =>
      have hs' : (f.relabel σ).start = .join (ref.relabel σ) := by
        rw [Fragment.relabel, hs]
        rfl
      rw [hs] at hfollow
      simp only [Draft.add, hs, hs', isBare_relabel]
      split
      · exact h
      · exact hfollow

/-- What a run over fragments preserves. -/
theorem Renames.foldl_add (hσ : S.InjOn σ) (h : Renames σ S d d') (fs : List (Fragment α))
    (hfs : ∀ f ∈ fs, ∀ ref ∈ f.mentions, ref.name ∈ S) :
    Renames σ S (fs.foldl Draft.add d) ((fs.map (Fragment.relabel σ)).foldl Draft.add d') := by
  induction fs generalizing d d' with
  | nil => exact h
  | cons f fs ih =>
      rw [List.forall_mem_cons] at hfs
      exact ih (h.add hσ f hfs.1) hfs.2

omit [DecidableEq α] in
/-- The drafts begin alike. -/
theorem Renames.empty : Renames σ S ({} : Draft α) {} :=
  ⟨rfl, fun _ hj => absurd hj List.not_mem_nil⟩

end Steps

-- =============================================================== joins

/-- What is found wrong with a join does not depend on its name, nor on
where it is mentioned. -/
theorem map_relabel_joinProblems (σ : α → α) (name : α) (claims feeds : List (Option Span)) :
    (Draft.joinProblems name claims feeds).map (Diagnostic.relabel σ)
      = Draft.joinProblems (σ name) (claims.map fun _ => none) (feeds.map fun _ => none) := by
  match claims, feeds with
  | [], [] => rfl
  | [], _ :: _ => rfl
  | [_], [] => rfl
  | [_], _ :: _ => rfl
  | _ :: _ :: _, [] => rfl
  | _ :: _ :: _, _ :: _ => rfl

/-- The check of the joins may be relabelled before or after. -/
theorem checkJoins_relabel (σ : α → α) (d : Draft α) :
    (d.relabel σ).checkJoins = d.checkJoins.map (Diagnostic.relabel σ) := by
  rw [Draft.checkJoins, Draft.checkJoins, Draft.relabel, FlowGraph.relabel, List.flatMap_map,
    List.map_flatMap]
  refine List.flatMap_congr fun v _ => ?_
  simp only [Vertex.relabel, spansOf_unplacedNotes]
  cases v.kind with
  | terminal => rfl
  | root group => rfl
  | join name => exact (map_relabel_joinProblems σ name _ _).symm

/-- Stitching commutes with a relabelling under which the joins that are
mentioned keep different names. -/
theorem stitch_relabel [DecidableEq α] {σ : α → α} (fs : List (Fragment α))
    (hσ : Set.InjOn σ {name | ∃ f ∈ fs, ∃ ref ∈ f.mentions, ref.name = name}) :
    stitch (fs.map (Fragment.relabel σ))
      = ((stitch fs).1.relabel σ, (stitch fs).2.map (Diagnostic.relabel σ)) := by
  have hrun := (Renames.empty (σ := σ)).foldl_add hσ fs fun f hf ref href => ⟨f, hf, ref, href, rfl⟩
  rw [stitch, hrun.eq, Draft.stitched, checkJoins_relabel, stitch, Draft.stitched, List.map_append]
  rfl

end RecipeChart
