/-
Where the parts of a graph and the findings of a check come from. A root
stands for the group that some rule sets out from, and has its span; an
edge that leaves a root has it too. What a check finds is found on a
rule, on a join that is claimed or fed, on a loop of joins, on a root, or
on the whole graph (`Finds`).

The span of a root is given to it once and kept by every operation of the
stitching. That is an induction over operations, not over fragments, and
is stated for any law that they keep (`Kept`).
-/
import RecipeChart.Proofs.FlowGraph.Accounting
import RecipeChart.Proofs.FlowGraph.Relabelling
import RecipeChart.Proofs.FlowGraph.Strays
import RecipeChart.Proofs.Verdict

namespace RecipeChart

open FlowGraph

variable {α : Type}

-- =========================================================== operations

section Kept

variable [DecidableEq α] {P : FlowGraph α → Prop}

/-- Each operation of the stitching keeps the law. -/
structure Kept (P : FlowGraph α → Prop) : Prop where
  root : ∀ g group, P g → P (g.addRoot group).2
  join : ∀ g ref, P g → P (g.joinVertex ref).2
  edge : ∀ g source target actions span, P g → P (g.addEdge source target actions span)
  terminal : ∀ g span, P g → P (g.meetTerminal span)

namespace Kept

/-- A run that draws its edge keeps the law. -/
theorem draw (h : Kept P) {d : Draft α} (hd : P d.graph) (run : Run α) (target : Int) :
    P (d.draw run target).graph := by
  unfold Draft.draw
  cases run.source with
  | none => exact hd
  | some source => exact h.edge _ _ _ _ _ hd

/-- Setting out keeps it. -/
theorem setOut (h : Kept P) {d : Draft α} (hd : P d.graph) (s : Start α) :
    P (d.setOut s).2.graph := by
  cases s with
  | group g => exact h.root _ g hd
  | join ref => exact h.join _ ref hd

/-- A passage keeps it. -/
theorem addPassage (h : Kept P) {d : Draft α} (hd : P d.graph) (p : Passage α) :
    P (d.addPassage p).graph := by
  have hout := h.setOut hd p.owner
  rw [Draft.addPassage, Draft.ride]
  cases p.target with
  | none => exact hout
  | some t =>
      cases t with
      | done span =>
          exact h.draw (d := { (d.setOut p.owner).2 with graph := _ }) (h.terminal _ span hout) _ _
      | join ref =>
          exact h.draw (d := { (d.setOut p.owner).2 with graph := _, feeds := _ })
            (h.join _ ref hout) _ _

/-- A fragment keeps it. -/
theorem add (h : Kept P) {d : Draft α} (hd : P d.graph) (f : Fragment α) : P (d.add f).graph := by
  cases hf : f.isFollowed with
  | true =>
      rw [Draft.add_eq d hf]
      induction f.passages generalizing d with
      | nil => exact hd
      | cons p ps ih => exact ih (h.addPassage hd p)
  | false =>
      cases hstart : f.start with
      | group g =>
          rw [Draft.add_of_orphan d hstart hf]
          exact hd
      | join ref =>
          rw [Draft.add_of_mention d hstart hf]
          exact hd

/-- A law of the empty graph that is kept is one of every stitched graph. -/
theorem graphOf (h : Kept P) (hempty : P .empty) (fs : List (Fragment α)) :
    P (RecipeChart.graphOf fs) := by
  have hrun : ∀ d : Draft α, P d.graph → P (fs.foldl Draft.add d).graph := by
    induction fs with
    | nil => exact fun d hd => hd
    | cons f fs ih => exact fun d hd => ih (d.add f) (h.add hd f)
  exact hrun {} hempty

end Kept

end Kept

-- =============================================================== roots

namespace FlowGraph

/-- What stands at the vertices, and where it is met. -/
def spots (g : FlowGraph α) : List (VertexKind α × Option Span) :=
  g.vertices.map fun v => (v.kind, v.span)

/-- The terminal stands first, and every root has the span of its group. -/
def Rooted (g : FlowGraph α) : Prop :=
  ∃ span rest, g.spots = (.terminal, span) :: rest
    ∧ ∀ spot ∈ rest, ∀ group, spot.1 = .root group → spot.2 = group.span

/-- What changes neither a kind nor a span leaves all spots. -/
theorem spots_modify (g : FlowGraph α) (i : Int) {f : Vertex α → Vertex α}
    (hf : ∀ v, (f v).kind = v.kind ∧ (f v).span = v.span) : (g.modify i f).spots = g.spots := by
  show (Rows.modify g.vertices i f).map _ = _
  have hsame : ∀ v : Vertex α, ((f v).kind, (f v).span) = id (v.kind, v.span) := fun v =>
    Prod.ext (hf v).1 (hf v).2
  rw [Rows.map_modify g.vertices i hsame, Rows.modify]
  cases Rows.place? (g.vertices.map fun v => (v.kind, v.span)).length i with
  | none => rfl
  | some place => exact List.modify_id _ _

/-- A new edge leaves all spots. -/
theorem spots_addEdge (g : FlowGraph α) (source target : Int) (actions : List (Action α))
    (span : Option Span) : (g.addEdge source target actions span).spots = g.spots := by
  rw [addEdge]
  split
  · rw [spots_modify _ target (by exact fun v => ⟨rfl, rfl⟩),
      spots_modify _ source (by exact fun v => ⟨rfl, rfl⟩)]
    rfl
  · rfl

/-- A finish that is met can only give the terminal its span. -/
theorem spots_meetTerminal (g : FlowGraph α) (span : Option Span) :
    (g.meetTerminal span).spots = g.spots.modify 0 fun spot => (spot.1, spot.2.or span) := by
  have hmap : (g.meetTerminal span).spots
      = Rows.modify g.spots terminalId fun spot => (spot.1, spot.2.or span) :=
    Rows.map_modify g.vertices terminalId fun _ => rfl
  exact hmap.trans (Rows.modify_natCast _ 0 _)

/-- A new vertex keeps the law if a root among them has the span of its
group. -/
theorem Rooted.addVertex {g : FlowGraph α} (h : g.Rooted) {kind : VertexKind α}
    {span : Option Span} (hspan : ∀ group, kind = .root group → span = group.span) :
    (g.addVertex kind span).Rooted := by
  obtain ⟨top, rest, hspots, hrest⟩ := h
  refine ⟨top, rest ++ [(kind, span)], ?_, fun spot hspot => ?_⟩
  · rw [spots, FlowGraph.addVertex, List.map_append]
    exact congrArg (· ++ _) hspots
  · rcases List.mem_append.1 hspot with hspot | hspot
    · exact hrest spot hspot
    · rw [List.mem_singleton.1 hspot]
      exact hspan

/-- Every operation keeps the spans of the roots. -/
theorem kept_rooted [DecidableEq α] : Kept (Rooted (α := α)) where
  root g group h := h.addVertex fun group' heq => by
    cases heq
    rfl
  join g ref h := by
    rw [joinVertex]
    cases g.join? ref.name with
    | some i => exact h
    | none =>
        have hkind : ∀ group, VertexKind.join ref.name = .root group → ref.span = group.span := by
          intro group heq
          cases heq
        exact h.addVertex hkind
  edge g source target actions span h := by
    rw [Rooted, spots_addEdge]
    exact h
  terminal g span h := by
    obtain ⟨top, rest, hspots, hrest⟩ := h
    rw [Rooted, spots_meetTerminal, hspots]
    exact ⟨_, rest, rfl, hrest⟩

end FlowGraph

section Stitch

variable [DecidableEq α] {fs : List (Fragment α)}

/-- A root stands for the start of a rule and has its span. -/
theorem exists_start_of_root {v : Vertex α} (hv : v ∈ (graphOf fs).vertices) {group : Group α}
    (hkind : v.kind = .root group) :
    v.span = group.span ∧ ∃ f ∈ fs, f.start = .group group := by
  constructor
  · obtain ⟨span, rest, hspots, hrest⟩ :=
      kept_rooted.graphOf ⟨none, [], rfl, fun _ h => absurd h List.not_mem_nil⟩ fs
    have hspot : (v.kind, v.span) ∈ (graphOf fs).spots := List.mem_map.2 ⟨v, hv, rfl⟩
    rw [hspots] at hspot
    rcases List.mem_cons.1 hspot with heq | hspot
    · rw [hkind] at heq
      cases heq
    · exact hrest _ hspot group hkind
  · have hstitched := stitched_draftOf fs
    have hi := has_of_mem hv
    rw [hkind] at hi
    obtain ⟨e, he, heq⟩ := List.mem_map.1 (hstitched.roots v.id group hi)
    obtain ⟨p, hp, hdraws⟩ := counterpart_of_mem_left hstitched.edges he
    obtain ⟨f, hf, -, hp⟩ := mem_passagesOf.1 (mem_of_mem_drawnFrom hp)
    rw [← heq] at hi
    have howner := hdraws.owner_eq hstitched.wellFormed.labelled hi
    exact ⟨f, hf, Fragment.start_of_owner hp howner⟩

/-- An edge that leaves a root has the span of the group. -/
theorem span_of_edge {e : Edge α} (he : e ∈ (graphOf fs).edges) {group : Group α}
    (hsource : (graphOf fs).Has e.source (.root group)) : e.span = group.span := by
  have hstitched := stitched_draftOf fs
  obtain ⟨p, -, hdraws⟩ := counterpart_of_mem_left hstitched.edges he
  rw [hdraws.span, hdraws.owner_eq hstitched.wellFormed.labelled hsource]
  rfl

-- ============================================================= findings

/-- What a check can find in the rules: ingredients that reach nothing,
steps after a join that reach nothing, a join that is not matched, a loop
of joins, a root that does not arrive, and that nothing does. -/
inductive Finds (fs : List (Fragment α)) : Diagnostic α → Prop where
  | orphan {f : Fragment α} {group : Group α} (hf : f ∈ fs) (hstart : f.start = .group group) :
      Finds fs (.orphan group group.span)
  | dangling {p : Passage α} {ref : JoinRef α} (hp : p ∈ passagesOf fs)
      (howner : p.owner = .join ref) : Finds fs (.dangling p.owner p.actions p.owner.span)
  | missing {name : α} (hname : name ∈ joinNames fs) (span : Option Span) :
      Finds fs (.missingContinuation name span)
  | unknown {name : α} (hname : name ∈ joinNames fs) (span : Option Span) :
      Finds fs (.unknownJoin name span)
  | duplicate {name : α} (hname : name ∈ joinNames fs) (span : Option Span) :
      Finds fs (.duplicateContinuation name span)
  | loop {name : α} {names : List α} {span : Option Span}
      (hnames : ∀ n ∈ name :: names, n ∈ joinNames fs) :
      Finds fs (.cycle (some name) ((name :: names ++ [name]).map some) span)
  | root {v : Vertex α} {group : Group α} (hv : v ∈ (graphOf fs).vertices)
      (hkind : v.kind = .root group) : Finds fs (.disconnected group v.span)
  | nothing : Finds fs (.emptyRecipe none)

/-- What is found on a fragment is a finding. -/
theorem finds_of_problems {f : Fragment α} (hf : f ∈ fs) {x : Diagnostic α} (hx : x ∈ f.problems) :
    Finds fs x := by
  unfold Fragment.problems at hx
  split at hx
  · next hfollowed =>
      obtain ⟨p, hp, hproblem⟩ := List.mem_filterMap.1 hx
      unfold Passage.problem? at hproblem
      split at hproblem
      · cases hproblem
      · next htarget =>
          cases hproblem
          cases howner : p.owner with
          | group g => exact absurd htarget (Fragment.target_ne_none_of_owner hfollowed hp howner)
          | join ref =>
              rw [← howner]
              exact .dangling (mem_passagesOf.2 ⟨f, hf, hfollowed, hp⟩) howner
  · split at hx
    · next hstart =>
        rw [List.mem_singleton.1 hx]
        exact .orphan hf hstart
    · cases hx

/-- What is found on a join is a finding. -/
theorem finds_of_joinProblems {name : α} (hname : name ∈ joinNames fs)
    {claims feeds : List (Option Span)} {x : Diagnostic α}
    (hx : x ∈ Draft.joinProblems name claims feeds) : Finds fs x := by
  rcases List.mem_append.1 hx with hx | hx
  · split at hx
    · rw [List.mem_singleton.1 hx]
      exact .missing hname _
    · rw [List.mem_singleton.1 hx]
      exact .unknown hname _
    · cases hx
  · split at hx
    · rw [List.mem_singleton.1 hx]
      exact .duplicate hname _
    · cases hx

/-- What the stitching finds is a finding. -/
theorem finds_of_stitch {x : Diagnostic α} (hx : x ∈ (stitch fs).2) : Finds fs x := by
  rw [stitch_problems] at hx
  rcases List.mem_append.1 hx with hx | hx
  · obtain ⟨f, hf, hx⟩ := List.mem_flatMap.1 hx
    exact finds_of_problems hf hx
  · rw [checkJoins_eq] at hx
    obtain ⟨name, hname, hx⟩ := List.mem_flatMap.1 hx
    exact finds_of_joinProblems hname hx

/-- A loop is one of joins that have a vertex. -/
theorem finds_of_cycles {found : List (Diagnostic α)} (hfound : (graphOf fs).cycles = .ok found)
    {x : Diagnostic α} (hx : x ∈ found) : Finds fs x := by
  obtain ⟨found', hfound', entries, htells, -, -⟩ := (wellFormed_graphOf fs).cycles_tell
  cases hfound.symm.trans hfound'
  obtain ⟨entry, -, htells⟩ := counterpart_of_mem_left htells hx
  obtain ⟨name, names, i, around, span, -, -, hjoins, -, -, rfl⟩ := htells.names
  refine .loop fun n hn => ?_
  have hvertex : (graphOf fs).join? n ∈ (i :: around).map some := by
    rw [← hjoins]
    exact List.mem_map.2 ⟨n, hn, rfl⟩
  obtain ⟨j, -, hj⟩ := List.mem_map.1 hvertex
  exact List.mem_map.2 ⟨(n, j), mem_of_lookup hj.symm, rfl⟩

/-- All that a check finds. -/
theorem finds_of_check {v : Verdict α} (hv : checkFragments fs = .ok v) {x : Diagnostic α}
    (hx : x ∈ v.diagnostics) : Finds fs x := by
  obtain ⟨hstitching, hanalysis⟩ := analysis_of_check hv
  obtain ⟨loops, empty, hloops, hempty, hfound⟩ := findings_of_analyze hanalysis
  rw [Verdict.diagnostics, hstitching, hfound, List.mem_append, List.mem_append,
    List.mem_append] at hx
  rcases hx with hx | (hx | hx) | hx
  · exact finds_of_stitch hx
  · exact finds_of_cycles hloops hx
  · obtain ⟨strays, hstrays, -, hall⟩ := exists_strays (graphOf fs)
    obtain ⟨root, hroot, group, hkind, rfl⟩ := counterpart_of_mem_left hall hx
    exact .root (List.mem_of_mem_filter (hstrays.subset hroot)) hkind
  · rcases emptiness_cases hempty with rfl | rfl
    · cases hx
    · rw [List.mem_singleton.1 hx]
      exact .nothing

end Stitch

end RecipeChart
