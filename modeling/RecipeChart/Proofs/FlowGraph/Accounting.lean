/-
No run of steps gets lost. The edges of a stitched graph are, in the order
of their numbers, the passages that arrive somewhere and do not carry on
from a join that was carried on from before. Every passage that arrives
nowhere is reported, and so is every fragment of ingredients that reach
nothing, in the order of the source.

Draws says of an edge which kind of vertex it leaves. That settles the
vertex of a join, which has its name to itself, but not the vertex of a
group, as two rules may start from equal ingredients. What settles it is
that the roots and the edges that leave them are made together: read in
the order of the edges, the sources that are roots are the roots in the
order of the vertices. A passage that has set out from a new root is one
root ahead of the edges until it arrives.
-/
import RecipeChart.Proofs.FlowGraph.JoinFindings

namespace RecipeChart

open FlowGraph

variable {α : Type}

-- =============================================================== roots

namespace FlowGraph

variable {g g' : FlowGraph α} {i : Int}

/-- The numbers of the roots. -/
def rootIds (g : FlowGraph α) : List Int := g.roots.map (·.id)

/-- The roots among the sources of the edges, edge by edge. -/
def rootSources (g : FlowGraph α) : List Int := (g.edges.map (·.source)).filter (· ∈ g.rootIds)

/-- The numbers of the roots can be told from the labels. -/
theorem rootIds_eq (g : FlowGraph α) :
    g.rootIds = (g.labels.filter (·.2.group?.isSome)).map Prod.fst := by
  rw [rootIds, roots, labels, List.filter_map, List.map_map]
  rfl

/-- They do not change where the labels do not. -/
theorem rootIds_of_labels (h : g'.labels = g.labels) : g'.rootIds = g.rootIds := by
  rw [rootIds_eq, rootIds_eq, h]

/-- They are those that stand in the table as roots. -/
theorem mem_rootIds_iff : i ∈ g.rootIds ↔ ∃ group, g.Has i (.root group) := by
  rw [rootIds_eq, List.mem_map]
  constructor
  · intro ⟨⟨j, kind⟩, hl, hid⟩
    obtain ⟨hl, hkind⟩ := List.mem_filter.1 hl
    cases kind with
    | terminal => cases hkind
    | join name => cases hkind
    | root group => exact ⟨group, hid ▸ hl⟩
  · intro ⟨group, hi⟩
    exact ⟨_, List.mem_filter.2 ⟨hi, rfl⟩, rfl⟩

/-- What is no root is not among the roots. -/
theorem Labelled.not_mem_rootIds (h : g.Labelled) {kind : VertexKind α} (hi : g.Has i kind)
    (hkind : kind.group? = none) : i ∉ g.rootIds := by
  intro hmem
  obtain ⟨group, hroot⟩ := mem_rootIds_iff.1 hmem
  rw [h.unique hi hroot] at hkind
  cases hkind

/-- A new root comes behind the others. -/
theorem rootIds_addRoot (g : FlowGraph α) (group : Group α) :
    (g.addRoot group).2.rootIds = g.rootIds ++ [(g.addRoot group).1] := by
  rw [rootIds_eq, rootIds_eq, addRoot, labels_addVertex, List.filter_append, List.map_append]
  rfl

/-- The vertex of a join is no root. -/
theorem rootIds_joinVertex [DecidableEq α] (g : FlowGraph α) (ref : JoinRef α) :
    (g.joinVertex ref).2.rootIds = g.rootIds := by
  rw [joinVertex]
  cases g.join? ref.name with
  | some i => rfl
  | none =>
      show (g.addVertex (.join ref.name) ref.span).rootIds = g.rootIds
      rw [rootIds_eq, rootIds_eq, labels_addVertex, List.filter_append]
      simp [VertexKind.group?]

/-- A finish that is met makes no root. -/
theorem Labelled.rootIds_meetTerminal (h : g.Labelled) (span : Option Span) :
    (g.meetTerminal span).rootIds = g.rootIds := by
  refine rootIds_of_labels (labels_of_map (h.vertices_meetTerminal span) fun v => ?_)
  split <;> exact ⟨rfl, rfl⟩

end FlowGraph

section Steps

variable [DecidableEq α] {ps : List (Passage α)} {p : Passage α} {run : Run α} {d : Draft α}

/-- The roots are those that edges leave, and the one that the run may
have set out from. -/
theorem Stitched.rootIds_setOut (h : Stitched ps d) (hroots : d.graph.rootSources = d.graph.rootIds)
    (s : Start α) :
    (d.setOut s).2.graph.rootSources
        ++ (d.setOut s).1.source.toList.filter (· ∈ (d.setOut s).2.graph.rootIds)
      = (d.setOut s).2.graph.rootIds := by
  have hgains := h.setOut ⟨s, [], none⟩
  cases s with
  | group group =>
      obtain ⟨-, hfresh⟩ := hgains.source (d.graph.addRoot group).1 rfl
      have hids : (d.setOut (.group group)).2.graph.rootIds
          = d.graph.rootIds ++ [(d.graph.addRoot group).1] := rootIds_addRoot d.graph group
      -- no edge knows of the new root
      have hsources : (d.setOut (.group group)).2.graph.rootSources = d.graph.rootSources := by
        rw [rootSources, rootSources, hids]
        refine List.filter_congr fun i hi => ?_
        have hne : i ≠ (d.graph.addRoot group).1 := fun heq => hfresh (heq ▸ hi)
        simp [hne]
      rw [hsources, hroots, hids]
      simp [Draft.setOut]
  | join ref =>
      have hids : (d.setOut (.join ref)).2.graph.rootIds = d.graph.rootIds :=
        rootIds_joinVertex d.graph ref
      have hedges : (d.setOut (.join ref)).2.graph.edges = d.graph.edges :=
        (h.wellFormed.gains_joinVertex ref).edges
      have hsource : (d.setOut (.join ref)).1.source.toList.filter
          (· ∈ (d.setOut (.join ref)).2.graph.rootIds) = [] := by
        rw [List.filter_eq_nil_iff]
        intro i hi
        obtain ⟨hhas, -⟩ := hgains.source i (Option.mem_toList.1 hi)
        simpa using hgains.wellFormed.labelled.not_mem_rootIds hhas rfl
      rw [hsource, List.append_nil, rootSources, hedges, hids]
      exact hroots

/-- A run that arrives catches up with the roots. -/
theorem Underway.rootIds_draw (h : Underway ps p run d) {g' : FlowGraph α} {w : Int}
    {t : Finish α} {feeds : List (Int × Option Span)} (hg : d.graph.Gains w t.kind g')
    (hids : g'.rootIds = d.graph.rootIds)
    (hroots : d.graph.rootSources ++ run.source.toList.filter (· ∈ d.graph.rootIds)
      = d.graph.rootIds) :
    (Draft.draw { d with graph := g', feeds } { run with actions := p.actions } w).graph.rootSources
      = (Draft.draw { d with graph := g', feeds }
          { run with actions := p.actions } w).graph.rootIds := by
  cases hsource : run.source with
  | none =>
      rw [hsource, Option.toList_none, List.filter_nil, List.append_nil] at hroots
      show g'.rootSources = g'.rootIds
      rw [rootSources, hg.edges, hids]
      exact hroots
  | some source =>
      obtain ⟨hhas, -⟩ := h.source source hsource
      have hw : g'.Has w t.kind := hg.has.2 (.inr ⟨rfl, rfl⟩)
      have hlabels : rootIds (g'.addEdge source w p.actions run.owner.span) = g'.rootIds :=
        rootIds_of_labels (hg.wellFormed.labelled.labels_addEdge (hg.has.2 (.inl hhas)) hw)
      show rootSources (g'.addEdge source w p.actions run.owner.span)
        = rootIds (g'.addEdge source w p.actions run.owner.span)
      rw [rootSources, hlabels, hids, edges_addEdge, hg.edges, List.map_append, List.filter_append]
      rw [hsource] at hroots
      exact hroots

/-- What one passage preserves. -/
theorem Stitched.rootIds_addPassage (h : Stitched ps d)
    (hroot : ∀ group, p.owner = .group group → p.target ≠ none)
    (hroots : d.graph.rootSources = d.graph.rootIds) :
    (d.addPassage p).graph.rootSources = (d.addPassage p).graph.rootIds := by
  have hunder := h.setOut p
  have hahead := h.rootIds_setOut hroots p.owner
  rw [Draft.addPassage, Draft.ride]
  cases ht : p.target with
  | none =>
      -- what arrives nowhere set out from a join
      have hsource : (d.setOut p.owner).1.source.toList.filter
          (· ∈ (d.setOut p.owner).2.graph.rootIds) = [] := by
        rw [List.filter_eq_nil_iff]
        intro i hi
        obtain ⟨hhas, -⟩ := hunder.source i (Option.mem_toList.1 hi)
        cases howner : p.owner with
        | group group => exact absurd ht (hroot group howner)
        | join ref =>
            rw [howner] at hhas hunder
            simpa using hunder.wellFormed.labelled.not_mem_rootIds hhas rfl
      rw [hsource, List.append_nil] at hahead
      exact hahead
  | some t =>
      cases t with
      | done span =>
          have hgains : (d.setOut p.owner).2.graph.Gains terminalId (Finish.done span).kind
              ((d.setOut p.owner).2.graph.meetTerminal span) :=
            hunder.wellFormed.gains_meetTerminal span
          exact hunder.rootIds_draw hgains (hunder.wellFormed.labelled.rootIds_meetTerminal span)
            hahead
      | join ref =>
          exact hunder.rootIds_draw (t := .join ref) (hunder.wellFormed.gains_joinVertex ref)
            (rootIds_joinVertex _ ref) hahead

/-- What a run over passages preserves. -/
theorem Stitched.rootIds_foldl_addPassage (h : Stitched ps d) {qs : List (Passage α)}
    (hqs : ∀ p ∈ qs, ∀ group, p.owner = .group group → p.target ≠ none)
    (hroots : d.graph.rootSources = d.graph.rootIds) :
    (qs.foldl Draft.addPassage d).graph.rootSources
      = (qs.foldl Draft.addPassage d).graph.rootIds := by
  induction qs generalizing ps d with
  | nil => exact hroots
  | cons p qs ih =>
      rw [List.forall_mem_cons] at hqs
      exact ih (h.addPassage hqs.1) hqs.2 (h.rootIds_addPassage hqs.1 hroots)

/-- What one fragment preserves. -/
theorem Stitched.rootIds_add {fs : List (Fragment α)} (h : Stitched (passagesOf fs) d)
    (hroots : d.graph.rootSources = d.graph.rootIds) (f : Fragment α) :
    (d.add f).graph.rootSources = (d.add f).graph.rootIds := by
  cases hf : f.isFollowed with
  | true =>
      rw [Draft.add_eq d hf]
      exact h.rootIds_foldl_addPassage
        (fun p hp group howner => Fragment.target_ne_none_of_owner hf hp howner) hroots
  | false =>
      cases hstart : f.start with
      | group g =>
          rw [Draft.add_of_orphan d hstart hf]
          exact hroots
      | join ref =>
          rw [Draft.add_of_mention d hstart hf]
          exact hroots

/-- The edges that leave roots leave them in the order of their making. -/
theorem rootSources_graphOf (fs : List (Fragment α)) :
    (graphOf fs).rootSources = (graphOf fs).rootIds := by
  induction fs using List.reverseRecOn with
  | nil => rfl
  | append_singleton fs f ih =>
      have hstep := (stitched_draftOf fs).rootIds_add ih f
      rwa [graphOf, draftOf, List.foldl_concat]

end Steps

-- ============================================================ loose ends

/-- What is wrong with a join is no loose end. -/
theorem Draft.isLooseEnd_of_mem_joinProblems {name : α} {claims feeds : List (Option Span)}
    {x : Diagnostic α} (hx : x ∈ joinProblems name claims feeds) : x.isLooseEnd = false := by
  rcases List.mem_append.1 hx with hx | hx
  · split at hx
    · rw [List.mem_singleton.1 hx]
      rfl
    · rw [List.mem_singleton.1 hx]
      rfl
    · cases hx
  · split at hx
    · rw [List.mem_singleton.1 hx]
      rfl
    · cases hx

/-- What dangles carries on from a join: ingredients either arrive or are
an orphan. -/
theorem Fragment.exists_join_of_dangling {f : Fragment α} {start : Start α}
    {actions : List (Action α)} {span : Option Span}
    (h : .dangling start actions span ∈ f.problems) : ∃ ref, start = .join ref := by
  unfold problems at h
  split at h
  · rename_i hf
    obtain ⟨p, hp, hproblem⟩ := List.mem_filterMap.1 h
    unfold Passage.problem? at hproblem
    split at hproblem
    · cases hproblem
    · rename_i htarget
      cases hproblem
      cases howner : p.owner with
      | group g => exact absurd htarget (target_ne_none_of_owner hf hp howner)
      | join ref => exact ⟨ref, rfl⟩
  · split at h
    · cases List.mem_singleton.1 h
    · cases h

section Stitch

variable [DecidableEq α]

omit [DecidableEq α] in
/-- The check of the joins reports no loose ends. -/
theorem Draft.isLooseEnd_of_mem_checkJoins {d : Draft α} {x : Diagnostic α}
    (hx : x ∈ d.checkJoins) : x.isLooseEnd = false := by
  obtain ⟨v, -, hv⟩ := List.mem_flatMap.1 hx
  cases hkind : v.kind with
  | terminal =>
      rw [hkind] at hv
      cases hv
  | root group =>
      rw [hkind] at hv
      cases hv
  | join name =>
      rw [hkind] at hv
      exact isLooseEnd_of_mem_joinProblems hv

/-- The loose ends among the problems are those of the fragments. -/
theorem filter_isLooseEnd_stitch (fs : List (Fragment α)) :
    (stitch fs).2.filter Diagnostic.isLooseEnd = fs.flatMap Fragment.problems := by
  have hends : (fs.flatMap Fragment.problems).filter Diagnostic.isLooseEnd
      = fs.flatMap Fragment.problems := by
    rw [List.filter_eq_self]
    intro x hx
    obtain ⟨f, -, hx⟩ := List.mem_flatMap.1 hx
    exact Fragment.isLooseEnd_of_mem_problems hx
  have hjoins : (draftOf fs).checkJoins.filter Diagnostic.isLooseEnd = [] := by
    rw [List.filter_eq_nil_iff]
    intro x hx
    rw [Draft.isLooseEnd_of_mem_checkJoins hx]
    exact Bool.false_ne_true
  rw [stitch_problems, List.filter_append, hends, hjoins, List.append_nil]

/-- A join that is claimed twice is reported. -/
theorem exists_duplicate {fs : List (Fragment α)} {name : α}
    (h : 2 ≤ (claimsOf fs name).length) :
    ∃ span, .duplicateContinuation name span ∈ (stitch fs).2 := by
  obtain ⟨first, second, rest, hclaims⟩ :
      ∃ first second rest, claimsOf fs name = first :: second :: rest := by
    match hclaims : claimsOf fs name with
    | [] => simp [hclaims] at h
    | [_] => simp [hclaims] at h
    | first :: second :: rest => exact ⟨first, second, rest, rfl⟩
  have hfinding : .duplicateContinuation name second.span ∈ findingsOn fs name := by
    rw [findingsOn, hclaims]
    exact List.mem_append_right _ (List.mem_singleton_self _)
  exact ⟨second.span, mem_stitch_of_findingsOn hfinding⟩

/-- A passage that draws no edge arrives nowhere, or carries on from a join
that is reported as carried on from more than once. -/
theorem reported_of_not_drawn {fs : List (Fragment α)} {before after : List (Passage α)}
    {p : Passage α} (hp : passagesOf fs = before ++ p :: after)
    (hdraws : p.draws (before.filterMap Passage.claim?) = false) :
    p.target = none ∨ ∃ ref, p.owner = .join ref
      ∧ ∃ span, .duplicateContinuation ref.name span ∈ (stitch fs).2 := by
  cases htarget : p.target with
  | none => exact .inl rfl
  | some t =>
      right
      rw [Passage.draws, htarget, Option.isSome_some, Bool.true_and] at hdraws
      cases hclaim : p.claim? with
      | none =>
          rw [hclaim] at hdraws
          cases hdraws
      | some ref =>
          rw [hclaim, Option.all_some, List.all_eq_false] at hdraws
          obtain ⟨earlier, hearlier, hname⟩ := hdraws
          refine ⟨ref, Passage.claim?_eq_some_iff.1 hclaim, exists_duplicate ?_⟩
          -- the earlier claim stands before this one
          have hfirst : earlier ∈ (before.filterMap Passage.claim?).filter (·.name = ref.name) :=
            List.mem_filter.2 ⟨hearlier, by simpa using hname⟩
          have hlength := List.length_pos_of_mem hfirst
          have hself : (ref :: after.filterMap Passage.claim?).filter (·.name = ref.name)
              = ref :: (after.filterMap Passage.claim?).filter (·.name = ref.name) :=
            List.filter_cons_of_pos (decide_eq_true rfl)
          rw [claimsOf, ← filterMap_claim?_passagesOf, hp, List.filterMap_append,
            List.filterMap_cons_some hclaim, List.filter_append, List.length_append, hself,
            List.length_cons]
          omega

/-- Every run of steps is an edge or is reported. The edges are, in the
order of their numbers, the passages that arrive somewhere and carry on
from no join that was claimed before; each has the actions of its passage
and leads from the vertex of the owner to that of the target. A join and
the terminal have their vertices to themselves, and the roots are made in
the order of the edges that leave them. The orphans and what dangles are
reported in the order of the source, and what dangles carries on from a
join. A passage that is no edge either dangles or is of a join that is
reported. -/
theorem stitch_accounts (fs : List (Fragment α)) :
    (stitch fs).1.edges.map (·.id) = numbers (stitch fs).1.edges.length
      ∧ List.Forall₂ (Draws (stitch fs).1) (stitch fs).1.edges (drawn (passagesOf fs))
      ∧ ((stitch fs).1.edges.map (·.source)).filter (· ∈ (stitch fs).1.roots.map (·.id))
        = (stitch fs).1.roots.map (·.id)
      ∧ (∀ name i, (stitch fs).1.join? name = some i ↔ (stitch fs).1.Has i (.join name))
      ∧ (∀ i, (stitch fs).1.Has i .terminal ↔ i = terminalId)
      ∧ (stitch fs).2.filter Diagnostic.isLooseEnd = fs.flatMap Fragment.problems
      ∧ (∀ start actions span, .dangling start actions span ∈ (stitch fs).2 →
        ∃ ref, start = .join ref)
      ∧ ∀ before p after, passagesOf fs = before ++ p :: after →
        p.draws (before.filterMap Passage.claim?) = false →
        p.target = none ∨ ∃ ref, p.owner = .join ref
          ∧ ∃ span, .duplicateContinuation ref.name span ∈ (stitch fs).2 := by
  have hstitched := stitched_draftOf fs
  have hlabelled := hstitched.wellFormed.labelled
  refine ⟨hstitched.wellFormed.numbered, hstitched.edges, rootSources_graphOf fs,
    fun name i => hlabelled.join?_eq_some_iff, fun i => hlabelled.has_terminal_iff,
    filter_isLooseEnd_stitch fs, fun start actions span h => ?_,
    fun before p after hp hdraws => reported_of_not_drawn hp hdraws⟩
  have hmem : .dangling start actions span ∈ (stitch fs).2.filter Diagnostic.isLooseEnd :=
    List.mem_filter.2 ⟨h, rfl⟩
  rw [filter_isLooseEnd_stitch] at hmem
  obtain ⟨f, -, hf⟩ := List.mem_flatMap.1 hmem
  exact f.exists_join_of_dangling hf

end Stitch

/-- Two rules from equal ingredients, one that carries on from two joins,
one that carries on from the first of them again, ingredients left over, a
join that is only mentioned, and a step that leads nowhere. -/
def leftovers : List (Fragment String) :=
  [⟨.group ⟨[⟨"egg", none⟩], none⟩, [.step ⟨⟨"beat", []⟩, none⟩], some (.join ⟨"bowl", none⟩)⟩,
    ⟨.group ⟨[⟨"egg", none⟩], none⟩, [.step ⟨⟨"boil", []⟩, none⟩], some (.join ⟨"bowl", none⟩)⟩,
    ⟨.join ⟨"bowl", none⟩, [.step ⟨⟨"mix", []⟩, none⟩, .join ⟨"pan", none⟩,
      .step ⟨⟨"fry", []⟩, none⟩], some (.done none)⟩,
    ⟨.join ⟨"bowl", none⟩, [.step ⟨⟨"rest", []⟩, none⟩], some (.join ⟨"pan", none⟩)⟩,
    ⟨.group ⟨[⟨"salt", none⟩], none⟩, [.step ⟨⟨"grind", []⟩, none⟩], none⟩,
    ⟨.join ⟨"tray", none⟩, [], none⟩,
    ⟨.join ⟨"pan", none⟩, [.step ⟨⟨"flip", []⟩, none⟩], none⟩]

/-- The leftovers have four edges, two of them from equal ingredients. -/
theorem stitch_accounts_leftovers :
    List.Forall₂ (Draws (stitch leftovers).1) (stitch leftovers).1.edges
        [⟨.group ⟨[⟨"egg", none⟩], none⟩, [⟨"beat", []⟩], some (.join ⟨"bowl", none⟩)⟩,
          ⟨.group ⟨[⟨"egg", none⟩], none⟩, [⟨"boil", []⟩], some (.join ⟨"bowl", none⟩)⟩,
          ⟨.join ⟨"bowl", none⟩, [⟨"mix", []⟩], some (.join ⟨"pan", none⟩)⟩,
          ⟨.join ⟨"pan", none⟩, [⟨"fry", []⟩], some (.done none)⟩]
      ∧ (stitch leftovers).2.filter Diagnostic.isLooseEnd
        = [.orphan ⟨[⟨"salt", none⟩], none⟩ none,
          .dangling (.join ⟨"pan", none⟩) [⟨"flip", []⟩] none]
      ∧ ∃ span, .duplicateContinuation "bowl" span ∈ (stitch leftovers).2 := by
  obtain ⟨-, hedges, -, -, -, hends, -, hreported⟩ := stitch_accounts leftovers
  refine ⟨hedges, hends, ?_⟩
  -- the second rule that carries on from the bowl is the fifth passage
  have hpassage : passagesOf leftovers = (passagesOf leftovers).take 4
      ++ ⟨.join ⟨"bowl", none⟩, [⟨"rest", []⟩], some (.join ⟨"pan", none⟩)⟩
      :: (passagesOf leftovers).drop 5 := by decide
  rcases hreported _ _ _ hpassage (by decide) with htarget | ⟨ref, howner, span, hspan⟩
  · cases htarget
  · cases howner
    exact ⟨span, hspan⟩

end RecipeChart
