/-
What stitching leaves behind. Passage after passage, the draft keeps its
tables in agreement, has noted the claims and feeds in the order of their
mentions, has a join vertex for the joins that were mentioned only, and
has one edge for each passage that may draw one, in order, with the
actions of the passage and between the vertices of what it sets out from
and arrives at. Every root has its edge.

A step of the stitching is taken apart once: a passage sets out, which is
the state `Underway`, and arrives.
-/
import RecipeChart.Proofs.FlowGraph.Passage
import RecipeChart.Proofs.FlowGraph.WellFormed
import RecipeChart.Proofs.Traversal

namespace RecipeChart

open FlowGraph

variable {α : Type}

/-- The kind of vertex that a start sets out from. -/
def Start.kind : Start α → VertexKind α
  | .group g => .root g
  | .join ref => .join ref.name

def Finish.kind : Finish α → VertexKind α
  | .join ref => .join ref.name
  | .done _ => .terminal

/-- Nothing sets out from the terminal. -/
theorem Start.kind_ne_terminal (s : Start α) : s.kind ≠ .terminal := by
  cases s with
  | group g => exact VertexKind.root_ne_terminal
  | join ref => exact VertexKind.join_ne_terminal

/-- Nothing arrives at a root. -/
theorem Finish.group?_kind (t : Finish α) : t.kind.group? = none := by
  cases t <;> rfl

-- ======================================================== notes, edges

/-- Does the entry note the mention at the vertex of its join? -/
def Notes (g : FlowGraph α) (entry : Int × Option Span) (ref : JoinRef α) : Prop :=
  g.Has entry.1 (.join ref.name) ∧ entry.2 = ref.span

/-- Is the edge the passage, drawn between its vertices? -/
structure Draws (g : FlowGraph α) (e : Edge α) (p : Passage α) : Prop where
  actions : e.actions = p.actions
  span : e.span = p.owner.span
  source : g.Has e.source p.owner.kind
  target : ∃ t, p.target = some t ∧ g.Has e.target t.kind

/-- An edge that leaves a root is a passage of its group. -/
theorem Draws.owner_eq {g : FlowGraph α} (hg : g.Labelled) {e : Edge α} {p : Passage α}
    (h : Draws g e p) {group : Group α} (hsource : g.Has e.source (.root group)) :
    p.owner = .group group := by
  have hkind := hg.unique h.source hsource
  cases howner : p.owner with
  | join ref =>
      rw [howner] at hkind
      cases hkind
  | group g =>
      rw [howner] at hkind
      cases hkind
      rfl

section Grows

variable {g g' : FlowGraph α} (h : ∀ {i kind}, g.Has i kind → g'.Has i kind)
include h

/-- Notes stay right in a larger table. -/
theorem forall₂_notes_mono {noted : List (Int × Option Span)} {refs : List (JoinRef α)}
    (hn : List.Forall₂ (Notes g) noted refs) : List.Forall₂ (Notes g') noted refs :=
  hn.imp fun _ _ hnote => ⟨h hnote.1, hnote.2⟩

/-- Edges stay drawn in a larger table. -/
theorem forall₂_draws_mono {edges : List (Edge α)} {ps : List (Passage α)}
    (he : List.Forall₂ (Draws g) edges ps) : List.Forall₂ (Draws g') edges ps := by
  refine he.imp fun _ _ hdraws => ?_
  obtain ⟨hactions, hspan, hsource, t, ht, htarget⟩ := hdraws
  exact ⟨hactions, hspan, h hsource, t, ht, h htarget⟩

end Grows

/-- The spans noted for a join vertex are those of the mentions of its
name. -/
theorem spansOf_eq [DecidableEq α] {g : FlowGraph α} (h : g.Labelled)
    {noted : List (Int × Option Span)} {refs : List (JoinRef α)}
    (hn : List.Forall₂ (Notes g) noted refs) {i : Int} {name : α} (hi : g.Has i (.join name)) :
    spansOf i noted = (refs.filter (·.name = name)).map (·.span) := by
  induction hn with
  | nil => rfl
  | @cons entry ref noted refs hnote _ ih =>
      have hsame : entry.1 = i ↔ ref.name = name := by
        constructor
        · intro heq
          have hentry := hnote.1
          rw [heq] at hentry
          injection h.unique hentry hi
        · intro heq
          have hentry := hnote.1
          rw [heq] at hentry
          exact h.unique_join hentry hi
      unfold spansOf at ih ⊢
      by_cases hname : ref.name = name
      · simp [hsame.2 hname, hname, hnote.2, ih]
      · have hid : ¬ entry.1 = i := fun heq => hname (hsame.1 heq)
        simp [hid, hname, ih]

-- ============================================================ invariant

/-- The draft that the passages leave behind. -/
structure Stitched [DecidableEq α] (ps : List (Passage α)) (d : Draft α) : Prop where
  wellFormed : d.graph.WellFormed
  claims : List.Forall₂ (Notes d.graph) d.claims (ps.filterMap Passage.claim?)
  feeds : List.Forall₂ (Notes d.graph) d.feeds (ps.filterMap Passage.feed?)
  joins : ∀ i name, d.graph.Has i (.join name) →
    ∃ ref ∈ ps.filterMap Passage.claim? ++ ps.filterMap Passage.feed?, ref.name = name
  edges : List.Forall₂ (Draws d.graph) d.graph.edges (drawn ps)
  roots : ∀ i group, d.graph.Has i (.root group) → i ∈ d.graph.edges.map (·.source)

/-- The draft when a passage has set out after others. -/
structure Underway [DecidableEq α] (ps : List (Passage α)) (p : Passage α) (run : Run α)
    (d : Draft α) : Prop where
  wellFormed : d.graph.WellFormed
  claims : List.Forall₂ (Notes d.graph) d.claims ((ps ++ [p]).filterMap Passage.claim?)
  feeds : List.Forall₂ (Notes d.graph) d.feeds (ps.filterMap Passage.feed?)
  joins : ∀ i name, d.graph.Has i (.join name) →
    ∃ ref ∈ (ps ++ [p]).filterMap Passage.claim? ++ ps.filterMap Passage.feed?, ref.name = name
  edges : List.Forall₂ (Draws d.graph) d.graph.edges (drawn ps)
  roots : ∀ i group, d.graph.Has i (.root group) →
    i ∈ d.graph.edges.map (·.source) ∨ run.source = some i
  owner : run.owner = p.owner
  source : ∀ i ∈ run.source, d.graph.Has i p.owner.kind ∧ i ∉ d.graph.edges.map (·.source)
  free : run.source.isSome = p.claim?.all fun ref =>
    (ps.filterMap Passage.claim?).all fun earlier => earlier.name ≠ ref.name

namespace Draft

variable [DecidableEq α]

-- ============================================================= passages

/-- The passage, of which the run has set out, is completed. -/
def ride (run : Run α) (d : Draft α) (p : Passage α) : Draft α :=
  arrive { run with actions := p.actions } d p.target

/-- One passage. -/
def addPassage (d : Draft α) (p : Passage α) : Draft α :=
  ride (d.setOut p.owner).1 (d.setOut p.owner).2 p

/-- Passages of which the first has set out. -/
def rideAll (run : Run α) (d : Draft α) : List (Passage α) → Draft α
  | [] => d
  | p :: ps => ps.foldl addPassage (ride run d p)

/-- To follow a fragment is to add its passages. -/
theorem follow_eq (start : Start α) (body : List (Element α)) (finish : Option (Finish α))
    (run : Run α) (d : Draft α) :
    follow ⟨start, body, finish⟩ (run, d)
      = rideAll run d (Passage.cut run.owner run.actions body finish) := by
  induction body generalizing run d with
  | nil => rfl
  | cons x body ih =>
      cases x with
      | step s => exact ih { run with actions := run.actions ++ [s.action] } d
      | join ref =>
          rw [Passage.cut, rideAll]
          show follow ⟨start, body, finish⟩ ((d.feed run ref).claim ref) = _
          rw [show (d.feed run ref).claim ref
            = (((d.feed run ref).claim ref).1, ((d.feed run ref).claim ref).2) from rfl, ih]
          obtain ⟨taken, target, rest, hcut, -⟩ := Passage.cut_eq_cons body finish
          rw [show ((d.feed run ref).claim ref).1.owner = .join ref from rfl,
            show ((d.feed run ref).claim ref).1.actions = [] from rfl, hcut]
          rfl

/-- A fragment that is followed sets out from its start. -/
theorem add_eq_follow (d : Draft α) {f : Fragment α} (h : f.isFollowed = true) :
    d.add f = follow f (d.setOut f.start) := by
  cases hstart : f.start with
  | group g =>
      have hopen : isOpen f = false := by
        simpa [Fragment.isFollowed, hstart] using h
      simp only [add, hstart, hopen, Bool.false_eq_true, if_false]
  | join ref =>
      have hbare : isBare f = false := by
        simpa [Fragment.isFollowed, hstart] using h
      simp only [add, hstart, hbare, Bool.false_eq_true, if_false]

/-- A fragment that is followed is added one passage after another. -/
theorem add_eq (d : Draft α) {f : Fragment α} (h : f.isFollowed = true) :
    d.add f = f.passages.foldl addPassage d := by
  have howner : (d.setOut f.start).1.owner = f.start := by cases f.start <;> rfl
  have hactions : (d.setOut f.start).1.actions = [] := by cases f.start <;> rfl
  rw [add_eq_follow d h,
    show d.setOut f.start = ((d.setOut f.start).1, (d.setOut f.start).2) from rfl,
    follow_eq f.start f.body f.finish, howner, hactions, Fragment.passages]
  obtain ⟨taken, target, rest, hcut, -⟩ := Passage.cut_eq_cons f.body f.finish
  rw [hcut]
  rfl

/-- Ingredients that are not followed leave a problem. -/
theorem add_of_orphan (d : Draft α) {f : Fragment α} {g : Group α} (hstart : f.start = .group g)
    (h : f.isFollowed = false) : d.add f = d.note (.orphan g g.span) := by
  have hopen : isOpen f = true := by
    simpa [Fragment.isFollowed, hstart] using h
  simp only [add, hstart, hopen, if_true]

/-- A join that is only mentioned leaves nothing. -/
theorem add_of_mention (d : Draft α) {f : Fragment α} {ref : JoinRef α}
    (hstart : f.start = .join ref) (h : f.isFollowed = false) : d.add f = d := by
  have hbare : isBare f = true := by
    simpa [Fragment.isFollowed, hstart] using h
  simp only [add, hstart, hbare, if_true]

end Draft

-- =============================================================== steps

section Steps

variable [DecidableEq α] {ps : List (Passage α)} {p : Passage α} {run : Run α} {d : Draft α}

/-- A join vertex from which an edge was drawn is claimed. -/
theorem Stitched.claimed_of_source (h : Stitched ps d) {i : Int} {name : α}
    (hi : d.graph.Has i (.join name)) (hsource : i ∈ d.graph.edges.map (·.source)) :
    ∃ ref ∈ ps.filterMap Passage.claim?, ref.name = name := by
  obtain ⟨e, he, rfl⟩ := List.mem_map.1 hsource
  obtain ⟨q, hq, hdraws⟩ := counterpart_of_mem_left h.edges he
  have hkind := h.wellFormed.labelled.unique hdraws.source hi
  cases howner : q.owner with
  | group g =>
      rw [howner] at hkind
      cases hkind
  | join ref =>
      rw [howner] at hkind
      injection hkind with hname
      have hclaim := Passage.claim?_eq_some_iff.2 howner
      exact ⟨ref, List.mem_filterMap.2 ⟨q, mem_of_mem_drawnFrom hq, hclaim⟩, hname⟩

/-- The vertex of a join that was not claimed so far is left by no edge. -/
theorem Stitched.not_mem_sources (h : Stitched ps d) {ref : JoinRef α}
    (hfirst : ∀ earlier ∈ ps.filterMap Passage.claim?, earlier.name ≠ ref.name) :
    (d.graph.joinVertex ref).1 ∉ d.graph.edges.map (·.source) := by
  intro hsource
  have hgains := h.wellFormed.gains_joinVertex ref
  -- a vertex that an edge leaves was there before, and was claimed
  obtain ⟨e, he, heq⟩ := List.mem_map.1 hsource
  obtain ⟨kind, hkind, -⟩ := h.wellFormed.sources e he
  rw [heq] at hkind
  have hsame := hgains.wellFormed.labelled.unique (hgains.has.2 (.inl hkind))
    (hgains.has.2 (.inr ⟨rfl, rfl⟩))
  rw [hsame] at hkind
  obtain ⟨earlier, hearlier, hname⟩ := h.claimed_of_source hkind hsource
  exact hfirst earlier hearlier hname

/-- A passage from ingredients sets out from a new root. -/
theorem Stitched.setOut_group (h : Stitched ps d) {group : Group α}
    (howner : p.owner = .group group) :
    Underway ps p (d.setOut (.group group)).1 (d.setOut (.group group)).2 := by
  have hgains := h.wellFormed.gains_addRoot group
  have hclaim : p.claim? = none := Passage.claim?_eq_none_iff.2 ⟨group, howner⟩
  have hclaims : (ps ++ [p]).filterMap Passage.claim? = ps.filterMap Passage.claim? := by
    rw [List.filterMap_append, List.filterMap_cons_none hclaim, List.filterMap_nil, List.append_nil]
  have hkeeps : ∀ {i kind}, d.graph.Has i kind → (d.graph.addRoot group).2.Has i kind :=
    fun hi => hgains.has.2 (.inl hi)
  constructor
  · exact hgains.wellFormed
  · rw [hclaims]
    exact forall₂_notes_mono hkeeps h.claims
  · exact forall₂_notes_mono hkeeps h.feeds
  · intro i name hi
    rw [hclaims]
    rcases hgains.has.1 hi with hi | ⟨-, hkind⟩
    · exact h.joins i name hi
    · cases hkind
  · exact forall₂_draws_mono hkeeps h.edges
  · intro i group' hi
    rcases hgains.has.1 hi with hi | ⟨hi, -⟩
    · exact .inl (h.roots i group' hi)
    · exact .inr (congrArg some hi.symm)
  · exact howner.symm
  · intro i hi
    cases hi
    rw [howner]
    refine ⟨hgains.has.2 (.inr ⟨rfl, rfl⟩), fun hsource => ?_⟩
    -- an edge leads between vertices that stood in the table before
    obtain ⟨e, he, heq⟩ := List.mem_map.1 hsource
    obtain ⟨kind, hkind, -⟩ := h.wellFormed.sources e he
    rw [heq] at hkind
    exact h.wellFormed.labelled.fresh hkind
  · rw [hclaim]
    rfl

/-- A passage from a join sets out if nobody claimed the join before, and
claims it in any case. -/
theorem Stitched.setOut_join (h : Stitched ps d) {ref : JoinRef α} (howner : p.owner = .join ref) :
    Underway ps p (d.setOut (.join ref)).1 (d.setOut (.join ref)).2 := by
  have hgains := h.wellFormed.gains_joinVertex ref
  have hclaim : p.claim? = some ref := Passage.claim?_eq_some_iff.2 howner
  have hclaims : (ps ++ [p]).filterMap Passage.claim? = ps.filterMap Passage.claim? ++ [ref] := by
    rw [List.filterMap_append, List.filterMap_cons_some hclaim, List.filterMap_nil]
  have hkeeps : ∀ {i kind}, d.graph.Has i kind → (d.graph.joinVertex ref).2.Has i kind :=
    fun hi => hgains.has.2 (.inl hi)
  have hvertex : (d.graph.joinVertex ref).2.Has (d.graph.joinVertex ref).1 (.join ref.name) :=
    hgains.has.2 (.inr ⟨rfl, rfl⟩)
  have hnotes := forall₂_notes_mono hkeeps h.claims
  have hspans := spansOf_eq hgains.wellFormed.labelled hnotes hvertex
  -- Nothing is noted at the vertex exactly if no passage before claimed a join of the
  -- name.
  have hfirst : spansOf (d.graph.joinVertex ref).1 d.claims = []
      ↔ ∀ earlier ∈ ps.filterMap Passage.claim?, earlier.name ≠ ref.name := by
    rw [hspans, List.map_eq_nil_iff, List.filter_eq_nil_iff]
    simp only [decide_eq_true_eq]
  constructor
  · exact hgains.wellFormed
  · rw [hclaims]
    exact List.rel_append hnotes (.cons ⟨hvertex, rfl⟩ .nil)
  · exact forall₂_notes_mono hkeeps h.feeds
  · intro i name hi
    rw [hclaims]
    rcases hgains.has.1 hi with hi | ⟨-, hkind⟩
    · obtain ⟨ref', href', hname⟩ := h.joins i name hi
      refine ⟨ref', ?_, hname⟩
      rcases List.mem_append.1 href' with href' | href'
      · exact List.mem_append_left _ (List.mem_append_left _ href')
      · exact List.mem_append_right _ href'
    · injection hkind with hname
      refine ⟨ref, ?_, hname.symm⟩
      exact List.mem_append_left _ (List.mem_append_right _ (List.mem_singleton_self ref))
  · show List.Forall₂ (Draws (d.graph.joinVertex ref).2) (d.graph.joinVertex ref).2.edges (drawn ps)
    rw [hgains.edges]
    exact forall₂_draws_mono hkeeps h.edges
  · intro i group hi
    left
    show i ∈ (d.graph.joinVertex ref).2.edges.map (·.source)
    rw [hgains.edges]
    rcases hgains.has.1 hi with hi | ⟨-, hkind⟩
    · exact h.roots i group hi
    · cases hkind
  · exact howner.symm
  · intro i hi
    -- The run has a source as the first claim only, and then no edge leaves it yet.
    simp only [Draft.setOut, Draft.claim] at hi
    by_cases hempty : spansOf (d.graph.joinVertex ref).1 d.claims = []
    · rw [if_pos hempty] at hi
      cases hi
      rw [howner]
      refine ⟨hvertex, ?_⟩
      show _ ∉ (d.graph.joinVertex ref).2.edges.map (·.source)
      rw [hgains.edges]
      exact h.not_mem_sources (hfirst.1 hempty)
    · rw [if_neg hempty] at hi
      cases hi
  · rw [hclaim, Option.all_some, Bool.eq_iff_iff, List.all_eq_true]
    simp only [Draft.setOut, Draft.claim, decide_eq_true_eq]
    rw [← hfirst]
    by_cases hempty : spansOf (d.graph.joinVertex ref).1 d.claims = []
    · simp [hempty]
    · simp [hempty]

/-- A passage sets out, whatever from. -/
theorem Stitched.setOut (h : Stitched ps d) (p : Passage α) :
    Underway ps p (d.setOut p.owner).1 (d.setOut p.owner).2 := by
  cases howner : p.owner with
  | group group => exact h.setOut_group howner
  | join ref => exact h.setOut_join howner

section Arrival

variable {t : Finish α} {w : Int} {g' : FlowGraph α}

/-- The joins that have a vertex once the run has arrived are those that
were mentioned. -/
theorem Underway.joins_of_gains (h : Underway ps p run d) (ht : p.target = some t)
    (hg : d.graph.Gains w t.kind g') {i : Int} {name : α} (hi : g'.Has i (.join name)) :
    ∃ ref ∈ (ps ++ [p]).filterMap Passage.claim? ++ (ps ++ [p]).filterMap Passage.feed?,
      ref.name = name := by
  rcases hg.has.1 hi with hi | ⟨-, hkind⟩
  · obtain ⟨ref, href, hname⟩ := h.joins i name hi
    refine ⟨ref, ?_, hname⟩
    rcases List.mem_append.1 href with href | href
    · exact List.mem_append_left _ href
    · rw [List.filterMap_append (f := Passage.feed?)]
      exact List.mem_append_right _ (List.mem_append_left _ href)
  · cases t with
    | done span => cases hkind
    | join ref =>
        injection hkind with hname
        have hp : p ∈ ps ++ [p] := List.mem_append_right _ (List.mem_singleton_self p)
        have hfeed := List.mem_filterMap.2 ⟨p, hp, Passage.feed?_eq_some_iff.2 ht⟩
        exact ⟨ref, List.mem_append_right _ hfeed, hname.symm⟩

/-- A root without an edge is the one that the run set out from. -/
theorem Underway.roots_of_gains (h : Underway ps p run d) (hg : d.graph.Gains w t.kind g')
    {i : Int} {group : Group α} (hi : g'.Has i (.root group)) :
    i ∈ g'.edges.map (·.source) ∨ run.source = some i := by
  rw [hg.edges]
  rcases hg.has.1 hi with hi | ⟨-, hkind⟩
  · exact h.roots i group hi
  · have hgroup := t.group?_kind
    rw [← hkind] at hgroup
    cases hgroup

/-- The run arrives at a vertex, and draws its edge if it may. -/
theorem Underway.draw (h : Underway ps p run d) {feeds : List (Int × Option Span)}
    (ht : p.target = some t) (hg : d.graph.Gains w t.kind g')
    (hfeeds : List.Forall₂ (Notes g') feeds ((ps ++ [p]).filterMap Passage.feed?)) :
    Stitched (ps ++ [p])
      (Draft.draw { d with graph := g', feeds } { run with actions := p.actions } w) := by
  have hkeeps : ∀ {i kind}, d.graph.Has i kind → g'.Has i kind := fun hi => hg.has.2 (.inl hi)
  have hw : g'.Has w t.kind := hg.has.2 (.inr ⟨rfl, rfl⟩)
  have hdraws : p.draws (ps.filterMap Passage.claim?) = run.source.isSome := by
    rw [Passage.draws, ht, h.free]
    rfl
  have hedges : List.Forall₂ (Draws g') g'.edges (drawn ps) := by
    rw [hg.edges]
    exact forall₂_draws_mono hkeeps h.edges
  -- Without a source the passage carries on from a join that was claimed before, and
  -- draws no edge.
  cases hsource : run.source with
  | none =>
      rw [hsource] at hdraws
      simp only [Draft.draw]
      refine ⟨hg.wellFormed, forall₂_notes_mono hkeeps h.claims, hfeeds,
        fun i name hi => h.joins_of_gains ht hg hi, ?_, fun i group hi => ?_⟩
      · rw [drawn_concat, hdraws]
        simpa using hedges
      · rcases h.roots_of_gains hg hi with hmem | hmem
        · exact hmem
        · rw [hsource] at hmem
          cases hmem
  | some source =>
      rw [hsource] at hdraws
      obtain ⟨hhas, hfree⟩ := h.source source (by rw [hsource]; rfl)
      have hfree' : source ∉ g'.edges.map (·.source) := by
        rwa [hg.edges]
      -- An edge leaves the labels, so what was said of numbers and kinds stands.
      have hlabels : (g'.addEdge source w p.actions run.owner.span).labels = g'.labels :=
        hg.wellFormed.labelled.labels_addEdge (hkeeps hhas) hw
      have hkeeps' : ∀ {i kind}, g'.Has i kind →
          (g'.addEdge source w p.actions run.owner.span).Has i kind := by
        intro i kind hi
        rwa [Has, hlabels]
      simp only [Draft.draw]
      refine ⟨hg.wellFormed.addEdge (hkeeps hhas) p.owner.kind_ne_terminal hfree' hw t.group?_kind,
        forall₂_notes_mono hkeeps' (forall₂_notes_mono hkeeps h.claims),
        forall₂_notes_mono hkeeps' hfeeds, fun i name hi => ?_, ?_, fun i group hi => ?_⟩
      · rw [Has, hlabels] at hi
        exact h.joins_of_gains ht hg hi
      · rw [edges_addEdge, drawn_concat, hdraws]
        refine List.rel_append (forall₂_draws_mono hkeeps' hedges) (.cons ?_ .nil)
        exact ⟨rfl, congrArg Start.span h.owner, hkeeps' (hkeeps hhas), t, ht, hkeeps' hw⟩
      · rw [Has, hlabels] at hi
        rw [edges_addEdge, List.map_append]
        rcases h.roots_of_gains hg hi with hmem | hmem
        · exact List.mem_append_left _ hmem
        · rw [hsource] at hmem
          cases hmem
          exact List.mem_append_right _ (List.mem_singleton_self _)

end Arrival

/-- A run that arrives nowhere leaves a problem and nothing else. -/
theorem Underway.dangle (h : Underway ps p run d) (ht : p.target = none)
    (hroot : ∀ group, p.owner ≠ .group group) (problem : Diagnostic α) :
    Stitched (ps ++ [p]) (d.note problem) := by
  have hfeeds : (ps ++ [p]).filterMap Passage.feed? = ps.filterMap Passage.feed? := by
    rw [List.filterMap_append, List.filterMap_cons_none (Passage.feed?_of_none ht),
      List.filterMap_nil, List.append_nil]
  refine ⟨h.wellFormed, h.claims, ?_, ?_, ?_, fun i group hi => ?_⟩
  · rw [hfeeds]
    exact h.feeds
  · rw [hfeeds]
    exact h.joins
  · have hdraws : p.draws (ps.filterMap Passage.claim?) = false := by
      rw [Passage.draws, ht]
      rfl
    rw [drawn_concat, hdraws, if_neg Bool.false_ne_true, List.append_nil]
    exact h.edges
  · rcases h.roots i group hi with hmem | hmem
    · exact hmem
    · obtain ⟨hhas, -⟩ := h.source i hmem
      have hkind := h.wellFormed.labelled.unique hhas hi
      cases howner : p.owner with
      | group group' => exact absurd howner (hroot group')
      | join ref =>
          rw [howner] at hkind
          cases hkind

/-- What one passage preserves. -/
theorem Stitched.addPassage (h : Stitched ps d)
    (hroot : ∀ group, p.owner = .group group → p.target ≠ none) :
    Stitched (ps ++ [p]) (d.addPassage p) := by
  have hunder := h.setOut p
  rw [Draft.addPassage, Draft.ride]
  cases ht : p.target with
  | none => exact hunder.dangle ht (fun group howner => hroot group howner ht) _
  | some t =>
      cases t with
      | done span =>
          have hfeed := Passage.feed?_of_done ht
          have hgains : (d.setOut p.owner).2.graph.Gains terminalId (Finish.done span).kind
              ((d.setOut p.owner).2.graph.meetTerminal span) :=
            hunder.wellFormed.gains_meetTerminal span
          refine hunder.draw ht hgains ?_
          rw [List.filterMap_append, List.filterMap_cons_none hfeed, List.filterMap_nil,
            List.append_nil]
          exact forall₂_notes_mono (fun hi => hgains.has.2 (.inl hi)) hunder.feeds
      | join ref =>
          have hfeed := Passage.feed?_eq_some_iff.2 ht
          have hgains := hunder.wellFormed.gains_joinVertex ref
          refine hunder.draw ht hgains ?_
          rw [List.filterMap_append, List.filterMap_cons_some hfeed, List.filterMap_nil]
          refine List.rel_append ?_ (.cons ⟨hgains.has.2 (.inr ⟨rfl, rfl⟩), rfl⟩ .nil)
          exact forall₂_notes_mono (fun hi => hgains.has.2 (.inl hi)) hunder.feeds

end Steps

-- ================================================================ runs

section Runs

variable [DecidableEq α] {ps : List (Passage α)} {d : Draft α}

/-- A draft of no passages has nothing in it but the terminal. -/
theorem Stitched.empty : Stitched [] ({} : Draft α) where
  wellFormed := .empty
  claims := .nil
  feeds := .nil
  joins := fun _ _ hi => nomatch List.mem_singleton.1 hi
  edges := .nil
  roots := fun _ _ hi => nomatch List.mem_singleton.1 hi

/-- What a run over passages preserves. -/
theorem Stitched.foldl_addPassage (h : Stitched ps d) {qs : List (Passage α)}
    (hroots : ∀ p ∈ qs, ∀ group, p.owner = .group group → p.target ≠ none) :
    Stitched (ps ++ qs) (qs.foldl Draft.addPassage d) := by
  induction qs generalizing ps d with
  | nil =>
      rw [List.append_nil]
      exact h
  | cons p qs ih =>
      rw [List.forall_mem_cons] at hroots
      have hstep := ih (h.addPassage hroots.1) hroots.2
      rwa [List.append_assoc] at hstep

/-- A problem that is noted touches nothing else. -/
theorem Stitched.note (h : Stitched ps d) (problem : Diagnostic α) :
    Stitched ps (d.note problem) := by
  obtain ⟨hwell, hclaims, hfeeds, hjoins, hedges, hroots⟩ := h
  exact ⟨hwell, hclaims, hfeeds, hjoins, hedges, hroots⟩

/-- What one fragment preserves. -/
theorem Stitched.add {fs : List (Fragment α)} (h : Stitched (passagesOf fs) d) (f : Fragment α) :
    Stitched (passagesOf (fs ++ [f])) (d.add f) := by
  cases hf : f.isFollowed with
  | true =>
      have hpassages : passagesOf (fs ++ [f]) = passagesOf fs ++ f.passages := by
        simp [passagesOf, hf]
      rw [hpassages, Draft.add_eq d hf]
      exact h.foldl_addPassage fun p hp group howner =>
        Fragment.target_ne_none_of_owner hf hp howner
  | false =>
      have hpassages : passagesOf (fs ++ [f]) = passagesOf fs := by
        simp [passagesOf, hf]
      rw [hpassages]
      cases hstart : f.start with
      | group g =>
          rw [Draft.add_of_orphan d hstart hf]
          exact h.note _
      | join ref =>
          rw [Draft.add_of_mention d hstart hf]
          exact h

/-- The draft that fragments leave behind. -/
theorem stitched_foldl_add (fs : List (Fragment α)) :
    Stitched (passagesOf fs) (fs.foldl Draft.add {}) := by
  have hrun : ∀ (gs : List (Fragment α)) (d : Draft α), Stitched (passagesOf gs) d →
      Stitched (passagesOf (gs ++ fs)) (fs.foldl Draft.add d) := by
    induction fs with
    | nil =>
        intro gs d h
        rw [List.append_nil]
        exact h
    | cons f fs ih =>
        intro gs d h
        have hstep := ih (gs ++ [f]) (d.add f) (h.add f)
        rwa [List.append_assoc] at hstep
  exact hrun [] {} .empty

end Runs

end RecipeChart
