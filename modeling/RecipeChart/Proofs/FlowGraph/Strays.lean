/-
Ingredients that do not arrive. The analysis reports a root when what the
vertices record as their ways on never leads from it to the terminal, and
each of them has its cause among the findings. A way that is followed from
a root either runs into a loop, which is reported, or stops. It cannot stop
at a root, as every root has its edge, so it stops at a join that no edge
leaves. Either nobody claims the join, and then it misses its continuation,
or its first claim dangles: had it arrived anywhere, it would have drawn
the edge, whatever became of later claims.
-/
import RecipeChart.Proofs.FlowGraph.JoinFindings
import RecipeChart.Proofs.FlowGraph.LoopReports

namespace RecipeChart

open Relation RecipeChart.Digraph

variable {α : Type}

/-- Is it a finding on ingredients that do not arrive? -/
def Diagnostic.isDisconnected : Diagnostic α → Bool
  | .disconnected .. => true
  | _ => false

namespace FlowGraph

variable {g : FlowGraph α} {i j : Int} {kind : VertexKind α}

-- ================================================================ ways

/-- Does one come from the first vertex to the second, going on as the
vertices record it? -/
def Reaches (g : FlowGraph α) : Int → Int → Prop :=
  ReflTransGen fun i j => g.successor i = .ok (some j)

/-- What the vertices record leads where the arrows lead. -/
theorem WellFormed.reaches_iff (h : g.WellFormed) (hi : g.Has i kind) :
    g.Reaches i j ↔ ReflTransGen g.digraph.Arrow i j := by
  constructor
  · intro hreaches
    induction hreaches with
    | refl => exact .refl
    | tail _ hnext ih =>
        obtain ⟨kind', hkind⟩ := h.exists_has_of_path hi ih
        exact ih.tail ((h.successor_eq_some_iff hkind).1 hnext)
  · intro hpath
    induction hpath with
    | refl => exact .refl
    | tail hpath harrow ih =>
        obtain ⟨kind', hkind⟩ := h.exists_has_of_path hi hpath
        exact ReflTransGen.tail ih ((h.successor_eq_some_iff hkind).2 harrow)

-- ============================================================= findings

/-- Root by root there is a finding on those from which no way leads to the
terminal. -/
theorem exists_strays (g : FlowGraph α) :
    ∃ strays : List (Vertex α), strays.Sublist g.roots
      ∧ (∀ v ∈ g.roots, v ∈ strays ↔ ¬ ReflTransGen g.digraph.Arrow v.id terminalId)
      ∧ List.Forall₂ (fun finding v => ∃ group, v.kind = .root group
        ∧ finding = .disconnected group v.span) g.disconnected strays := by
  refine ⟨g.roots.filter (·.id ∉ g.digraph.reachBack terminalId), List.filter_sublist,
    fun v hv => ?_, ?_⟩
  · rw [List.mem_filter, decide_eq_true_eq, mem_reachBack]
    exact and_iff_right hv
  · rw [roots, List.filter_filter]
    refine (forall₂_filterMap fun v _ => ?_).imp fun finding v hfinding => ?_
    · cases v.kind with
      | terminal => exact (Bool.and_false _).symm
      | join name => exact (Bool.and_false _).symm
      | root group =>
          by_cases harrives : v.id ∈ g.digraph.reachBack terminalId
          · simp [harrives, VertexKind.group?]
          · simp [harrives, VertexKind.group?]
    · cases hkind : v.kind with
      | terminal =>
          rw [hkind] at hfinding
          cases hfinding
      | join name =>
          rw [hkind] at hfinding
          cases hfinding
      | root group =>
          rw [hkind] at hfinding
          dsimp only at hfinding
          split at hfinding
          · cases hfinding
          · cases hfinding
            exact ⟨group, rfl, rfl⟩

/-- The findings on ingredients among all that an analysis finds. -/
theorem WellFormed.filter_isDisconnected_of_analyze [DecidableEq α] (h : g.WellFormed)
    {earlier : List (Diagnostic α)} {a : Analysis α} (ha : g.analyze earlier = .ok a) :
    a.diagnostics.filter Diagnostic.isDisconnected = g.disconnected := by
  obtain ⟨loops, empty, hloops, hempty, hdiagnostics⟩ := findings_of_analyze ha
  have hcycles : loops.filter Diagnostic.isDisconnected = [] := by
    rw [List.filter_eq_nil_iff]
    intro finding hfinding
    have hcycle := (h.tells_of_cycles hloops).1 finding hfinding
    cases finding with
    | cycle name loop span => exact Bool.false_ne_true
    | _ => cases hcycle
  have hemptiness : empty.filter Diagnostic.isDisconnected = [] := by
    rcases emptiness_cases hempty with rfl | rfl <;> rfl
  obtain ⟨strays, -, -, hstrays⟩ := exists_strays g
  rw [hdiagnostics, List.filter_append, List.filter_append, hcycles, hemptiness, List.nil_append,
    List.append_nil, List.filter_eq_self]
  intro finding hfinding
  obtain ⟨v, -, group, -, rfl⟩ := counterpart_of_mem_left hstrays hfinding
  rfl

-- =============================================================== causes

/-- What keeps the chain from the vertex from arriving is among the
findings. -/
inductive Hindered [DecidableEq α] (g : FlowGraph α) (found : List (Diagnostic α)) (v : Int) :
    Prop where
  /-- The chain runs into a loop that is reported. -/
  | loop {c : Cycle Int} {i start : Int} {finding : Diagnostic α} (hround : g.digraph.IsRound c)
      (hi : i ∈ c) (hreaches : g.Reaches v i) (htells : g.Tells start c finding)
      (hfound : finding ∈ found) : Hindered g found v
  /-- The chain stops at a join that misses its continuation. -/
  | missing {name : α} {i : Int} {span : Option Span} (hi : g.join? name = some i)
      (hreaches : g.Reaches v i) (hstops : g.successor i = .ok none)
      (hfound : .missingContinuation name span ∈ found) : Hindered g found v
  /-- The chain stops at a join from which steps dangle. -/
  | dangling {ref : JoinRef α} {i : Int} {actions : List (Action α)} {span : Option Span}
      (hi : g.join? ref.name = some i) (hreaches : g.Reaches v i)
      (hstops : g.successor i = .ok none) (hfound : .dangling (.join ref) actions span ∈ found) :
      Hindered g found v

/-- A chain that runs into a loop is hindered by it. -/
theorem WellFormed.hindered_of_round [DecidableEq α] (h : g.WellFormed) (hi : g.Has i kind)
    (hkind : kind ≠ .terminal) {c : Cycle Int} (hround : g.digraph.IsRound c) (hj : j ∈ c)
    (hpath : ReflTransGen g.digraph.Arrow i j) {earlier problems : List (Diagnostic α)}
    {a : Analysis α} (ha : g.analyze earlier = .ok a) :
    g.Hindered (problems ++ a.diagnostics) i := by
  obtain ⟨loops, empty, hloops, -, hdiagnostics⟩ := findings_of_analyze ha
  have hstart : i ∈ g.starts := mem_starts_iff.2 ⟨kind, hi, hkind⟩
  obtain ⟨finding, hfinding, start, htells⟩ :=
    (h.tells_of_cycles hloops).2 c hround ⟨i, hstart, j, hj, hpath⟩
  refine .loop hround hj ((h.reaches_iff hi).2 hpath) htells (List.mem_append_right _ ?_)
  rw [hdiagnostics]
  exact List.mem_append_left _ (List.mem_append_left _ hfinding)

end FlowGraph

open FlowGraph

variable [DecidableEq α] {fs : List (Fragment α)}

/-- Where a join is claimed, some passage is the first to carry on from
it. -/
theorem exists_first_claim {name : α} (h : claimsOf fs name ≠ []) :
    ∃ before p after ref, passagesOf fs = before ++ p :: after ∧ p.claim? = some ref
      ∧ ref.name = name ∧ ∀ earlier ∈ before.filterMap Passage.claim?, earlier.name ≠ name := by
  obtain ⟨ref, href⟩ := List.exists_mem_of_ne_nil _ h
  rw [claimsOf, ← filterMap_claim?_passagesOf, List.mem_filter, List.mem_filterMap] at href
  obtain ⟨⟨q, hq, hclaim⟩, hname⟩ := href
  have hfound : ((passagesOf fs).find? fun p => p.claim?.any (·.name = name)).isSome = true :=
    List.find?_isSome.2 ⟨q, hq, by rw [hclaim]; exact hname⟩
  obtain ⟨p, hp⟩ := Option.isSome_iff_exists.1 hfound
  obtain ⟨hcarries, before, after, hpassages, hbefore⟩ := List.find?_eq_some_iff_append.1 hp
  cases hfirst : p.claim? with
  | none =>
      rw [hfirst] at hcarries
      cases hcarries
  | some first =>
      rw [hfirst, Option.any_some, decide_eq_true_eq] at hcarries
      refine ⟨before, p, after, first, hpassages, hfirst, hcarries, fun earlier hearlier => ?_⟩
      obtain ⟨r, hr, hclaimed⟩ := List.mem_filterMap.1 hearlier
      have hnot := hbefore r hr
      rw [hclaimed] at hnot
      simpa using hnot

/-- A join that is claimed and has no edge is claimed first by steps that
dangle. -/
theorem exists_dangling {i : Int} {name : α} (hi : (graphOf fs).Has i (.join name))
    (hclaims : claimsOf fs name ≠ []) (hstops : ∀ j, ¬ (graphOf fs).digraph.Arrow i j) :
    ∃ ref actions span, ref.name = name ∧ .dangling (.join ref) actions span ∈ (stitch fs).2 := by
  obtain ⟨before, p, after, ref, hpassages, hclaim, hname, hfirst⟩ := exists_first_claim hclaims
  have hp : p ∈ passagesOf fs := by
    rw [hpassages]
    exact List.mem_append_right _ List.mem_cons_self
  have howner := Passage.claim?_eq_some_iff.1 hclaim
  have htarget : p.target = none := by
    by_contra hsome
    -- the first claim of a join draws its edge
    have hdraws : p.draws (before.filterMap Passage.claim?) = true := by
      rw [Passage.draws, Option.isSome_iff_ne_none.2 hsome, Bool.true_and, hclaim,
        Option.all_some, List.all_eq_true]
      exact fun earlier hearlier => decide_eq_true (hname ▸ hfirst earlier hearlier)
    have hdrawn : p ∈ drawn (before ++ p :: after) := mem_drawn_of_draws hdraws
    rw [← hpassages] at hdrawn
    obtain ⟨e, he, hedge⟩ := counterpart_of_mem_right (stitched_draftOf fs).edges hdrawn
    have hsource := hedge.source
    rw [howner, Start.kind, hname] at hsource
    have hleaves : e.source = i := (wellFormed_graphOf fs).labelled.unique_join hsource hi
    exact hstops e.target (arrow_iff.2 ⟨e, he, hleaves, rfl⟩)
  have hreported := mem_stitch_of_dangling hp htarget
  rw [howner] at hreported
  exact ⟨ref, p.actions, _, hname, hreported⟩

/-- A join that is never claimed misses its continuation. -/
theorem exists_missing {i : Int} {name : α} (hi : (graphOf fs).Has i (.join name))
    (hclaims : claimsOf fs name = []) :
    ∃ span, .missingContinuation name span ∈ (stitch fs).2 := by
  have hfeeds : feedsOf fs name ≠ [] := by
    rcases has_join_iff.1 ⟨i, hi⟩ with hne | hne
    · exact absurd hclaims hne
    · exact hne
  obtain ⟨ref, refs, hfeeds⟩ := List.exists_cons_of_ne_nil hfeeds
  have hfinding : .missingContinuation name ref.span ∈ findingsOn fs name := by
    rw [findingsOn, hclaims, hfeeds]
    exact List.mem_append_left _ (List.mem_append_left _ (List.mem_singleton_self _))
  exact ⟨ref.span, mem_stitch_of_findingsOn hfinding⟩

/-- A root from which no way leads to the terminal is hindered. -/
theorem hindered_of_stray {v : Vertex α} (hv : v ∈ (graphOf fs).roots)
    (hstray : ¬ ReflTransGen (graphOf fs).digraph.Arrow v.id terminalId)
    {earlier : List (Diagnostic α)} {a : Analysis α} (ha : (graphOf fs).analyze earlier = .ok a) :
    (graphOf fs).Hindered ((stitch fs).2 ++ a.diagnostics) v.id := by
  have hwell := wellFormed_graphOf fs
  obtain ⟨hv, group, hroot⟩ := mem_roots_iff.1 hv
  have hi := has_of_mem hv
  rw [hroot] at hi
  rcases loopFrom?_spec hwell.single_digraph v.id with
    ⟨-, stop, hpath, hend⟩ | ⟨j, around, -, hpath, hround⟩
  -- A way that ends does so at a join, and there is a finding on each such join.
  · obtain ⟨kind, hstop⟩ := hwell.exists_has_of_path hi hpath
    have hreaches := (hwell.reaches_iff hi).2 hpath
    have hstops : (graphOf fs).successor stop = .ok none := by
      rcases hwell.successor_cases hstop with ⟨hnone, -⟩ | ⟨j, -, harrow⟩
      · exact hnone
      · exact absurd harrow (hend j)
    cases kind with
    | terminal =>
        rw [hwell.labelled.has_terminal_iff.1 hstop] at hpath
        exact absurd hpath hstray
    | root group' =>
        obtain ⟨e, he, hsource⟩ := List.mem_map.1 ((stitched_draftOf fs).roots _ _ hstop)
        exact absurd (arrow_iff.2 ⟨e, he, hsource, rfl⟩) (hend e.target)
    | join name =>
        by_cases hclaims : claimsOf fs name = []
        · obtain ⟨span, hmissing⟩ := exists_missing hstop hclaims
          exact .missing (hwell.labelled.join?_eq_some_iff.2 hstop) hreaches hstops
            (List.mem_append_left _ hmissing)
        · obtain ⟨ref, actions, span, rfl, hdangling⟩ := exists_dangling hstop hclaims hend
          exact .dangling (hwell.labelled.join?_eq_some_iff.2 hstop) hreaches hstops
            (List.mem_append_left _ hdangling)
  · exact hwell.hindered_of_round hi VertexKind.root_ne_terminal hround
      (Cycle.mem_coe_iff.2 List.mem_cons_self) hpath ha

/-- In the graph of any fragments the ingredients that are found not to
arrive are the roots from which what the vertices record never leads to the
terminal, in the order of the roots, and what hinders each of them is among
all that is found. -/
theorem analyze_tells_strays (fs : List (Fragment α)) :
    (∃ a, (stitch fs).1.analyze (stitch fs).2 = .ok a)
      ∧ ∀ earlier a, (stitch fs).1.analyze earlier = .ok a →
        ∃ strays : List (Vertex α), strays.Sublist (stitch fs).1.roots
          ∧ (∀ v ∈ (stitch fs).1.roots,
            v ∈ strays ↔ ¬ (stitch fs).1.Reaches v.id terminalId)
          ∧ List.Forall₂ (fun finding v => ∃ group, v.kind = .root group
              ∧ finding = .disconnected group v.span)
            (a.diagnostics.filter Diagnostic.isDisconnected) strays
          ∧ ∀ v ∈ strays, (stitch fs).1.Hindered ((stitch fs).2 ++ a.diagnostics) v.id := by
  have hwell : (stitch fs).1.WellFormed := wellFormed_graphOf fs
  obtain ⟨a, ha, -⟩ := analyze_stitch fs
  refine ⟨⟨a, ha⟩, fun earlier a ha => ?_⟩
  obtain ⟨strays, hsub, hstrays, hfindings⟩ := exists_strays (stitch fs).1
  rw [hwell.filter_isDisconnected_of_analyze ha]
  refine ⟨strays, hsub, fun v hv => ?_, hfindings, fun v hv => ?_⟩
  · rw [hstrays v hv, hwell.reaches_iff (has_of_mem (mem_roots_iff.1 hv).1)]
  · exact hindered_of_stray (hsub.subset hv) ((hstrays v (hsub.subset hv)).1 hv) ha

/-- Tea that comes to a pot from which the first rule leads nowhere and the
second one to the end. -/
def cold : List (Fragment String) :=
  [⟨.group ⟨[⟨"tea", none⟩], none⟩, [.step ⟨⟨"steep", []⟩, none⟩], some (.join ⟨"pot", none⟩)⟩,
    ⟨.join ⟨"pot", none⟩, [.step ⟨⟨"cool", []⟩, none⟩], none⟩,
    ⟨.join ⟨"pot", none⟩, [.step ⟨⟨"pour", []⟩, none⟩], some (.done none)⟩]

/-- The second rule draws no edge, so what dangles keeps the tea from
arriving. -/
example : (stitch cold).2
      = [.dangling (.join ⟨"pot", none⟩) [⟨"cool", []⟩] none, .duplicateContinuation "pot" none]
    ∧ (stitch cold).1.analyze (stitch cold).2
      = .ok { diagnostics := [.disconnected ⟨[⟨"tea", none⟩], none⟩ none, .emptyRecipe none] } := by
  decide +kernel

end RecipeChart
