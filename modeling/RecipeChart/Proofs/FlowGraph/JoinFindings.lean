/-
The findings on joins, told from the rules. A join has its vertex from the
first mention on that claims or feeds it, in whatever role, so the table of
joins lists the names in the order of these mentions; a fragment that is
nothing but a name does not count. What is found on a join then compares
the claims of its name with the feeds: the first feed of a name that is
never claimed, the first claim of a name that is never fed, and the second
claim of a name that is claimed again.

A fragment is walked element by element here, and not by its passages: a
join in a body is the target of one passage and the owner of the next, and
to name it twice running adds nothing.
-/
import RecipeChart.Proofs.FlowGraph.Soundness

namespace RecipeChart

open FlowGraph

variable {α : Type}

-- ============================================================ mentions

/-- The joins that the fragment claims or feeds, as they stand in it. -/
def Fragment.uses (f : Fragment α) : List (JoinRef α) := if f.isMention then [] else f.mentions

/-- The joins that a fragment uses are those that it claims or feeds. -/
theorem Fragment.mem_uses {f : Fragment α} {ref : JoinRef α} :
    ref ∈ f.uses ↔ ref ∈ f.claims ∨ ref ∈ f.feeds := by
  unfold uses claims feeds mentions
  cases hmention : f.isMention with
  | true =>
      -- a name that stands alone has no body and no end
      simp only [isMention, Bool.and_eq_true, List.isEmpty_iff, Option.isNone_iff_eq_none]
        at hmention
      simp [inner, hmention.1.2, hmention.2]
  | false =>
      simp only [Bool.false_eq_true, if_false, List.mem_append]
      tauto

/-- A fragment that is not followed uses none. -/
theorem Fragment.uses_of_not_followed {f : Fragment α} (h : f.isFollowed = false) :
    f.uses = [] := by
  rw [List.eq_nil_iff_forall_not_mem]
  intro ref href
  rcases mem_uses.1 href with href | href
  · rw [claims_of_not_followed h] at href
    cases href
  · rw [feeds_of_not_followed h] at href
    cases href

/-- A fragment that is followed uses its start, the joins in its body, and
its end. -/
theorem Fragment.uses_of_followed {f : Fragment α} (h : f.isFollowed = true) :
    f.uses = f.start.join?.toList ++ f.inner ++ (f.finish.bind Finish.join?).toList := by
  rw [uses, isMention_eq, h, Bool.not_true, Bool.and_false, if_neg Bool.false_ne_true, mentions]

variable [DecidableEq α]

namespace FlowGraph

/-- A join that is mentioned is listed, once. -/
theorem names_joinVertex {g : FlowGraph α} (ref : JoinRef α) {names : List α}
    (h : g.joins.map Prod.fst = unique names) :
    (g.joinVertex ref).2.joins.map Prod.fst = unique (names ++ [ref.name]) := by
  have hlisted : ref.name ∈ names ↔ g.join? ref.name ≠ none := by
    rw [← mem_unique, ← h, join?, ne_eq, List.lookup_eq_none_iff]
    simp
  rw [unique_concat, joinVertex]
  cases hjoin : g.join? ref.name with
  | some i =>
      rw [if_pos (hlisted.2 (by rw [hjoin]; exact Option.some_ne_none i))]
      exact h
  | none =>
      rw [if_neg fun hmem => hlisted.1 hmem hjoin]
      simp only [List.map_append, List.map_cons, List.map_nil, h]

end FlowGraph

-- ============================================================== drafts

namespace Draft

variable {d : Draft α} {names : List α}

/-- Are the joins those of the names, in the order in which they are named
first? -/
def Named (d : Draft α) (names : List α) : Prop := d.graph.joins.map Prod.fst = unique names

/-- A claim names its join. -/
theorem Named.claim (h : d.Named names) (ref : JoinRef α) :
    (d.claim ref).2.Named (names ++ [ref.name]) := names_joinVertex ref h

/-- An edge names none. -/
theorem Named.draw (h : d.Named names) (run : Run α) (w : Int) : (d.draw run w).Named names := by
  unfold Draft.draw
  cases run.source with
  | none => exact h
  | some source =>
      rw [Named, joins_addEdge]
      exact h

/-- A feed names its join. -/
theorem Named.feed (h : d.Named names) (run : Run α) (ref : JoinRef α) :
    (d.feed run ref).Named (names ++ [ref.name]) := by
  have hvertex : Named { d with
      graph := (d.graph.joinVertex ref).2
      feeds := d.feeds ++ [((d.graph.joinVertex ref).1, ref.span)] } (names ++ [ref.name]) :=
    names_joinVertex ref h
  exact hvertex.draw run _

/-- A start names its join, if it is one. -/
theorem Named.setOut (h : d.Named names) (s : Start α) :
    (d.setOut s).2.Named (names ++ s.join?.toList.map (·.name)) := by
  cases s with
  | group g =>
      rw [Start.join?, Option.toList_none, List.map_nil, List.append_nil]
      exact h
  | join ref => exact h.claim ref

/-- What one element of a body adds. -/
theorem Named.pass (h : d.Named names) (run : Run α) (x : Element α) :
    (Draft.pass (run, d) x).2.Named (names ++ x.join?.toList.map (·.name)) := by
  cases x with
  | step s =>
      rw [Element.join?, Option.toList_none, List.map_nil, List.append_nil]
      exact h
  | join ref =>
      have htwice := (h.feed run ref).claim ref
      rw [Named, unique_concat, if_pos (List.mem_append_right _ (List.mem_singleton_self _))]
        at htwice
      exact htwice

/-- What a whole body adds. -/
theorem Named.foldl_pass (h : d.Named names) (run : Run α) (body : List (Element α)) :
    (body.foldl Draft.pass (run, d)).2.Named
      (names ++ (body.filterMap Element.join?).map (·.name)) := by
  induction body generalizing run d names with
  | nil =>
      rw [List.filterMap_nil, List.map_nil, List.append_nil]
      exact h
  | cons x body ih =>
      have hrest := ih (h.pass run x) (Draft.pass (run, d) x).1
      rw [List.append_assoc, ← List.map_append] at hrest
      rw [List.filterMap_cons, List.foldl_cons]
      cases hx : x.join? with
      | none => rwa [hx] at hrest
      | some ref => rwa [hx] at hrest

/-- An end names its join, if it is one. -/
theorem Named.arrive (h : d.Named names) (run : Run α) (finish : Option (Finish α)) :
    (Draft.arrive run d finish).Named
      (names ++ (finish.bind Finish.join?).toList.map (·.name)) := by
  match finish with
  | some (.join ref) => exact h.feed run ref
  | some (.done span) =>
      have hmet : Named { d with graph := d.graph.meetTerminal span } names := h
      rw [Option.bind_some, Finish.join?, Option.toList_none, List.map_nil, List.append_nil]
      exact hmet.draw run terminalId
  | none =>
      rw [Option.bind_none, Option.toList_none, List.map_nil, List.append_nil]
      exact h

/-- What one fragment adds. -/
theorem Named.add (h : d.Named names) (f : Fragment α) :
    (d.add f).Named (names ++ f.uses.map (·.name)) := by
  cases hf : f.isFollowed with
  | true =>
      have hbody := (h.setOut f.start).foldl_pass (d.setOut f.start).1 f.body
      have hall := hbody.arrive (f.body.foldl Draft.pass (d.setOut f.start)).1 f.finish
      rw [List.append_assoc, List.append_assoc, ← List.map_append, ← List.map_append,
        ← List.append_assoc] at hall
      rw [Fragment.uses_of_followed hf, add_eq_follow d hf]
      exact hall
  | false =>
      rw [Fragment.uses_of_not_followed hf, List.map_nil, List.append_nil]
      cases hstart : f.start with
      | group g =>
          rw [add_of_orphan d hstart hf]
          exact h
      | join ref =>
          rw [add_of_mention d hstart hf]
          exact h

/-- What all fragments add. -/
theorem Named.foldl_add (h : d.Named names) (fs : List (Fragment α)) :
    (fs.foldl Draft.add d).Named (names ++ (fs.flatMap Fragment.uses).map (·.name)) := by
  induction fs generalizing d names with
  | nil =>
      rw [List.flatMap_nil, List.map_nil, List.append_nil]
      exact h
  | cons f fs ih =>
      have hrest := ih (h.add f)
      rwa [List.append_assoc, ← List.map_append] at hrest

end Draft

-- ============================================================ findings

variable {fs : List (Fragment α)}

/-- The joins have their vertices in the order in which they are claimed or
fed first. -/
theorem joinNames_eq (fs : List (Fragment α)) :
    joinNames fs = unique ((fs.flatMap Fragment.uses).map (·.name)) := by
  have hempty : ({} : Draft α).Named [] := rfl
  exact hempty.foldl_add fs

/-- What there is to find on the join of this name. -/
def findingsOn (fs : List (Fragment α)) (name : α) : List (Diagnostic α) :=
  (if claimsOf fs name = [] then
      (feedsOf fs name).head?.toList.map fun ref => .missingContinuation name ref.span
    else [])
  ++ (if feedsOf fs name = [] then
      (claimsOf fs name).head?.toList.map fun ref => .unknownJoin name ref.span
    else [])
  ++ (claimsOf fs name)[1]?.toList.map fun ref => .duplicateContinuation name ref.span

/-- What the check of a join finds is told by its claims and feeds. -/
theorem joinProblems_eq_findingsOn (name : α) :
    Draft.joinProblems name ((claimsOf fs name).map (·.span)) ((feedsOf fs name).map (·.span))
      = findingsOn fs name := by
  unfold findingsOn
  match claimsOf fs name, feedsOf fs name with
  | [], [] => rfl
  | [], _ :: _ => rfl
  | [_], [] => rfl
  | [_], _ :: _ => rfl
  | _ :: _ :: _, [] => rfl
  | _ :: _ :: _, _ :: _ => rfl

/-- What there is to find on a join is found. -/
theorem mem_stitch_of_findingsOn {name : α} {finding : Diagnostic α}
    (h : finding ∈ findingsOn fs name) : finding ∈ (stitch fs).2 := by
  have hname : name ∈ joinNames fs := by
    rw [mem_joinNames]
    by_contra hnone
    rw [not_or, not_not, not_not] at hnone
    rw [findingsOn, hnone.1, hnone.2] at h
    cases h
  rw [stitch_problems, checkJoins_eq]
  refine List.mem_append_right _ (List.mem_flatMap.2 ⟨name, hname, ?_⟩)
  rwa [joinProblems_eq_findingsOn]

/-- Spans apart, there are three findings at most on a join, no two of them
of one kind. -/
theorem map_findingsOn_sublist (name : α) :
    ((findingsOn fs name).map Diagnostic.unplaced).Sublist
      [.missingContinuation name none, .unknownJoin name none,
        .duplicateContinuation name none] := by
  unfold findingsOn
  match claimsOf fs name, feedsOf fs name with
  | [], [] => simp
  | [], _ :: _ => simp [Diagnostic.unplaced]
  | [_], [] => simp [Diagnostic.unplaced]
  | [_], _ :: _ => simp
  | _ :: _ :: _, [] => simp [Diagnostic.unplaced]
  | _ :: _ :: _, _ :: _ => simp [Diagnostic.unplaced]

/-- The findings of the stitching: first the loose ends of the fragments,
and then what there is to find on each join that is claimed or fed, in the
order of the first claim or feed. No kind of finding comes twice for a
name. -/
theorem stitch_join_findings (fs : List (Fragment α)) :
    (stitch fs).2 = fs.flatMap Fragment.problems
        ++ (unique ((fs.flatMap Fragment.uses).map (·.name))).flatMap (findingsOn fs)
      ∧ (∀ finding ∈ fs.flatMap Fragment.problems, finding.isLooseEnd = true)
      ∧ (∀ f ∈ fs, ∀ ref, ref ∈ f.uses ↔ ref ∈ f.claims ∨ ref ∈ f.feeds)
      ∧ (((unique ((fs.flatMap Fragment.uses).map (·.name))).flatMap (findingsOn fs)).map
          Diagnostic.unplaced).Nodup := by
  refine ⟨?_, fun finding hfinding => ?_, fun f _ ref => Fragment.mem_uses, ?_⟩
  · rw [stitch_problems, checkJoins_eq, joinNames_eq]
    simp only [joinProblems_eq_findingsOn]
  · obtain ⟨f, -, hf⟩ := List.mem_flatMap.1 hfinding
    exact Fragment.isLooseEnd_of_mem_problems hf
  · rw [List.map_flatMap, List.nodup_flatMap]
    constructor
    · intro name _
      exact (List.Nodup.sublist (map_findingsOn_sublist name)) (by simp)
    · refine (nodup_unique _).imp fun {name name'} hne => ?_
      -- findings on two joins name two joins
      intro finding hfinding hfinding'
      have hmem := (map_findingsOn_sublist name).subset hfinding
      have hmem' := (map_findingsOn_sublist name').subset hfinding'
      simp only [List.mem_cons, List.not_mem_nil, or_false] at hmem hmem'
      rcases hmem with rfl | rfl | rfl <;> simp [hne] at hmem'

/-- A stock that two rules carry on from and none leads into, of which the
second leads into a soup, and salt that is only mentioned. -/
def potluck : List (Fragment String) :=
  [⟨.join ⟨"salt", none⟩, [], none⟩,
    ⟨.join ⟨"stock", some ⟨1, 1⟩⟩, [.step ⟨⟨"simmer", []⟩, none⟩], some (.done none)⟩,
    ⟨.join ⟨"stock", some ⟨2, 1⟩⟩, [.step ⟨⟨"strain", []⟩, none⟩],
      some (.join ⟨"soup", some ⟨2, 9⟩⟩)⟩]

/-- The second rule draws no edge and leads into the soup all the same. -/
example : (stitch potluck).2
    = [.unknownJoin "stock" (some ⟨1, 1⟩), .duplicateContinuation "stock" (some ⟨2, 1⟩),
      .missingContinuation "soup" (some ⟨2, 9⟩)] := by decide

end RecipeChart
