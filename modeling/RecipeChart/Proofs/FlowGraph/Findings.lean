/-
What stitching finds wrong. The findings on a fragment are those on its
passages, or the one on ingredients that reach nothing; the findings on a
join compare how often its name is claimed and fed by the fragments. So
nothing is found exactly when every fragment arrives somewhere, unless it
only mentions a join, and every join that is claimed or fed is claimed
once and fed.
-/
import RecipeChart.Proofs.FlowGraph.Stitching

namespace RecipeChart

open FlowGraph

variable {α : Type}

-- =========================================================== fragments

/-- The finding on a passage that arrives nowhere. -/
def Passage.problem? (p : Passage α) : Option (Diagnostic α) :=
  match p.target with
  | some _ => none
  | none => some (.dangling p.owner p.actions p.owner.span)

/-- The findings on a fragment. -/
def Fragment.problems (f : Fragment α) : List (Diagnostic α) :=
  if f.isFollowed then f.passages.filterMap Passage.problem?
  else match f.start with
    | .group g => [.orphan g g.span]
    | .join _ => []

/-- A fragment is free of findings when it arrives somewhere or only
mentions a join. -/
theorem Fragment.problems_eq_nil_iff {f : Fragment α} :
    f.problems = [] ↔ f.isMention = true ∨ f.finish ≠ none := by
  have hnone : (∃ p ∈ f.passages, p.target = none) ↔ f.finish = none :=
    f.exists_target_iff fun ref h => nomatch h
  rw [problems, isMention_eq]
  cases hf : f.isFollowed with
  | true =>
      simp only [if_true, Bool.not_true, Bool.and_false, Bool.false_eq_true, false_or]
      rw [List.filterMap_eq_nil_iff, ne_eq, ← hnone]
      constructor
      · intro hall ⟨p, hp, htarget⟩
        have hproblem := hall p hp
        rw [Passage.problem?, htarget] at hproblem
        cases hproblem
      · intro hall p hp
        unfold Passage.problem?
        split
        · rfl
        · rename_i htarget
          exact absurd ⟨p, hp, htarget⟩ hall
  | false =>
      have hfinish := (open_of_not_followed hf).2
      unfold startsAtJoin
      cases f.start with
      | group g => simp [hfinish]
      | join ref => simp

/-- Is the problem one of a single fragment, of whatever the others are? -/
def Diagnostic.isLooseEnd : Diagnostic α → Bool
  | .orphan .. => true
  | .dangling .. => true
  | _ => false

/-- Whatever is found on a fragment is a loose end. -/
theorem Fragment.isLooseEnd_of_mem_problems {f : Fragment α} {x : Diagnostic α}
    (hx : x ∈ f.problems) : x.isLooseEnd = true := by
  unfold problems at hx
  split at hx
  · obtain ⟨p, -, hp⟩ := List.mem_filterMap.1 hx
    unfold Passage.problem? at hp
    split at hp
    · cases hp
    · cases hp
      rfl
  · split at hx
    · rw [List.mem_singleton.1 hx]
      rfl
    · cases hx

section Stitch

variable [DecidableEq α] {fs : List (Fragment α)}

namespace Draft

/-- Setting out finds nothing. -/
theorem problems_setOut (d : Draft α) (s : Start α) : (d.setOut s).2.problems = d.problems := by
  cases s <;> rfl

omit [DecidableEq α] in
/-- Drawing an edge finds nothing. -/
theorem problems_draw (d : Draft α) (run : Run α) (w : Int) :
    (d.draw run w).problems = d.problems := by
  unfold draw
  cases run.source <;> rfl

/-- A passage adds its own finding, if there is one. -/
theorem problems_addPassage (d : Draft α) (p : Passage α) :
    (d.addPassage p).problems = d.problems ++ p.problem?.toList := by
  have howner : (d.setOut p.owner).1.owner = p.owner := by cases p.owner <;> rfl
  unfold addPassage ride arrive Passage.problem?
  cases htarget : p.target with
  | none => simp only [note, howner, problems_setOut, Option.toList_some]
  | some t =>
      cases t with
      | done span =>
          simp only [problems_draw, problems_setOut, Option.toList_none, List.append_nil]
      | join ref =>
          simp only [feed, problems_draw, problems_setOut, Option.toList_none, List.append_nil]

/-- A fragment adds its findings behind the others. -/
theorem problems_add (d : Draft α) (f : Fragment α) :
    (d.add f).problems = d.problems ++ f.problems := by
  cases hf : f.isFollowed with
  | true =>
      rw [add_eq d hf, Fragment.problems, hf, if_pos rfl]
      induction f.passages generalizing d with
      | nil => exact (List.append_nil _).symm
      | cons p ps ih =>
          rw [List.foldl_cons, ih, problems_addPassage, List.filterMap_cons, List.append_assoc]
          cases p.problem? <;> rfl
  | false =>
      rw [Fragment.problems, hf, if_neg Bool.false_ne_true]
      cases hstart : f.start with
      | group g =>
          rw [add_of_orphan d hstart hf]
          rfl
      | join ref =>
          rw [add_of_mention d hstart hf]
          exact (List.append_nil _).symm

/-- Fragments add their findings one after another. -/
theorem problems_foldl_add (d : Draft α) (fs : List (Fragment α)) :
    (fs.foldl add d).problems = d.problems ++ fs.flatMap Fragment.problems := by
  induction fs generalizing d with
  | nil => exact (List.append_nil _).symm
  | cons f fs ih =>
      rw [List.foldl_cons, ih, problems_add, List.append_assoc, List.flatMap_cons]

end Draft

-- =============================================================== joins

/-- The claims of the joins of this name. -/
def claimsOf (fs : List (Fragment α)) (name : α) : List (JoinRef α) :=
  (fs.flatMap Fragment.claims).filter (·.name = name)

def feedsOf (fs : List (Fragment α)) (name : α) : List (JoinRef α) :=
  (fs.flatMap Fragment.feeds).filter (·.name = name)

/-- A join that is claimed or fed is claimed once and fed. -/
def Matched (fs : List (Fragment α)) (name : α) : Prop :=
  claimsOf fs name ≠ [] ∨ feedsOf fs name ≠ [] →
    (claimsOf fs name).length = 1 ∧ feedsOf fs name ≠ []

omit [DecidableEq α] in
/-- Nothing is wrong with a join that is claimed once and fed, nor with one
that is neither. -/
theorem joinProblems_eq_nil_iff {name : α} {claims feeds : List (Option Span)} :
    Draft.joinProblems name claims feeds = []
      ↔ (claims ≠ [] ∨ feeds ≠ [] → claims.length = 1 ∧ feeds ≠ []) := by
  match claims, feeds with
  | [], [] => simp [Draft.joinProblems]
  | [], _ :: _ => simp [Draft.joinProblems]
  | [_], [] => simp [Draft.joinProblems]
  | [_], _ :: _ => simp [Draft.joinProblems]
  | _ :: _ :: _, feeds => simp [Draft.joinProblems]

/-- The draft of the fragments. -/
def draftOf (fs : List (Fragment α)) : Draft α := fs.foldl Draft.add {}

/-- The draft of fragments has stitched their passages. -/
theorem stitched_draftOf (fs : List (Fragment α)) : Stitched (passagesOf fs) (draftOf fs) :=
  stitched_foldl_add fs

abbrev graphOf (fs : List (Fragment α)) : FlowGraph α := (draftOf fs).graph

/-- The tables of a draft agree. -/
theorem wellFormed_graphOf (fs : List (Fragment α)) : (graphOf fs).WellFormed :=
  (stitched_draftOf fs).wellFormed

/-- The draft has noted every claim of a join, at its place. -/
theorem spansOf_claims {i : Int} {name : α} (hi : (draftOf fs).graph.Has i (.join name)) :
    spansOf i (draftOf fs).claims = (claimsOf fs name).map (·.span) := by
  have h := stitched_draftOf fs
  rw [spansOf_eq h.wellFormed.labelled h.claims hi, filterMap_claim?_passagesOf]
  rfl

/-- It has noted every feed of a join as well. -/
theorem spansOf_feeds {i : Int} {name : α} (hi : (draftOf fs).graph.Has i (.join name)) :
    spansOf i (draftOf fs).feeds = (feedsOf fs name).map (·.span) := by
  have h := stitched_draftOf fs
  rw [spansOf_eq h.wellFormed.labelled h.feeds hi, filterMap_feed?_passagesOf]
  rfl

/-- Joins that are claimed or fed have a vertex, and no other joins. -/
theorem has_join_iff {name : α} :
    (∃ i, (draftOf fs).graph.Has i (.join name))
      ↔ claimsOf fs name ≠ [] ∨ feedsOf fs name ≠ [] := by
  have h := stitched_draftOf fs
  simp only [claimsOf, feedsOf, ← filterMap_claim?_passagesOf, ← filterMap_feed?_passagesOf,
    ne_eq, List.filter_eq_nil_iff, decide_eq_true_eq, not_forall, not_not]
  constructor
  · intro ⟨i, hi⟩
    obtain ⟨ref, href, hname⟩ := h.joins i name hi
    rcases List.mem_append.1 href with href | href
    · exact .inl ⟨ref, href, hname⟩
    · exact .inr ⟨ref, href, hname⟩
  · intro hmention
    rcases hmention with ⟨ref, href, hname⟩ | ⟨ref, href, hname⟩
    · obtain ⟨entry, -, hnote⟩ := counterpart_of_mem_right h.claims href
      exact ⟨entry.1, hname ▸ hnote.1⟩
    · obtain ⟨entry, -, hnote⟩ := counterpart_of_mem_right h.feeds href
      exact ⟨entry.1, hname ▸ hnote.1⟩

/-- The names of the joins that have a vertex. -/
def joinNames (fs : List (Fragment α)) : List α := (graphOf fs).joins.map Prod.fst

/-- A vertex was made for every join that is claimed or fed, and for no
other. -/
theorem mem_joinNames {name : α} :
    name ∈ joinNames fs ↔ claimsOf fs name ≠ [] ∨ feedsOf fs name ≠ [] := by
  rw [← has_join_iff, joinNames, List.mem_map]
  constructor
  · intro ⟨⟨name', i⟩, hmem, hname⟩
    cases hname
    exact ⟨i, (wellFormed_graphOf fs).labelled.mem_joins_iff.1 hmem⟩
  · intro ⟨i, hi⟩
    exact ⟨(name, i), (wellFormed_graphOf fs).labelled.mem_joins_iff.2 hi, rfl⟩

/-- The problems of the joins, name by name. -/
theorem checkJoins_eq (fs : List (Fragment α)) :
    (draftOf fs).checkJoins = (joinNames fs).flatMap fun name =>
      Draft.joinProblems name ((claimsOf fs name).map (·.span))
        ((feedsOf fs name).map (·.span)) := by
  have hlabelled := (wellFormed_graphOf fs).labelled
  have hjoins : joinNames fs = (graphOf fs).vertices.flatMap fun v => v.kind.name?.toList := by
    rw [joinNames, hlabelled.joins, filterMap_joinLabel, List.map_filterMap,
      List.filterMap_eq_flatMap_toList]
    apply List.flatMap_congr
    intro v _
    cases v.kind <;> rfl
  rw [Draft.checkJoins, hjoins, List.flatMap_assoc]
  apply List.flatMap_congr
  intro v hv
  have hi := has_of_mem hv
  cases hkind : v.kind with
  | terminal => rfl
  | root group => rfl
  | join name =>
      rw [hkind] at hi
      show Draft.joinProblems name _ _ = [name].flatMap _
      rw [spansOf_claims hi, spansOf_feeds hi, List.flatMap_singleton]

/-- The check of the joins finds nothing exactly when all of them are
matched. -/
theorem checkJoins_eq_nil_iff : (draftOf fs).checkJoins = [] ↔ ∀ name, Matched fs name := by
  have hname : ∀ name, Draft.joinProblems name ((claimsOf fs name).map (·.span))
      ((feedsOf fs name).map (·.span)) = [] ↔ Matched fs name := by
    intro name
    rw [joinProblems_eq_nil_iff, Matched]
    simp only [List.map_eq_nil_iff, List.length_map, ne_eq]
  rw [checkJoins_eq, List.flatMap_eq_nil_iff]
  simp only [hname, mem_joinNames]
  constructor
  · intro hall name hmention
    exact hall name hmention hmention
  · intro hall name _
    exact hall name

/-- Every fragment arrives somewhere, unless it only mentions a join, and
the joins are matched. -/
structure Linked (fs : List (Fragment α)) : Prop where
  ends : ∀ f ∈ fs, f.isMention = true ∨ f.finish ≠ none
  matched : ∀ name, Matched fs name

/-- The problems of the fragments, and then those of the joins. -/
theorem stitch_problems (fs : List (Fragment α)) :
    (stitch fs).2 = fs.flatMap Fragment.problems ++ (draftOf fs).checkJoins := by
  rw [stitch, Draft.stitched, Draft.problems_foldl_add]
  rfl

/-- A passage that arrives nowhere is reported. -/
theorem mem_stitch_of_dangling {p : Passage α} (hp : p ∈ passagesOf fs)
    (htarget : p.target = none) : .dangling p.owner p.actions p.owner.span ∈ (stitch fs).2 := by
  obtain ⟨f, hf, hfollowed, hp⟩ := mem_passagesOf.1 hp
  rw [stitch_problems]
  refine List.mem_append_left _ (List.mem_flatMap.2 ⟨f, hf, ?_⟩)
  rw [Fragment.problems, if_pos hfollowed, List.mem_filterMap]
  refine ⟨p, hp, ?_⟩
  rw [Passage.problem?, htarget]

/-- When stitching finds nothing. -/
theorem stitch_problems_eq_nil_iff : (stitch fs).2 = [] ↔ Linked fs := by
  rw [stitch_problems, List.append_eq_nil_iff, checkJoins_eq_nil_iff, List.flatMap_eq_nil_iff]
  simp only [Fragment.problems_eq_nil_iff]
  exact ⟨fun h => ⟨h.1, h.2⟩, fun h => ⟨h.ends, h.matched⟩⟩

-- ============================================================== linked

/-- Where fragments are linked, every passage arrives somewhere. -/
theorem Linked.target_ne_none (h : Linked fs) {p : Passage α} (hp : p ∈ passagesOf fs) :
    p.target ≠ none := by
  obtain ⟨f, hf, hfollowed, hp⟩ := mem_passagesOf.1 hp
  intro htarget
  have hfinish : f.finish = none :=
    (f.exists_target_iff (x := none) fun ref hnone => nomatch hnone).1 ⟨p, hp, htarget⟩
  rcases h.ends f hf with hmention | hne
  · rw [Fragment.isMention_eq, hfollowed] at hmention
    simp at hmention
  · exact hne hfinish

/-- Where no name is claimed twice, no join is. -/
theorem nodup_claims (h : ∀ name, (claimsOf fs name).length ≤ 1) :
    (((passagesOf fs).filterMap Passage.claim?).map (·.name)).Nodup := by
  rw [filterMap_claim?_passagesOf, nodup_map_iff]
  exact h

/-- Where no join is claimed twice, every passage that arrives somewhere is
an edge, and nothing else is. -/
theorem forall₂_edges (h : ∀ name, (claimsOf fs name).length ≤ 1) :
    List.Forall₂ (Draws (draftOf fs).graph) (draftOf fs).graph.edges
      ((passagesOf fs).filter (·.target.isSome)) := by
  have hedges := (stitched_draftOf fs).edges
  rwa [drawn_eq_filter (nodup_claims h)] at hedges

/-- Where fragments are linked, no join is claimed twice. -/
theorem Linked.length_claims_le (h : Linked fs) (name : α) : (claimsOf fs name).length ≤ 1 := by
  by_cases hclaims : claimsOf fs name = []
  · rw [hclaims]
    exact Nat.zero_le 1
  · exact Nat.le_of_eq (h.matched name (.inl hclaims)).1

/-- Every passage of linked fragments is an edge, and nothing else is. -/
theorem Linked.edges (h : Linked fs) :
    List.Forall₂ (Draws (draftOf fs).graph) (draftOf fs).graph.edges (passagesOf fs) := by
  have hall : (passagesOf fs).filter (·.target.isSome) = passagesOf fs := by
    rw [List.filter_eq_self]
    intro p hp
    exact Option.isSome_iff_ne_none.2 (h.target_ne_none hp)
  have hedges := forall₂_edges h.length_claims_le
  rwa [hall] at hedges

end Stitch

end RecipeChart
