/-
Fragments cut at their joins. A passage is what lies between two joins of
a rule as it is written: what it sets out from, its actions, and what it
arrives at. What is said of the stitching of fragments is said of their
passages, as a fragment that is followed is stitched one passage after
another, and the joins it claims and feeds are the owners and the targets
of its passages.

Two kinds of fragments are not followed: ingredients that reach nothing,
and a join that is only mentioned. Neither claims nor feeds a join.
-/
import RecipeChart.FlowGraph.Stitch

namespace RecipeChart

variable {α : Type}

-- ============================================================= mentions

/-- The join that a start mentions. -/
def Start.join? : Start α → Option (JoinRef α)
  | .join ref => some ref
  | .group _ => none

def Element.join? : Element α → Option (JoinRef α)
  | .join ref => some ref
  | .step _ => none

def Finish.join? : Finish α → Option (JoinRef α)
  | .join ref => some ref
  | .done _ => none

namespace Fragment

/-- Is the fragment nothing but the name of a join? -/
def isMention (f : Fragment α) : Bool := f.startsAtJoin && f.body.isEmpty && f.finish.isNone

/-- The joins inside the body. -/
def inner (f : Fragment α) : List (JoinRef α) := f.body.filterMap Element.join?

/-- The mentions that carry on from a join: at the start, unless the
fragment is nothing else, and inside the body. -/
def claims (f : Fragment α) : List (JoinRef α) :=
  (if f.isMention then [] else f.start.join?.toList) ++ f.inner

/-- The mentions that lead into a join: inside the body, and at the end. -/
def feeds (f : Fragment α) : List (JoinRef α) := f.inner ++ (f.finish.bind Finish.join?).toList

/-- The joins that the fragment mentions. -/
def mentions (f : Fragment α) : List (JoinRef α) :=
  f.start.join?.toList ++ f.inner ++ (f.finish.bind Finish.join?).toList

/-- A join that is claimed is mentioned. -/
theorem mem_mentions_of_claims {f : Fragment α} {ref : JoinRef α} (h : ref ∈ f.claims) :
    ref ∈ f.mentions := by
  refine List.mem_append_left _ ?_
  rcases List.mem_append.1 h with h | h
  · split at h
    · cases h
    · exact List.mem_append_left _ h
  · exact List.mem_append_right _ h

/-- A join that is fed is mentioned. -/
theorem mem_mentions_of_feeds {f : Fragment α} {ref : JoinRef α} (h : ref ∈ f.feeds) :
    ref ∈ f.mentions := by
  rw [mentions, List.append_assoc]
  exact List.mem_append_right _ h

end Fragment

-- ============================================================= passages

/-- A run of steps as it is written. -/
structure Passage (α : Type) where
  owner : Start α
  actions : List (Action α)
  target : Option (Finish α)
  deriving Repr, DecidableEq

namespace Passage

/-- The join that the passage carries on from. -/
def claim? (p : Passage α) : Option (JoinRef α) := p.owner.join?

/-- The join that the passage leads into. -/
def feed? (p : Passage α) : Option (JoinRef α) := p.target.bind Finish.join?

/-- A passage claims the join that it sets out from. -/
theorem claim?_eq_some_iff {p : Passage α} {ref : JoinRef α} :
    p.claim? = some ref ↔ p.owner = .join ref := by
  unfold claim?
  cases p.owner <;> simp [Start.join?]

/-- A passage that claims none sets out from ingredients. -/
theorem claim?_eq_none_iff {p : Passage α} : p.claim? = none ↔ ∃ g, p.owner = .group g := by
  unfold claim?
  cases p.owner <;> simp [Start.join?]

/-- A passage feeds the join that it arrives at. -/
theorem feed?_eq_some_iff {p : Passage α} {ref : JoinRef α} :
    p.feed? = some ref ↔ p.target = some (.join ref) := by
  unfold feed?
  cases p.target with
  | none => simp
  | some t => cases t <;> simp [Finish.join?]

theorem feed?_of_done {p : Passage α} {span : Option Span} (h : p.target = some (.done span)) :
    p.feed? = none := by
  rw [feed?, h]
  rfl

theorem feed?_of_none {p : Passage α} (h : p.target = none) : p.feed? = none := by
  rw [feed?, h]
  rfl

/-- The passages of a rule from some place in its body on, of which the
first has begun. -/
def cut (owner : Start α) (actions : List (Action α)) :
    List (Element α) → Option (Finish α) → List (Passage α)
  | [], finish => [⟨owner, actions, finish⟩]
  | .step s :: body, finish => cut owner (actions ++ [s.action]) body finish
  | .join ref :: body, finish =>
    ⟨owner, actions, some (.join ref)⟩ :: cut (.join ref) [] body finish

end Passage

/-- The passages of the fragment, in the order of its body. -/
def Fragment.passages (f : Fragment α) : List (Passage α) := Passage.cut f.start [] f.body f.finish

namespace Passage

section Cut

variable {owner : Start α} {actions : List (Action α)} {body : List (Element α)}
  {finish : Option (Finish α)}

/-- The joins that the passages of a rule claim are its start, if it is one,
and those inside its body. -/
theorem filterMap_claim?_cut :
    (cut owner actions body finish).filterMap claim?
      = owner.join?.toList ++ body.filterMap Element.join? := by
  induction body generalizing owner actions with
  | nil => cases owner <;> rfl
  | cons x body ih =>
      cases x with
      | step s => exact ih
      | join ref =>
          rw [cut, List.filterMap_cons, ih]
          cases owner <;> rfl

/-- The joins that the passages of a rule feed are those inside its body,
and its end, if it is one. -/
theorem filterMap_feed?_cut :
    (cut owner actions body finish).filterMap feed?
      = body.filterMap Element.join? ++ (finish.bind Finish.join?).toList := by
  induction body generalizing owner actions with
  | nil =>
      cases finish with
      | none => rfl
      | some x => cases x <;> rfl
  | cons x body ih =>
      cases x with
      | step s => exact ih
      | join ref => exact congrArg (ref :: ·) ih

/-- Only the first passage can start from the owner; the others carry on
from a join. How a rule is cut from some place on does not depend on what
was done before that place. -/
theorem cut_eq_cons (body : List (Element α)) (finish : Option (Finish α)) :
    ∃ taken target rest,
      (∀ owner actions, cut owner actions body finish = ⟨owner, actions ++ taken, target⟩ :: rest)
        ∧ ∀ p ∈ rest, ∃ ref, p.owner = .join ref := by
  induction body with
  | nil =>
      refine ⟨[], finish, [], fun owner actions => ?_, fun p hp => absurd hp List.not_mem_nil⟩
      rw [cut, List.append_nil]
  | cons x body ih =>
      obtain ⟨taken, target, rest, hcut, hrest⟩ := ih
      cases x with
      | step s =>
          refine ⟨s.action :: taken, target, rest, fun owner actions => ?_, hrest⟩
          rw [cut, hcut, List.append_assoc]
          rfl
      | join ref =>
          refine ⟨[], some (.join ref), cut (.join ref) [] body finish, fun owner actions => ?_,
            fun p hp => ?_⟩
          · rw [cut, List.append_nil]
          · rw [hcut] at hp
            rcases List.mem_cons.1 hp with rfl | hp
            · exact ⟨ref, rfl⟩
            · exact hrest p hp

/-- Only the last passage can arrive elsewhere than at a join: it arrives
where the rule does. -/
theorem cut_eq_concat :
    ∃ init p, cut owner actions body finish = init ++ [p] ∧ p.target = finish
      ∧ ∀ q ∈ init, ∃ ref, q.target = some (.join ref) := by
  induction body generalizing owner actions with
  | nil => exact ⟨[], _, rfl, rfl, fun q hq => absurd hq List.not_mem_nil⟩
  | cons x body ih =>
      cases x with
      | step s => exact ih
      | join ref =>
          obtain ⟨init, p, hcut, htarget, hinit⟩ := @ih (.join ref) []
          refine ⟨⟨owner, actions, some (.join ref)⟩ :: init, p, ?_, htarget, fun q hq => ?_⟩
          · rw [cut, hcut]
            rfl
          · rcases List.mem_cons.1 hq with rfl | hq
            · exact ⟨ref, rfl⟩
            · exact hinit q hq

/-- Where a join is in between, the first passage arrives at one. -/
theorem cut_of_join (h : body.all (!·.isJoin) = false) :
    ∃ taken ref rest,
      cut owner actions body finish = ⟨owner, actions ++ taken, some (.join ref)⟩ :: rest := by
  induction body generalizing actions with
  | nil => cases h
  | cons x body ih =>
      cases x with
      | step s =>
          obtain ⟨taken, ref, rest, hcut⟩ := @ih (actions ++ [s.action]) h
          refine ⟨s.action :: taken, ref, rest, ?_⟩
          rw [cut, hcut, List.append_assoc]
          rfl
      | join ref =>
          refine ⟨[], ref, cut (.join ref) [] body finish, ?_⟩
          rw [List.append_nil]
          rfl

end Cut

end Passage

-- ============================================================ fragments

namespace Fragment

/-- Is the fragment followed when it is stitched? -/
def isFollowed (f : Fragment α) : Bool :=
  match f.start with
  | .group _ => !Draft.isOpen f
  | .join _ => !Draft.isBare f

variable {f : Fragment α}

/-- A fragment is a mention if it starts at a join and is not followed. -/
theorem isMention_eq : f.isMention = (f.startsAtJoin && !f.isFollowed) := by
  unfold isMention isFollowed startsAtJoin Draft.isBare
  cases f.start with
  | group g => rfl
  | join ref => simp [Bool.and_comm]

/-- There are no joins inside a body of steps. -/
theorem inner_eq_nil_iff : f.inner = [] ↔ f.body.all (!·.isJoin) = true := by
  rw [inner, List.filterMap_eq_nil_iff, List.all_eq_true]
  refine forall₂_congr fun x _ => ?_
  cases x <;> simp [Element.join?, Element.isJoin]

/-- A fragment that is not followed is open from its start to its end. -/
theorem open_of_not_followed (h : f.isFollowed = false) : f.inner = [] ∧ f.finish = none := by
  rw [inner_eq_nil_iff]
  unfold isFollowed Draft.isOpen Draft.isBare at h
  cases hstart : f.start with
  | group g =>
      rw [hstart] at h
      simp only [Bool.not_eq_false', Bool.and_eq_true, Option.isNone_iff_eq_none] at h
      exact ⟨h.2, h.1⟩
  | join ref =>
      rw [hstart] at h
      simp only [Bool.not_eq_false', Bool.and_eq_true, Option.isNone_iff_eq_none,
        List.isEmpty_iff] at h
      rw [h.2]
      exact ⟨rfl, h.1⟩

/-- A fragment that arrives somewhere is followed. -/
theorem isFollowed_of_finish (h : f.finish ≠ none) : f.isFollowed = true := by
  cases hfollowed : f.isFollowed with
  | true => rfl
  | false => exact absurd (open_of_not_followed hfollowed).2 h

/-- A fragment that is followed claims the joins that its passages claim. -/
theorem claims_eq_passages (h : f.isFollowed = true) :
    f.claims = f.passages.filterMap Passage.claim? := by
  have hmention : f.isMention = false := by
    rw [isMention_eq, h]
    exact Bool.and_false _
  rw [claims, hmention, passages, Passage.filterMap_claim?_cut]
  rfl

/-- Every fragment feeds the joins that its passages feed. -/
theorem feeds_eq_passages : f.feeds = f.passages.filterMap Passage.feed? := by
  rw [passages, Passage.filterMap_feed?_cut]
  rfl

/-- A fragment that is not followed claims none. -/
theorem claims_of_not_followed (h : f.isFollowed = false) : f.claims = [] := by
  rw [claims, (open_of_not_followed h).1, List.append_nil, isMention_eq, h]
  unfold startsAtJoin
  cases f.start <;> rfl

/-- A fragment that is not followed feeds none. -/
theorem feeds_of_not_followed (h : f.isFollowed = false) : f.feeds = [] := by
  obtain ⟨hinner, hfinish⟩ := open_of_not_followed h
  rw [feeds, hinner, hfinish]
  rfl

/-- One passage arrives nowhere, or at the end, exactly when the fragment
does. -/
theorem exists_target_iff {x : Option (Finish α)} (hx : ∀ ref, x ≠ some (.join ref)) :
    (∃ p ∈ f.passages, p.target = x) ↔ f.finish = x := by
  obtain ⟨init, p, hcut, htarget, hinit⟩ := @Passage.cut_eq_concat α f.start [] f.body f.finish
  rw [← passages] at hcut
  constructor
  · intro ⟨q, hq, hqx⟩
    rw [hcut] at hq
    rcases List.mem_append.1 hq with hq | hq
    · obtain ⟨ref, href⟩ := hinit q hq
      exact absurd (hqx.symm.trans href) (hx ref)
    · rw [List.mem_singleton.1 hq] at hqx
      exact htarget.symm.trans hqx
  · intro hfinish
    refine ⟨p, ?_, htarget.trans hfinish⟩
    rw [hcut]
    exact List.mem_append_right init (List.mem_singleton_self p)

/-- Ingredients that are followed arrive somewhere. -/
theorem passages_of_group {g : Group α} (hstart : f.start = .group g) (h : f.isFollowed = true) :
    ∃ actions target rest, f.passages = ⟨.group g, actions, some target⟩ :: rest
      ∧ ∀ p ∈ rest, ∃ ref, p.owner = .join ref := by
  obtain ⟨taken, target, rest, hall, hrest⟩ := Passage.cut_eq_cons f.body f.finish
  have hcut := hall f.start []
  rw [← passages, hstart] at hcut
  cases target with
  | some target => exact ⟨_, target, rest, hcut, hrest⟩
  | none =>
      exfalso
      have hfinish : f.finish = none := by
        rw [← exists_target_iff (x := none) fun ref h => (nomatch h), hcut]
        exact ⟨_, List.mem_cons_self, rfl⟩
      simp only [isFollowed, hstart, Draft.isOpen, hfinish, Option.isNone_none, Bool.true_and,
        Bool.not_eq_true'] at h
      obtain ⟨taken', ref, rest', hcut'⟩ := @Passage.cut_of_join α f.start [] f.body f.finish h
      rw [← passages, hcut] at hcut'
      injection hcut' with hhead
      injection hhead with _ _ htarget
      cases htarget

/-- Only the first passage of a fragment sets out from ingredients. -/
theorem start_of_owner {p : Passage α} {g : Group α} (hp : p ∈ f.passages)
    (howner : p.owner = .group g) : f.start = .group g := by
  obtain ⟨taken, target, rest, hcut, hrest⟩ := Passage.cut_eq_cons f.body f.finish
  rw [passages, hcut] at hp
  rcases List.mem_cons.1 hp with rfl | hp
  · exact howner
  · obtain ⟨ref, href⟩ := hrest p hp
    rw [howner] at href
    cases href

/-- What sets out from ingredients and is followed arrives somewhere. -/
theorem target_ne_none_of_owner {p : Passage α} {g : Group α} (h : f.isFollowed = true)
    (hp : p ∈ f.passages) (howner : p.owner = .group g) : p.target ≠ none := by
  obtain ⟨actions, target, rest, hpassages, hrest⟩ :=
    passages_of_group (start_of_owner hp howner) h
  rw [hpassages] at hp
  rcases List.mem_cons.1 hp with rfl | hp
  · exact Option.some_ne_none target
  · obtain ⟨ref, href⟩ := hrest p hp
    rw [howner] at href
    cases href

end Fragment

/-- The passages of all fragments that are followed. -/
def passagesOf (fs : List (Fragment α)) : List (Passage α) :=
  (fs.filter Fragment.isFollowed).flatMap Fragment.passages

/-- The passages of fragments stand in the order of the fragments. -/
theorem passagesOf_append (fs fs' : List (Fragment α)) :
    passagesOf (fs ++ fs') = passagesOf fs ++ passagesOf fs' := by
  rw [passagesOf, List.filter_append, List.flatMap_append]
  rfl

/-- A fragment that is followed puts its passages first. -/
theorem passagesOf_cons_of_followed {f : Fragment α} (h : f.isFollowed = true)
    (fs : List (Fragment α)) : passagesOf (f :: fs) = f.passages ++ passagesOf fs := by
  unfold passagesOf
  rw [List.filter_cons_of_pos h, List.flatMap_cons]

/-- A fragment that is not followed adds no passage. -/
theorem passagesOf_cons_of_not_followed {f : Fragment α} (h : f.isFollowed = false)
    (fs : List (Fragment α)) : passagesOf (f :: fs) = passagesOf fs := by
  unfold passagesOf
  rw [List.filter_cons_of_neg (Bool.not_eq_true _ ▸ h)]

/-- The passages are those of the fragments that are followed. -/
theorem mem_passagesOf {fs : List (Fragment α)} {p : Passage α} :
    p ∈ passagesOf fs ↔ ∃ f ∈ fs, f.isFollowed = true ∧ p ∈ f.passages := by
  simp only [passagesOf, List.mem_flatMap, List.mem_filter, and_assoc]

/-- No passage of a fragment that is not followed arrives anywhere. -/
theorem target_eq_none_of_not_followed {f : Fragment α} {p : Passage α}
    (h : f.isFollowed = false) (hp : p ∈ f.passages) : p.target = none := by
  cases ht : p.target with
  | none => rfl
  | some t =>
      cases t with
      | done span =>
          have hfinish : f.finish = some (.done span) :=
            (f.exists_target_iff (x := some (.done span)) fun ref h => nomatch h).1 ⟨p, hp, ht⟩
          rw [(Fragment.open_of_not_followed h).2] at hfinish
          cases hfinish
      | join ref =>
          have hfeed : ref ∈ f.feeds := by
            rw [Fragment.feeds_eq_passages, List.mem_filterMap]
            exact ⟨p, hp, Passage.feed?_eq_some_iff.2 ht⟩
          rw [Fragment.feeds_of_not_followed h] at hfeed
          cases hfeed

/-- A passage that arrives somewhere is of a fragment that is followed. -/
theorem mem_passagesOf_of_mem {fs : List (Fragment α)} {f : Fragment α} {p : Passage α}
    (hf : f ∈ fs) (hp : p ∈ f.passages) (htarget : p.target.isSome = true) :
    p ∈ passagesOf fs := by
  refine mem_passagesOf.2 ⟨f, hf, ?_, hp⟩
  cases hfollowed : f.isFollowed with
  | true => rfl
  | false =>
      rw [target_eq_none_of_not_followed hfollowed hp] at htarget
      cases htarget

/-- The claims of the fragments are those of their passages. -/
theorem filterMap_claim?_passagesOf (fs : List (Fragment α)) :
    (passagesOf fs).filterMap Passage.claim? = fs.flatMap Fragment.claims := by
  induction fs with
  | nil => rfl
  | cons f fs ih =>
      rw [List.flatMap_cons]
      cases hf : f.isFollowed with
      | true =>
          rw [passagesOf_cons_of_followed hf, List.filterMap_append, ih,
            Fragment.claims_eq_passages hf]
      | false =>
          rw [passagesOf_cons_of_not_followed hf, ih, Fragment.claims_of_not_followed hf,
            List.nil_append]

/-- The joins that are fed are the targets of the passages. -/
theorem filterMap_feed?_passagesOf (fs : List (Fragment α)) :
    (passagesOf fs).filterMap Passage.feed? = fs.flatMap Fragment.feeds := by
  induction fs with
  | nil => rfl
  | cons f fs ih =>
      rw [List.flatMap_cons]
      cases hf : f.isFollowed with
      | true =>
          rw [passagesOf_cons_of_followed hf, List.filterMap_append, ih,
            Fragment.feeds_eq_passages]
      | false =>
          rw [passagesOf_cons_of_not_followed hf, ih, Fragment.feeds_of_not_followed hf,
            List.nil_append]

-- =========================================================== first claims

section Drawn

variable [DecidableEq α]

/-- Does the passage arrive somewhere, and carry on from no join that is
claimed before? -/
def Passage.draws (claimed : List (JoinRef α)) (p : Passage α) : Bool :=
  p.target.isSome && p.claim?.all fun ref => claimed.all fun earlier => earlier.name ≠ ref.name

/-- The passages that draw an edge, if so much was claimed before. -/
def drawnFrom (claimed : List (JoinRef α)) : List (Passage α) → List (Passage α)
  | [] => []
  | p :: ps => (if p.draws claimed then [p] else []) ++ drawnFrom (claimed ++ p.claim?.toList) ps

/-- The passages that draw an edge. -/
def drawn (ps : List (Passage α)) : List (Passage α) := drawnFrom [] ps

/-- What draws behind other passages draws behind what they claim. -/
theorem drawnFrom_append (claimed : List (JoinRef α)) (ps qs : List (Passage α)) :
    drawnFrom claimed (ps ++ qs)
      = drawnFrom claimed ps ++ drawnFrom (claimed ++ ps.filterMap Passage.claim?) qs := by
  induction ps generalizing claimed with
  | nil => simp [drawnFrom]
  | cons p ps ih =>
      rw [List.cons_append, drawnFrom, ih, drawnFrom, List.append_assoc]
      cases hclaim : p.claim? with
      | none => simp [hclaim]
      | some ref => simp [hclaim]

/-- A last passage draws its edge unless its owner is claimed before. -/
theorem drawn_concat (ps : List (Passage α)) (p : Passage α) :
    drawn (ps ++ [p])
      = drawn ps ++ if p.draws (ps.filterMap Passage.claim?) then [p] else [] := by
  rw [drawn, drawnFrom_append, List.nil_append, drawnFrom, drawnFrom, List.append_nil]
  rfl

/-- A passage that arrives somewhere draws an edge if it carries on from no
join that was claimed before. -/
theorem mem_drawn_of_draws {before after : List (Passage α)} {p : Passage α}
    (h : p.draws (before.filterMap Passage.claim?) = true) : p ∈ drawn (before ++ p :: after) := by
  rw [drawn, drawnFrom_append, List.nil_append, drawnFrom, if_pos h]
  exact List.mem_append_right _ (List.mem_append_left _ (List.mem_singleton_self p))

/-- A passage that draws is one of the passages. -/
theorem mem_of_mem_drawnFrom {claimed : List (JoinRef α)} {ps : List (Passage α)}
    {p : Passage α} (h : p ∈ drawnFrom claimed ps) : p ∈ ps := by
  induction ps generalizing claimed with
  | nil => exact h
  | cons q ps ih =>
      rw [drawnFrom] at h
      rcases List.mem_append.1 h with h | h
      · split at h
        · rw [List.mem_singleton.1 h]
          exact List.mem_cons_self
        · cases h
      · exact List.mem_cons_of_mem q (ih h)

/-- Where no join is claimed twice, every passage that arrives somewhere
draws. -/
theorem drawnFrom_eq_filter {claimed : List (JoinRef α)} {ps : List (Passage α)}
    (h : ((claimed ++ ps.filterMap Passage.claim?).map (·.name)).Nodup) :
    drawnFrom claimed ps = ps.filter (·.target.isSome) := by
  induction ps generalizing claimed with
  | nil => rfl
  | cons p ps ih =>
      cases hclaim : p.claim? with
      | none =>
          rw [List.filterMap_cons_none hclaim] at h
          rw [drawnFrom, hclaim, Option.toList_none, List.append_nil, ih h, List.filter_cons]
          simp only [Passage.draws, hclaim, Option.all_none, Bool.and_true]
          split <;> rfl
      | some ref =>
          rw [List.filterMap_cons_some hclaim] at h
          have hnew : ∀ earlier ∈ claimed, earlier.name ≠ ref.name := by
            intro earlier hearlier
            rw [List.map_append, List.nodup_append] at h
            exact h.2.2 _ (List.mem_map_of_mem hearlier) _ List.mem_cons_self
          have hmore : ((claimed ++ [ref] ++ ps.filterMap Passage.claim?).map (·.name)).Nodup := by
            rwa [List.append_assoc]
          have hall : (claimed.all fun earlier => decide (earlier.name ≠ ref.name)) = true := by
            rw [List.all_eq_true]
            exact fun earlier hearlier => decide_eq_true (hnew earlier hearlier)
          rw [drawnFrom, hclaim, Option.toList_some, ih hmore, List.filter_cons]
          simp only [Passage.draws, hclaim, Option.all_some, hall, Bool.and_true]
          split <;> rfl

/-- Where no join is claimed twice, all passages that arrive somewhere
draw an edge. -/
theorem drawn_eq_filter {ps : List (Passage α)}
    (h : ((ps.filterMap Passage.claim?).map (·.name)).Nodup) :
    drawn ps = ps.filter (·.target.isSome) :=
  drawnFrom_eq_filter h

end Drawn

end RecipeChart
