/-
Joins are transparent. A join that is put into the body of a rule, and is
mentioned nowhere else, cuts one passage in two: the one arrives at the
join, the other carries on from it. All that is said of the rules is said
of their passages, so both lists of rules are sound or neither is: the new
join is claimed once and fed once, and the ways lead through it. The flow
that arrives there is the only one, so it goes on as it is, and its actions
are those of the whole passage in their order. That leaves the tree as it
was, the order of its paths included.
-/
import RecipeChart.Proofs.StepTree.Gathering

namespace RecipeChart

open FlowGraph

variable {α : Type}

-- ============================================================== cutting

/-- Is one passage of the first list cut in two at the join in the
second? -/
def CutsAt (ref : JoinRef α) (ps ps' : List (Passage α)) : Prop :=
  ∃ pre post owner early late target, ps = pre ++ ⟨owner, early ++ late, target⟩ :: post
    ∧ ps' = pre ++ ⟨owner, early, some (.join ref)⟩ :: ⟨.join ref, late, target⟩ :: post

variable {ref : JoinRef α} {ps ps' : List (Passage α)}

/-- Passages before and after make no difference to a cut. -/
theorem CutsAt.frame (h : CutsAt ref ps ps') (before after : List (Passage α)) :
    CutsAt ref (before ++ (ps ++ after)) (before ++ (ps' ++ after)) := by
  obtain ⟨pre, post, owner, early, late, target, rfl, rfl⟩ := h
  refine ⟨before ++ pre, post ++ after, owner, early, late, target, ?_, ?_⟩
  · simp only [List.append_assoc, List.cons_append]
  · simp only [List.append_assoc, List.cons_append]

/-- A join in the body cuts the passage that it stands in. -/
theorem Passage.cutsAt_cut (ref : JoinRef α) (before after : List (Element α))
    (finish : Option (Finish α)) (owner : Start α) (actions : List (Action α)) :
    CutsAt ref (cut owner actions (before ++ after) finish)
      (cut owner actions (before ++ .join ref :: after) finish) := by
  induction before generalizing owner actions with
  | nil =>
      obtain ⟨taken, target, rest, hcut, -⟩ := cut_eq_cons after finish
      refine ⟨[], rest, owner, actions, taken, target, hcut owner actions, ?_⟩
      rw [List.nil_append, cut, hcut]
      rfl
  | cons x before ih =>
      cases x with
      | step s => exact ih owner (actions ++ [s.action])
      | join r =>
          have hrest := (ih (.join r) []).frame [⟨owner, actions, some (.join r)⟩] []
          rw [List.append_nil, List.append_nil] at hrest
          exact hrest

/-- A join in the body of a rule that arrives somewhere cuts one of the
passages. -/
theorem cutsAt_passagesOf (pre post : List (Fragment α)) (start : Start α)
    (before after : List (Element α)) {finish : Option (Finish α)} (ref : JoinRef α)
    (hfinish : finish ≠ none) :
    CutsAt ref (passagesOf (pre ++ ⟨start, before ++ after, finish⟩ :: post))
      (passagesOf (pre ++ ⟨start, before ++ .join ref :: after, finish⟩ :: post)) := by
  have hfollowed : ∀ body, (⟨start, body, finish⟩ : Fragment α).isFollowed = true :=
    fun body => Fragment.isFollowed_of_finish hfinish
  rw [passagesOf_append, passagesOf_append, passagesOf_cons_of_followed (hfollowed _),
    passagesOf_cons_of_followed (hfollowed _)]
  exact (Passage.cutsAt_cut ref before after finish start []).frame _ _

/-- The passages claim one join more. -/
theorem CutsAt.claims (h : CutsAt ref ps ps') :
    ∃ pre post, ps.filterMap Passage.claim? = pre ++ post
      ∧ ps'.filterMap Passage.claim? = pre ++ ref :: post := by
  obtain ⟨pre, post, owner, early, late, target, rfl, rfl⟩ := h
  refine ⟨pre.filterMap Passage.claim? ++ owner.join?.toList, post.filterMap Passage.claim?, ?_, ?_⟩
  · rw [List.filterMap_append, List.filterMap_cons, List.append_assoc]
    cases owner <;> rfl
  · rw [List.filterMap_append, List.filterMap_cons, List.append_assoc]
    cases owner <;> rfl

/-- The passages feed one join more. -/
theorem CutsAt.feeds (h : CutsAt ref ps ps') :
    ∃ pre post, ps.filterMap Passage.feed? = pre ++ post
      ∧ ps'.filterMap Passage.feed? = pre ++ ref :: post := by
  obtain ⟨pre, post, owner, early, late, target, rfl, rfl⟩ := h
  exact ⟨pre.filterMap Passage.feed?, _, List.filterMap_append, List.filterMap_append⟩

-- ============================================================ freshness

/-- Is no join of this name mentioned? -/
def Unmentioned (fs : List (Fragment α)) (name : α) : Prop :=
  ∀ f ∈ fs, ∀ r ∈ f.mentions, r.name ≠ name

variable {fs fs' : List (Fragment α)} {name : α} {p : Passage α}

/-- A join that is not mentioned is not claimed. -/
theorem Unmentioned.claims (h : Unmentioned fs name) :
    ∀ r ∈ (passagesOf fs).filterMap Passage.claim?, r.name ≠ name := by
  intro r hr
  rw [filterMap_claim?_passagesOf] at hr
  obtain ⟨f, hf, hr⟩ := List.mem_flatMap.1 hr
  exact h f hf r (Fragment.mem_mentions_of_claims hr)

/-- A join that is not mentioned is not fed. -/
theorem Unmentioned.feeds (h : Unmentioned fs name) :
    ∀ r ∈ (passagesOf fs).filterMap Passage.feed?, r.name ≠ name := by
  intro r hr
  rw [filterMap_feed?_passagesOf] at hr
  obtain ⟨f, hf, hr⟩ := List.mem_flatMap.1 hr
  exact h f hf r (Fragment.mem_mentions_of_feeds hr)

/-- No passage carries on from the join. -/
theorem Unmentioned.owner_ne (h : Unmentioned fs name) (hp : p ∈ passagesOf fs) {r : JoinRef α}
    (howner : p.owner = .join r) : r.name ≠ name :=
  h.claims r (List.mem_filterMap.2 ⟨p, hp, Passage.claim?_eq_some_iff.2 howner⟩)

/-- No passage arrives at the join. -/
theorem Unmentioned.target_ne (h : Unmentioned fs name) (hp : p ∈ passagesOf fs) {r : JoinRef α}
    (htarget : p.target = some (.join r)) : r.name ≠ name :=
  h.feeds r (List.mem_filterMap.2 ⟨p, hp, Passage.feed?_eq_some_iff.2 htarget⟩)

/-- No passage sets out from a join that is not mentioned. -/
theorem Unmentioned.owner_kind (h : Unmentioned fs name) (hp : p ∈ passagesOf fs) :
    p.owner.kind ≠ .join name := by
  cases howner : p.owner with
  | group g => exact fun heq => nomatch heq
  | join r =>
      intro heq
      injection heq with hname
      exact h.owner_ne hp howner hname

/-- No passage arrives at a join that is not mentioned. -/
theorem Unmentioned.target_kind (h : Unmentioned fs name) (hp : p ∈ passagesOf fs) :
    p.target.map Finish.kind ≠ some (.join name) := by
  intro htarget
  obtain ⟨t, ht, hkind⟩ := Option.map_eq_some_iff.1 htarget
  cases t with
  | done span => cases hkind
  | join r =>
      injection hkind with hname
      exact h.target_ne hp ht hname

-- ============================================================= arriving

/-- A join arrives if a passage leads from it to the end. -/
theorem arrives_done {r : JoinRef α} {span : Option Span} (hp : p ∈ passagesOf fs)
    (howner : p.owner = .join r) (htarget : p.target = some (.done span)) : Arrives fs r.name := by
  obtain ⟨f, hf, -, hp⟩ := mem_passagesOf.1 hp
  exact .done hf hp howner htarget

/-- A join arrives if a passage leads from it to one that does. -/
theorem arrives_jump {r next : JoinRef α} (hp : p ∈ passagesOf fs)
    (howner : p.owner = .join r) (htarget : p.target = some (.join next))
    (hnext : Arrives fs next.name) : Arrives fs r.name := by
  obtain ⟨f, hf, -, hp⟩ := mem_passagesOf.1 hp
  exact .jump hf hp howner htarget hnext

/-- What arrives still does with one more join. -/
theorem Arrives.insert (hcut : CutsAt ref (passagesOf fs) (passagesOf fs')) (h : Arrives fs name) :
    Arrives fs' name := by
  obtain ⟨pre, post, owner, early, late, target, hps, hps'⟩ := hcut
  have hearly : ⟨owner, early, some (.join ref)⟩ ∈ passagesOf fs' := by simp [hps']
  have hlate : ⟨.join ref, late, target⟩ ∈ passagesOf fs' := by simp [hps']
  have hcases : ∀ p ∈ passagesOf fs, p ∈ passagesOf fs' ∨ p = ⟨owner, early ++ late, target⟩ := by
    intro p hp
    rw [hps, List.mem_append, List.mem_cons] at hp
    rw [hps', List.mem_append, List.mem_cons, List.mem_cons]
    tauto
  induction h with
  | done hf hp howner htarget =>
      rcases hcases _ (mem_passagesOf_of_mem hf hp (by rw [htarget]; rfl)) with hp' | rfl
      · exact arrives_done hp' howner htarget
      · exact arrives_jump hearly howner rfl (arrives_done hlate rfl htarget)
  | jump hf hp howner htarget _ ih =>
      rcases hcases _ (mem_passagesOf_of_mem hf hp (by rw [htarget]; rfl)) with hp' | rfl
      · exact arrives_jump hp' howner htarget ih
      · exact arrives_jump hearly howner rfl (arrives_jump hlate rfl htarget ih)

/-- What arrives with one more join did so before. From the new join itself
one arrives as from the join that the cut passage carries on from. -/
theorem Arrives.of_insert (hcut : CutsAt ref (passagesOf fs) (passagesOf fs'))
    (hfresh : Unmentioned fs ref.name) (h : Arrives fs' name) (hname : name ≠ ref.name) :
    Arrives fs name := by
  obtain ⟨pre, post, owner, early, late, target, hps, hps'⟩ := hcut
  have hwhole : ⟨owner, early ++ late, target⟩ ∈ passagesOf fs := by simp [hps]
  have hcases : ∀ p ∈ passagesOf fs', p ∈ passagesOf fs
      ∨ p = ⟨owner, early, some (.join ref)⟩ ∨ p = ⟨.join ref, late, target⟩ := by
    intro p hp
    rw [hps', List.mem_append, List.mem_cons, List.mem_cons] at hp
    rw [hps, List.mem_append, List.mem_cons]
    tauto
  -- the new join is left by the cut passage alone, so it arrives as its owner does
  have hboth : (name ≠ ref.name → Arrives fs name)
      ∧ (name = ref.name → ∀ r, owner = .join r → Arrives fs r.name) := by
    clear hname
    induction h with
    | @done f p r span hf hp howner htarget =>
        rcases hcases _ (mem_passagesOf_of_mem hf hp (by rw [htarget]; rfl)) with hp' | rfl | rfl
        · exact ⟨fun _ => arrives_done hp' howner htarget,
            fun heq => absurd heq (hfresh.owner_ne hp' howner)⟩
        · cases htarget
        · cases howner
          exact ⟨fun hne => absurd rfl hne, fun _ r hr => arrives_done hwhole hr htarget⟩
    | @jump f p r next hf hp howner htarget _ ih =>
        rcases hcases _ (mem_passagesOf_of_mem hf hp (by rw [htarget]; rfl)) with hp' | rfl | rfl
        · have hnext := ih.1 (hfresh.target_ne hp' htarget)
          exact ⟨fun _ => arrives_jump hp' howner htarget hnext,
            fun heq => absurd heq (hfresh.owner_ne hp' howner)⟩
        · cases htarget
          exact ⟨fun _ => ih.2 rfl r howner, fun heq => absurd heq (hfresh.owner_ne hwhole howner)⟩
        · cases howner
          have hnext := ih.1 (hfresh.target_ne hwhole htarget)
          exact ⟨fun hne => absurd rfl hne, fun _ r hr => arrives_jump hwhole hr htarget hnext⟩
  exact hboth.1 hname

-- ============================================================ soundness

variable [DecidableEq α]

/-- Of mentions among which no other bears the name of a new one, those of
its name are the new one. -/
theorem filter_name_insert {pre post : List (JoinRef α)}
    (h : ∀ r ∈ pre ++ post, r.name ≠ ref.name) (name : α) :
    (pre ++ ref :: post).filter (·.name = name)
      = if name = ref.name then [ref] else (pre ++ post).filter (·.name = name) := by
  rw [List.forall_mem_append] at h
  have hnone : ∀ {rs : List (JoinRef α)}, (∀ r ∈ rs, r.name ≠ ref.name) →
      rs.filter (·.name = ref.name) = [] := by
    intro rs hrs
    rw [List.filter_eq_nil_iff]
    intro r hr
    rw [decide_eq_true_eq]
    exact hrs r hr
  by_cases hname : name = ref.name
  · rw [if_pos hname, hname, List.filter_append, List.filter_cons, hnone h.1, hnone h.2]
    simp
  · rw [if_neg hname, List.filter_append, List.filter_append, List.filter_cons]
    simp [Ne.symm hname]

/-- The new join is claimed once, and the others as before. -/
theorem claimsOf_insert (hclaims : ∃ pre post,
      (passagesOf fs).filterMap Passage.claim? = pre ++ post
        ∧ (passagesOf fs').filterMap Passage.claim? = pre ++ ref :: post)
    (hfresh : Unmentioned fs ref.name) (name : α) :
    claimsOf fs' name = if name = ref.name then [ref] else claimsOf fs name := by
  obtain ⟨pre, post, hclaims, hclaims'⟩ := hclaims
  have hnew := hfresh.claims
  rw [hclaims] at hnew
  rw [claimsOf, claimsOf, ← filterMap_claim?_passagesOf, ← filterMap_claim?_passagesOf, hclaims,
    hclaims', filter_name_insert hnew]

/-- The new join is fed once, and every other as before. -/
theorem feedsOf_insert (hcut : CutsAt ref (passagesOf fs) (passagesOf fs'))
    (hfresh : Unmentioned fs ref.name) (name : α) :
    feedsOf fs' name = if name = ref.name then [ref] else feedsOf fs name := by
  obtain ⟨pre, post, hfeeds, hfeeds'⟩ := hcut.feeds
  have hnew := hfresh.feeds
  rw [hfeeds] at hnew
  rw [feedsOf, feedsOf, ← filterMap_feed?_passagesOf, ← filterMap_feed?_passagesOf, hfeeds,
    hfeeds', filter_name_insert hnew]

/-- A join that is not mentioned is neither claimed nor fed. -/
theorem Unmentioned.of_name (h : Unmentioned fs name) :
    claimsOf fs name = [] ∧ feedsOf fs name = [] := by
  rw [claimsOf, feedsOf, ← filterMap_claim?_passagesOf, ← filterMap_feed?_passagesOf,
    List.filter_eq_nil_iff, List.filter_eq_nil_iff]
  simp only [decide_eq_true_eq]
  exact ⟨h.claims, h.feeds⟩

/-- Where the joins match, they do with one more join. -/
theorem matched_insert_iff (hcut : CutsAt ref (passagesOf fs) (passagesOf fs'))
    (hfresh : Unmentioned fs ref.name) : (∀ name, Matched fs' name) ↔ ∀ name, Matched fs name := by
  refine forall_congr' fun name => ?_
  rw [Matched, Matched, claimsOf_insert hcut.claims hfresh, feedsOf_insert hcut hfresh]
  by_cases hname : name = ref.name
  · obtain ⟨hclaims, hfeeds⟩ := hfresh.of_name
    rw [if_pos hname, if_pos hname, hname, hclaims, hfeeds]
    simp
  · rw [if_neg hname, if_neg hname]

/-- Every join arrives exactly when every join did before, if every passage
arrives somewhere. -/
theorem arrives_insert_iff (hcut : CutsAt ref (passagesOf fs) (passagesOf fs'))
    (hfresh : Unmentioned fs ref.name) (htargets : ∀ p ∈ passagesOf fs, p.target ≠ none) :
    (∀ name, claimsOf fs' name ≠ [] ∨ feedsOf fs' name ≠ [] → Arrives fs' name)
      ↔ ∀ name, claimsOf fs name ≠ [] ∨ feedsOf fs name ≠ [] → Arrives fs name := by
  simp only [claimsOf_insert hcut.claims hfresh, feedsOf_insert hcut hfresh]
  constructor
  · intro harrives name hmention
    by_cases hname : name = ref.name
    · obtain ⟨hclaims, hfeeds⟩ := hfresh.of_name
      rw [hname, hclaims, hfeeds] at hmention
      simp at hmention
    · have harrives' := harrives name
      rw [if_neg hname, if_neg hname] at harrives'
      exact (harrives' hmention).of_insert hcut hfresh hname
  · intro harrives name hmention
    by_cases hname : name = ref.name
    · rw [hname]
      -- The new join goes on with the late part of the passage that it cuts.
      obtain ⟨pre, post, owner, early, late, target, hps, hps'⟩ := id hcut
      have hwhole : ⟨owner, early ++ late, target⟩ ∈ passagesOf fs := by simp [hps]
      have hlate : ⟨.join ref, late, target⟩ ∈ passagesOf fs' := by simp [hps']
      cases target with
      | none => exact absurd rfl (htargets _ hwhole)
      | some t =>
          cases t with
          | done span => exact arrives_done hlate rfl rfl
          | join next =>
              have hfed : next ∈ feedsOf fs next.name := by
                rw [feedsOf, ← filterMap_feed?_passagesOf, List.mem_filter, decide_eq_true_eq]
                exact ⟨List.mem_filterMap.2 ⟨_, hwhole, rfl⟩, rfl⟩
              have hnext := harrives next.name (.inr (List.ne_nil_of_mem hfed))
              exact arrives_jump hlate rfl rfl (hnext.insert hcut)
    · rw [if_neg hname, if_neg hname] at hmention
      exact (harrives name hmention).insert hcut

/-- A fragment of sound rules arrives somewhere if there is anything to
it but its start. -/
theorem Sound.finish_ne_none (h : Sound fs) {f : Fragment α} (hf : f ∈ fs)
    (hmore : f.body ≠ [] ∨ f.finish ≠ none) : f.finish ≠ none := by
  rcases h.ends f hf with hmention | hfinish
  · rcases hmore with hbody | hfinish
    · simp [Fragment.isMention, hbody] at hmention
    · exact hfinish
  · exact hfinish

section Inserted

variable {pre post : List (Fragment α)} {start : Start α} {before after : List (Element α)}
  {finish : Option (Finish α)}

/-- A rule into which a join can be put arrives somewhere, if the rules are
sound. -/
theorem Sound.finish_of_place (h : Sound (pre ++ ⟨start, before ++ after, finish⟩ :: post))
    (hplace : after ≠ [] ∨ finish ≠ none) : finish ≠ none := by
  refine h.finish_ne_none (List.mem_append_right pre List.mem_cons_self) ?_
  exact hplace.imp_left (List.append_ne_nil_of_right_ne_nil before)

/-- Rules are sound exactly when they are with one more join. -/
theorem sound_insert_iff (hplace : after ≠ [] ∨ finish ≠ none)
    (hfresh : Unmentioned (pre ++ ⟨start, before ++ after, finish⟩ :: post) ref.name) :
    Sound (pre ++ ⟨start, before ++ .join ref :: after, finish⟩ :: post)
      ↔ Sound (pre ++ ⟨start, before ++ after, finish⟩ :: post) := by
  by_cases hfinish : finish = none
  · have hmore : before ++ .join ref :: after ≠ [] ∨ finish ≠ none := .inl (by simp)
    -- Without an end, the rule is unsound either way.
    refine iff_of_false (fun h => ?_) fun h => h.finish_of_place hplace hfinish
    exact h.finish_ne_none (List.mem_append_right pre List.mem_cons_self) hmore hfinish
  · have hcut := cutsAt_passagesOf pre post start before after ref hfinish
    have hends : (∀ f ∈ pre ++ ⟨start, before ++ .join ref :: after, finish⟩ :: post,
        f.isMention = true ∨ f.finish ≠ none)
          ↔ ∀ f ∈ pre ++ ⟨start, before ++ after, finish⟩ :: post,
            f.isMention = true ∨ f.finish ≠ none := by
      rw [List.forall_mem_append, List.forall_mem_append, List.forall_mem_cons,
        List.forall_mem_cons]
      simp [hfinish]
    have hdone : (∃ f ∈ pre ++ ⟨start, before ++ .join ref :: after, finish⟩ :: post,
        ∃ span, f.finish = some (.done span))
          ↔ ∃ f ∈ pre ++ ⟨start, before ++ after, finish⟩ :: post,
            ∃ span, f.finish = some (.done span) := by
      simp only [List.mem_append, List.mem_cons, or_and_right, exists_or, exists_eq_left]
    have hmatched := matched_insert_iff hcut hfresh
    constructor
    · intro h
      have hlinked : Linked _ := ⟨hends.1 h.ends, hmatched.1 h.matched⟩
      refine ⟨hlinked.ends, hdone.1 h.done, hlinked.matched, ?_⟩
      exact (arrives_insert_iff hcut hfresh fun p hp => hlinked.target_ne_none hp).1 h.arrives
    · intro h
      have hlinked : Linked _ := ⟨h.ends, h.matched⟩
      refine ⟨hends.2 h.ends, hdone.2 h.done, hmatched.2 h.matched, ?_⟩
      exact (arrives_insert_iff hcut hfresh fun p hp => hlinked.target_ne_none hp).2 h.arrives

end Inserted

-- =============================================================== trees

section Entering

variable {pre post : List (Passage α)} {owner : Start α} {early late : List (Action α)}
  {target : Option (Finish α)} {kind : VertexKind α}

/-- What arrives at the new join is the first part of the cut passage. -/
theorem filter_enters_new (h : ∀ p ∈ pre ++ ⟨owner, early ++ late, target⟩ :: post,
      p.enters (.join ref.name) = false) :
    (pre ++ ⟨owner, early, some (.join ref)⟩ :: ⟨.join ref, late, target⟩ :: post).filter
        (·.enters (.join ref.name)) = [⟨owner, early, some (.join ref)⟩] := by
  rw [List.forall_mem_append, List.forall_mem_cons] at h
  obtain ⟨hpre, hwhole, hpost⟩ := h
  have hearly : (⟨owner, early, some (.join ref)⟩ : Passage α).enters (.join ref.name) = true :=
    decide_eq_true rfl
  have hlate : (⟨.join ref, late, target⟩ : Passage α).enters (.join ref.name) = false := hwhole
  have hnone : ∀ {ps : List (Passage α)}, (∀ p ∈ ps, p.enters (.join ref.name) = false) →
      ps.filter (·.enters (.join ref.name)) = [] := by
    intro ps hps
    exact List.filter_eq_nil_iff.2 fun p hp => Bool.eq_false_iff.1 (hps p hp)
  rw [List.filter_append, List.filter_cons, hearly, List.filter_cons, hlate, hnone hpre,
    hnone hpost]
  rfl

/-- What arrives elsewhere is what arrived there, the second part in the
place of the cut passage. -/
theorem filter_enters_other (hkind : kind ≠ .join ref.name) :
    (pre ++ ⟨owner, early, some (.join ref)⟩ :: ⟨.join ref, late, target⟩ :: post).filter
        (·.enters kind)
      = (pre ++ ⟨.join ref, late, target⟩ :: post).filter (·.enters kind) := by
  have hearly : (⟨owner, early, some (.join ref)⟩ : Passage α).enters kind = false := by
    rw [Passage.enters, decide_eq_false_iff_not]
    exact fun heq => hkind (Option.some.inj heq).symm
  rw [List.filter_append, List.filter_append, List.filter_cons, hearly]
  rfl

/-- The flow that arrives at the new join is the one that the cut passage
carries on, with the actions before the join. -/
theorem Gathers.new (hnone : ∀ p ∈ pre ++ ⟨owner, early ++ late, target⟩ :: post,
      p.enters (.join ref.name) = false) {f : Flow α}
    (h : Gathers (pre ++ ⟨owner, early, some (.join ref)⟩ :: ⟨.join ref, late, target⟩ :: post)
      owner.kind f) :
    Gathers (pre ++ ⟨owner, early, some (.join ref)⟩ :: ⟨.join ref, late, target⟩ :: post)
      (.join ref.name) (f.prolong early) := by
  -- of one part nothing is merged
  show Gathers _ _ (.merge
    ([((⟨owner, early, some (.join ref)⟩ : Passage α), f)].map fun x => x.2.prolong x.1.actions))
  refine .merge rfl ?_ (List.forall_mem_singleton.2 h)
  rw [filter_enters_new hnone]
  rfl

end Entering

/-- A join that is put in changes nothing of what is gathered elsewhere:
what arrives at it goes on as it is. -/
theorem Gathers.insert {kind : VertexKind α} {f : Flow α}
    (hcut : CutsAt ref (passagesOf fs) (passagesOf fs')) (hfresh : Unmentioned fs ref.name)
    (h : Gathers (passagesOf fs) kind f) (hkind : kind ≠ .join ref.name) :
    Gathers (passagesOf fs') kind f := by
  obtain ⟨pre, post, owner, early, late, target, hps, hps'⟩ := hcut
  have hnone : ∀ p ∈ passagesOf fs, p.enters (.join ref.name) = false := by
    intro p hp
    rw [Passage.enters, decide_eq_false_iff_not]
    exact hfresh.target_kind hp
  rw [hps] at hnone
  induction h with
  | root => exact .root
  | @merge kind parts hroot hentering hparts ih =>
      have hbelow : ∀ x ∈ parts, Gathers (passagesOf fs') x.1.owner.kind x.2 := by
        intro x hx
        have hfst := List.mem_map_of_mem (f := Prod.fst) hx
        rw [hentering] at hfst
        exact ih x hx (hfresh.owner_kind (List.mem_filter.1 hfst).1)
      rw [hps, List.filter_append, List.filter_cons] at hentering
      -- If the passage that is cut arrives here, its flow comes by way of the new join:
      -- prolonged by the early actions there, and by the late ones on the way on.
      by_cases henters : (⟨owner, early ++ late, target⟩ : Passage α).enters kind = true
      · rw [if_pos henters] at hentering
        obtain ⟨front, c, back, rfl, hfront, hback⟩ := exists_middle hentering
        rw [List.forall_mem_append, List.forall_mem_cons] at hbelow
        obtain ⟨hbefore, hmiddle, hafter⟩ := hbelow
        have hnew : Gathers (passagesOf fs') (.join ref.name) (c.prolong early) := by
          rw [hps'] at hmiddle ⊢
          exact Gathers.new hnone hmiddle
        have hwhole : Gathers (passagesOf fs') kind
            (.merge ((front ++ (⟨.join ref, late, target⟩, c.prolong early) :: back).map
              fun x => x.2.prolong x.1.actions)) := by
          refine .merge hroot ?_ (List.forall_mem_append.2 ⟨hbefore, ?_⟩)
          · rw [hps', filter_enters_other hkind, List.filter_append, List.filter_cons,
              List.map_append, List.map_cons, hfront, hback]
            exact congrArg _ (if_pos henters).symm
          · exact List.forall_mem_cons.2 ⟨hnew, hafter⟩
        rw [List.map_append, List.map_cons, Flow.prolong_prolong] at hwhole
        rw [List.map_append, List.map_cons]
        exact hwhole
      · refine .merge hroot ?_ hbelow
        rw [if_neg henters] at hentering
        rw [hentering, hps', filter_enters_other hkind, List.filter_append, List.filter_cons]
        exact congrArg _ (if_neg henters).symm

-- ============================================================ verdicts

/-- A join that is used nowhere changes nothing where it is put into the
body of a rule before something: a check finds nothing exactly if it found
nothing before, and then the tree is the same. -/
theorem insert_join_transparent (pre post : List (Fragment α)) (start : Start α)
    (before after : List (Element α)) (finish : Option (Finish α)) (ref : JoinRef α)
    (hplace : after ≠ [] ∨ finish ≠ none)
    (hfresh : ∀ f ∈ pre ++ ⟨start, before ++ after, finish⟩ :: post, ∀ r ∈ f.mentions,
      r.name ≠ ref.name)
    (hgroups : ∀ f ∈ pre ++ ⟨start, before ++ after, finish⟩ :: post, ∀ group,
      f.start = .group group → group.ingredients ≠ []) :
    ∃ v v', checkFragments (pre ++ ⟨start, before ++ after, finish⟩ :: post) = .ok v
      ∧ checkFragments (pre ++ ⟨start, before ++ .join ref :: after, finish⟩ :: post) = .ok v'
      ∧ (v.diagnostics = [] ↔ v'.diagnostics = [])
      ∧ (v.diagnostics = [] → ∃ t, v.tree = some t ∧ v'.tree = some t) := by
  have hgroups' : ∀ f ∈ pre ++ ⟨start, before ++ .join ref :: after, finish⟩ :: post, ∀ group,
      f.start = .group group → group.ingredients ≠ [] := by
    rw [List.forall_mem_append, List.forall_mem_cons] at hgroups ⊢
    exact hgroups
  refine exists_verdicts hgroups hgroups' (sound_insert_iff hplace hfresh) fun hsound f hf => ?_
  have hcut := cutsAt_passagesOf pre post start before after ref (hsound.finish_of_place hplace)
  exact hf.insert hcut hfresh fun heq => nomatch heq

/-- The pancakes keep their tree when a second join is put behind that of
the batter. -/
theorem insert_join_transparent_pancakes :
    (∀ f ∈ pancakes, ∀ r ∈ f.mentions, r.name ≠ "pan")
      ∧ (∀ f ∈ pancakes, ∀ group, f.start = .group group → group.ingredients ≠ [])
      ∧ ∃ v v', checkFragments pancakes = .ok v
        ∧ checkFragments (pancakes.take 2 ++ [⟨.join ⟨"bowl", none⟩,
            [.step ⟨⟨"mix", [⟨"salt", none⟩]⟩, none⟩, .join ⟨"batter", none⟩,
              .join ⟨"pan", none⟩, .step ⟨⟨"fry", []⟩, none⟩], some (.done none)⟩]) = .ok v'
        ∧ v.diagnostics = [] ∧ v'.diagnostics = [] ∧ ∃ t, v.tree = some t ∧ v'.tree = some t := by
  have hfresh : ∀ f ∈ pancakes, ∀ r ∈ f.mentions, r.name ≠ "pan" := by decide
  have hgroups : ∀ f ∈ pancakes, ∀ group, f.start = .group group → group.ingredients ≠ [] := by
    simp [pancakes]
  obtain ⟨v, v', hv, hv', hagree, htrees⟩ := insert_join_transparent (pancakes.take 2) []
    (.join ⟨"bowl", none⟩) [.step ⟨⟨"mix", [⟨"salt", none⟩]⟩, none⟩, .join ⟨"batter", none⟩]
    [.step ⟨⟨"fry", []⟩, none⟩] (some (.done none)) ⟨"pan", none⟩ (.inl (List.cons_ne_nil _ _))
    hfresh hgroups
  obtain ⟨w, hw, hclean⟩ := map_eq_ok_iff.1 diagnostics_pancakes
  cases hv.symm.trans hw
  exact ⟨hfresh, hgroups, v, v', hv, hv', hclean, hagree.1 hclean, htrees hclean⟩

end RecipeChart
