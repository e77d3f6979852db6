/-
The end as a merge point. Rules may finish at several places; what they
carry there merges into the dish. They may as well lead to one join that
is used nowhere else, if one more rule goes straight on from there to the
end. Then the end is claimed by nobody and fed by one rule, and the join
does what the end did before: the same flows arrive at it in the same
order, and they go on as they are.

Everything is told from the passages. Those of the rules lead elsewhere
than before, and one passage without actions is added between them; where
it stands does not matter, as nothing else arrives at the end.
-/
import RecipeChart.Proofs.JoinInsertion

namespace RecipeChart

open FlowGraph

variable {α : Type}

-- ============================================================ rerouting

/-- The finish, with the end in the place of a join. -/
def Finish.reroute (name : α) : Finish α → Finish α
  | .done span => .join ⟨name, span⟩
  | .join ref => .join ref

def Fragment.reroute (name : α) (f : Fragment α) : Fragment α :=
  { f with finish := f.finish.map (Finish.reroute name) }

def Passage.reroute (name : α) (p : Passage α) : Passage α :=
  { p with target := p.target.map (Finish.reroute name) }

/-- What arrives at a vertex of the first kind arrives at one of the second
when the end is rerouted. -/
def VertexKind.reroute (name : α) : VertexKind α → VertexKind α
  | .terminal => .join name
  | kind => kind

/-- The rule that goes straight from the join to the end. -/
def Fragment.straight (ref : JoinRef α) (span : Option Span) : Fragment α :=
  ⟨.join ref, [], some (.done span)⟩

def Passage.straight (ref : JoinRef α) (span : Option Span) : Passage α :=
  ⟨.join ref, [], some (.done span)⟩

variable {name : α} {ref : JoinRef α} {p : Passage α}

/-- A finish that is rerouted arrives at the rerouted kind. -/
theorem Finish.kind_reroute (t : Finish α) : (t.reroute name).kind = t.kind.reroute name := by
  cases t <;> rfl

/-- A start sets out from what it did. -/
theorem Start.kind_reroute (s : Start α) : s.kind.reroute name = s.kind := by
  cases s <;> rfl

/-- No root comes of what is none. -/
theorem VertexKind.group?_reroute {kind : VertexKind α} (h : kind.group? = none) :
    (kind.reroute name).group? = none := by
  cases kind with
  | terminal => rfl
  | join n => rfl
  | root g => cases h

/-- The kinds apart from the new join stay apart. -/
theorem VertexKind.reroute_inj {kind kind' : VertexKind α} (h : kind ≠ .join name)
    (h' : kind' ≠ .join name) : kind.reroute name = kind'.reroute name ↔ kind = kind' := by
  cases kind with
  | terminal => cases kind' <;> simp_all [reroute, eq_comm]
  | join n => cases kind' <;> simp_all [reroute]
  | root g => cases kind' <;> simp [reroute]

namespace Fragment

/-- A rerouted fragment is followed if it was. -/
theorem isFollowed_reroute (f : Fragment α) : (f.reroute name).isFollowed = f.isFollowed := by
  obtain ⟨start, body, finish⟩ := f
  cases start <;> cases finish <;> rfl

/-- A rerouted fragment is a mention if it was. -/
theorem isMention_reroute (f : Fragment α) : (f.reroute name).isMention = f.isMention := by
  rw [isMention_eq, isMention_eq, isFollowed_reroute]
  rfl

/-- A rerouted fragment arrives somewhere if it did. -/
theorem finish_reroute_ne_none_iff {f : Fragment α} :
    (f.reroute name).finish ≠ none ↔ f.finish ≠ none := by
  simp [reroute]

end Fragment

/-- A rule is cut at the same places. -/
theorem Passage.cut_reroute (owner : Start α) (actions : List (Action α))
    (body : List (Element α)) (finish : Option (Finish α)) :
    cut owner actions body (finish.map (Finish.reroute name))
      = (cut owner actions body finish).map (Passage.reroute name) := by
  induction body generalizing owner actions with
  | nil => rfl
  | cons x body ih =>
      cases x with
      | step s => exact ih owner (actions ++ [s.action])
      | join r => exact congrArg (⟨owner, actions, some (.join r)⟩ :: ·) (ih (.join r) [])

/-- The passages of rerouted fragments are their passages, rerouted. -/
theorem passagesOf_reroute (fs : List (Fragment α)) :
    passagesOf (fs.map (Fragment.reroute name)) = (passagesOf fs).map (Passage.reroute name) := by
  have hfollowed : Fragment.isFollowed ∘ Fragment.reroute name = Fragment.isFollowed (α := α) :=
    funext Fragment.isFollowed_reroute
  rw [passagesOf, passagesOf, List.filter_map, hfollowed, List.flatMap_map, List.map_flatMap]
  exact List.flatMap_congr fun f _ => Passage.cut_reroute f.start [] f.body f.finish

/-- The rules, rerouted, with the straight rule among them. -/
def mergeAt (ref : JoinRef α) (span : Option Span) (pre post : List (Fragment α)) :
    List (Fragment α) :=
  pre.map (Fragment.reroute ref.name) ++ .straight ref span :: post.map (Fragment.reroute ref.name)

/-- Are the second passages the first ones, rerouted, with the straight one
among them? -/
def MergesAt (ref : JoinRef α) (span : Option Span) (ps ps' : List (Passage α)) : Prop :=
  ∃ pre post, ps = pre ++ post ∧ ps' = pre.map (Passage.reroute ref.name)
    ++ .straight ref span :: post.map (Passage.reroute ref.name)

/-- The straight rule adds one passage, and the others are rerouted. -/
theorem mergesAt_passagesOf (ref : JoinRef α) (span : Option Span) (pre post : List (Fragment α)) :
    MergesAt ref span (passagesOf (pre ++ post)) (passagesOf (mergeAt ref span pre post)) := by
  refine ⟨passagesOf pre, passagesOf post, passagesOf_append pre post, ?_⟩
  rw [mergeAt, passagesOf_append, passagesOf_cons_of_followed rfl, passagesOf_reroute,
    passagesOf_reroute]
  rfl

variable {span : Option Span} {ps ps' : List (Passage α)} {fs fs' : List (Fragment α)}

/-- A passage is the straight one or one that was rerouted. -/
theorem MergesAt.mem_iff (h : MergesAt ref span ps ps') :
    p ∈ ps' ↔ p = .straight ref span ∨ ∃ q ∈ ps, q.reroute ref.name = p := by
  obtain ⟨pre, post, rfl, rfl⟩ := h
  simp only [List.mem_append, List.mem_cons, List.mem_map, or_and_right, exists_or]
  exact or_left_comm

-- ============================================================= arriving

/-- What arrives still does: what finished goes on to the join and on from
there. -/
theorem Arrives.mergeAt (hmerge : MergesAt ref span (passagesOf fs) (passagesOf fs'))
    (h : Arrives fs name) : Arrives fs' name := by
  have hstraight : Passage.straight ref span ∈ passagesOf fs' := hmerge.mem_iff.2 (.inl rfl)
  have hrerouted : ∀ p ∈ passagesOf fs, p.reroute ref.name ∈ passagesOf fs' :=
    fun p hp => hmerge.mem_iff.2 (.inr ⟨p, hp, rfl⟩)
  induction h with
  | @done f p r s hf hp howner htarget =>
      have hp' := hrerouted p (mem_passagesOf_of_mem hf hp (by rw [htarget]; rfl))
      have hend : Arrives fs' ref.name := arrives_done (r := ref) hstraight rfl rfl
      have htarget' : (p.reroute ref.name).target = some (.join ⟨ref.name, s⟩) := by
        rw [Passage.reroute, htarget]
        rfl
      exact arrives_jump hp' howner htarget' hend
  | @jump f p r next hf hp howner htarget _ ih =>
      have hp' := hrerouted p (mem_passagesOf_of_mem hf hp (by rw [htarget]; rfl))
      refine arrives_jump hp' howner ?_ ih
      rw [Passage.reroute, htarget]
      rfl

/-- What arrives did so before, the new join apart: what goes on to the
join finished there. -/
theorem Arrives.of_mergeAt (hmerge : MergesAt ref span (passagesOf fs) (passagesOf fs'))
    (hfresh : Unmentioned fs ref.name) (h : Arrives fs' name) (hname : name ≠ ref.name) :
    Arrives fs name := by
  induction h with
  | @done f p r s hf hp howner htarget =>
      have hp' := mem_passagesOf_of_mem hf hp (by rw [htarget]; rfl)
      rcases hmerge.mem_iff.1 hp' with rfl | ⟨q, hq, rfl⟩
      · cases howner
        exact absurd rfl hname
      · -- what is rerouted does not finish
        obtain ⟨t, ht, hdone⟩ := Option.map_eq_some_iff.1 htarget
        cases t <;> cases hdone
  | @jump f p r next hf hp howner htarget _ ih =>
      have hp' := mem_passagesOf_of_mem hf hp (by rw [htarget]; rfl)
      rcases hmerge.mem_iff.1 hp' with rfl | ⟨q, hq, rfl⟩
      · cases htarget
      · obtain ⟨t, ht, hjoin⟩ := Option.map_eq_some_iff.1 htarget
        cases t with
        | done s => exact arrives_done hq howner ht
        | join next' =>
            cases hjoin
            exact arrives_jump hq howner ht (ih (hfresh.target_ne hq ht))

-- ============================================================ soundness

/-- Does one of the rules finish? -/
def Finishes (fs : List (Fragment α)) : Prop := ∃ f ∈ fs, ∃ span, f.finish = some (.done span)

/-- A rule finishes exactly when one of the passages does. -/
theorem finishes_iff :
    Finishes fs ↔ ∃ p ∈ passagesOf fs, ∃ span, p.target = some (.done span) := by
  have hends : ∀ (f : Fragment α) (span : Option Span),
      (∃ p ∈ f.passages, p.target = some (.done span)) ↔ f.finish = some (.done span) :=
    fun f span => f.exists_target_iff fun r h => nomatch h
  constructor
  · intro ⟨f, hf, span, hfinish⟩
    obtain ⟨p, hp, htarget⟩ := (hends f span).2 hfinish
    exact ⟨p, mem_passagesOf_of_mem hf hp (by rw [htarget]; rfl), span, htarget⟩
  · intro ⟨p, hp, span, htarget⟩
    obtain ⟨f, hf, -, hp⟩ := mem_passagesOf.1 hp
    exact ⟨f, hf, span, (hends f span).1 ⟨p, hp, htarget⟩⟩

section Sound

variable [DecidableEq α]

omit [DecidableEq α] in
/-- The straight passage adds its claim, and the others claim what they
did. -/
theorem MergesAt.claims (h : MergesAt ref span ps ps') :
    ∃ pre post, ps.filterMap Passage.claim? = pre ++ post
      ∧ ps'.filterMap Passage.claim? = pre ++ ref :: post := by
  obtain ⟨pre, post, rfl, rfl⟩ := h
  refine ⟨pre.filterMap Passage.claim?, post.filterMap Passage.claim?, List.filterMap_append, ?_⟩
  rw [List.filterMap_append, List.filterMap_map, List.filterMap_cons, List.filterMap_map]
  rfl

/-- Passages that are rerouted feed the other joins as before. -/
theorem filter_feeds_reroute (ps : List (Passage α)) {other : α} (hother : other ≠ name) :
    ((ps.map (Passage.reroute name)).filterMap Passage.feed?).filter (·.name = other)
      = (ps.filterMap Passage.feed?).filter (·.name = other) := by
  induction ps with
  | nil => rfl
  | cons p ps ih =>
      obtain ⟨owner, actions, target⟩ := p
      rw [List.map_cons]
      cases target with
      | none => exact ih
      | some t =>
          cases t with
          | join r =>
              show List.filter _ (r :: _) = List.filter _ (r :: _)
              rw [List.filter_cons, List.filter_cons, ih]
          | done s =>
              show List.filter _ ((⟨name, s⟩ : JoinRef α) :: _) = _
              rw [List.filter_cons_of_neg (by simpa using hother.symm), ih]
              rfl

/-- Any other join is fed as before. -/
theorem MergesAt.feedsOf_other (h : MergesAt ref span (passagesOf fs) (passagesOf fs'))
    {other : α} (hother : other ≠ ref.name) : feedsOf fs' other = feedsOf fs other := by
  obtain ⟨pre, post, hps, hps'⟩ := h
  rw [feedsOf, feedsOf, ← filterMap_feed?_passagesOf, ← filterMap_feed?_passagesOf, hps, hps',
    List.filterMap_append, List.filterMap_append, List.filter_append, List.filter_append,
    filter_feeds_reroute pre hother, ← filter_feeds_reroute post hother]
  rfl

/-- The new join is fed exactly if a rule finished before. -/
theorem MergesAt.feedsOf_new_iff (h : MergesAt ref span (passagesOf fs) (passagesOf fs'))
    (hfresh : Unmentioned fs ref.name) : feedsOf fs' ref.name ≠ [] ↔ Finishes fs := by
  rw [feedsOf, ← filterMap_feed?_passagesOf, finishes_iff]
  constructor
  · intro hne
    obtain ⟨r, hr⟩ := List.exists_mem_of_ne_nil _ hne
    rw [List.mem_filter, List.mem_filterMap, decide_eq_true_eq] at hr
    obtain ⟨⟨p, hp, hfeed⟩, hname⟩ := hr
    rcases h.mem_iff.1 hp with rfl | ⟨q, hq, rfl⟩
    · cases hfeed
    · obtain ⟨t, ht, hjoin⟩ := Option.map_eq_some_iff.1 (Passage.feed?_eq_some_iff.1 hfeed)
      cases t with
      | done s => exact ⟨q, hq, s, ht⟩
      | join r' =>
          cases hjoin
          exact absurd hname (hfresh.target_ne hq ht)
  · rintro ⟨q, hq, s, htarget⟩
    have hfeed : (q.reroute ref.name).feed? = some ⟨ref.name, s⟩ := by
      rw [Passage.feed?, Passage.reroute, htarget]
      rfl
    refine List.ne_nil_of_mem (a := ⟨ref.name, s⟩) (List.mem_filter.2 ⟨?_, decide_eq_true rfl⟩)
    exact List.mem_filterMap.2 ⟨_, h.mem_iff.2 (.inr ⟨q, hq, rfl⟩), hfeed⟩

/-- The joins match exactly if they did and a rule finished: the new one is
claimed once, by the straight rule. -/
theorem MergesAt.matched_iff (h : MergesAt ref span (passagesOf fs) (passagesOf fs'))
    (hfresh : Unmentioned fs ref.name) :
    (∀ other, Matched fs' other) ↔ Finishes fs ∧ ∀ other, Matched fs other := by
  have hnew : Matched fs' ref.name ↔ Finishes fs := by
    rw [Matched, claimsOf_insert h.claims hfresh, if_pos rfl, h.feedsOf_new_iff hfresh]
    simp
  have hother : ∀ {other}, other ≠ ref.name → (Matched fs' other ↔ Matched fs other) := by
    intro other hne
    rw [Matched, Matched, claimsOf_insert h.claims hfresh, if_neg hne, h.feedsOf_other hne]
  constructor
  · intro hall
    refine ⟨hnew.1 (hall ref.name), fun other => ?_⟩
    by_cases hname : other = ref.name
    · obtain ⟨hclaims, hfeeds⟩ := hfresh.of_name
      rw [Matched, hname, hclaims, hfeeds]
      simp
    · exact (hother hname).1 (hall other)
  · rintro ⟨hfinishes, hall⟩ other
    by_cases hname : other = ref.name
    · rw [hname]
      exact hnew.2 hfinishes
    · exact (hother hname).2 (hall other)

/-- Every join arrives exactly if every join did before. -/
theorem MergesAt.arrives_iff (h : MergesAt ref span (passagesOf fs) (passagesOf fs'))
    (hfresh : Unmentioned fs ref.name) :
    (∀ other, claimsOf fs' other ≠ [] ∨ feedsOf fs' other ≠ [] → Arrives fs' other)
      ↔ ∀ other, claimsOf fs other ≠ [] ∨ feedsOf fs other ≠ [] → Arrives fs other := by
  have hmentioned : ∀ {other}, other ≠ ref.name →
      ((claimsOf fs' other ≠ [] ∨ feedsOf fs' other ≠ [])
        ↔ (claimsOf fs other ≠ [] ∨ feedsOf fs other ≠ [])) := by
    intro other hne
    rw [claimsOf_insert h.claims hfresh, if_neg hne, h.feedsOf_other hne]
  constructor
  · intro hall other hmention
    by_cases hname : other = ref.name
    · obtain ⟨hclaims, hfeeds⟩ := hfresh.of_name
      rw [hname, hclaims, hfeeds] at hmention
      simp at hmention
    · exact (hall other ((hmentioned hname).2 hmention)).of_mergeAt h hfresh hname
  · intro hall other hmention
    by_cases hname : other = ref.name
    · rw [hname]
      exact arrives_done (h.mem_iff.2 (.inl rfl)) rfl rfl
    · exact (hall other ((hmentioned hname).1 hmention)).mergeAt h

/-- Rules are sound exactly when they are with the end behind the new
join. -/
theorem sound_mergeAt_iff {pre post : List (Fragment α)}
    (hfresh : Unmentioned (pre ++ post) ref.name) :
    Sound (mergeAt ref span pre post) ↔ Sound (pre ++ post) := by
  have hmerge := mergesAt_passagesOf ref span pre post
  have hends : (∀ f ∈ mergeAt ref span pre post, f.isMention = true ∨ f.finish ≠ none)
      ↔ ∀ f ∈ pre ++ post, f.isMention = true ∨ f.finish ≠ none := by
    simp only [mergeAt, List.forall_mem_append, List.forall_mem_cons, List.forall_mem_map,
      Fragment.isMention_reroute, Fragment.finish_reroute_ne_none_iff]
    simp [Fragment.straight]
  have hdone : Finishes (mergeAt ref span pre post) :=
    ⟨.straight ref span, List.mem_append_right _ List.mem_cons_self, span, rfl⟩
  constructor
  · intro h
    obtain ⟨hfinishes, hmatched⟩ := (hmerge.matched_iff hfresh).1 h.matched
    exact ⟨hends.1 h.ends, hfinishes, hmatched, (hmerge.arrives_iff hfresh).1 h.arrives⟩
  · intro h
    have hmatched := (hmerge.matched_iff hfresh).2 ⟨h.done, h.matched⟩
    exact ⟨hends.2 h.ends, hdone, hmatched, (hmerge.arrives_iff hfresh).2 h.arrives⟩

end Sound

-- ================================================================ trees

variable [DecidableEq α]

/-- A passage that is rerouted arrives at the kind that stands in the place
of the one that it arrived at. -/
theorem Passage.enters_reroute {kind : VertexKind α}
    (hp : p.target.map Finish.kind ≠ some (.join name)) (hkind : kind ≠ .join name) :
    (p.reroute name).enters (kind.reroute name) = p.enters kind := by
  obtain ⟨owner, actions, target⟩ := p
  rw [enters, enters, decide_eq_decide, reroute]
  cases target with
  | none => simp
  | some t =>
      have ht : t.kind ≠ .join name := fun heq => hp (congrArg some heq)
      simp only [Option.map_some, Option.some.injEq, Finish.kind_reroute]
      exact VertexKind.reroute_inj ht hkind

/-- What arrives anywhere but at the end arrives there rerouted; what
arrived at the end does so at the new join. -/
theorem MergesAt.filter_enters {kind : VertexKind α} (h : MergesAt ref span ps ps')
    (hnone : ∀ p ∈ ps, p.target.map Finish.kind ≠ some (.join ref.name))
    (hkind : kind ≠ .join ref.name) :
    ps'.filter (·.enters (kind.reroute ref.name))
      = (ps.filter (·.enters kind)).map (Passage.reroute ref.name) := by
  have hsame : ∀ qs : List (Passage α), (∀ p ∈ qs, p ∈ ps) →
      (qs.map (Passage.reroute ref.name)).filter (·.enters (kind.reroute ref.name))
        = (qs.filter (·.enters kind)).map (Passage.reroute ref.name) := by
    intro qs hqs
    rw [List.filter_map]
    refine congrArg _ (List.filter_congr fun p hp => ?_)
    exact Passage.enters_reroute (hnone p (hqs p hp)) hkind
  have hstraight : (Passage.straight ref span).enters (kind.reroute ref.name) = false := by
    rw [Passage.enters, decide_eq_false_iff_not]
    cases kind <;> simp [Passage.straight, Finish.kind, VertexKind.reroute]
  obtain ⟨pre, post, rfl, rfl⟩ := h
  rw [List.filter_append, List.filter_append, List.filter_cons, hstraight, List.map_append,
    hsame pre fun p hp => List.mem_append_left post hp,
    hsame post fun p hp => List.mem_append_right pre hp]
  rfl

/-- What was gathered at the end is gathered at the new join, and elsewhere
the same is gathered as before. -/
theorem Gathers.reroute {kind : VertexKind α} {f : Flow α}
    (hmerge : MergesAt ref span (passagesOf fs) (passagesOf fs'))
    (hfresh : Unmentioned fs ref.name) (h : Gathers (passagesOf fs) kind f)
    (hkind : kind ≠ .join ref.name) :
    Gathers (passagesOf fs') (kind.reroute ref.name) f := by
  induction h with
  | root => exact .root
  | @merge kind parts hroot hentering hparts ih =>
      have hbelow : ∀ x ∈ parts, Gathers (passagesOf fs') x.1.owner.kind x.2 := by
        intro x hx
        have hfst := List.mem_map_of_mem (f := Prod.fst) hx
        rw [hentering] at hfst
        have hflow := ih x hx (hfresh.owner_kind (List.mem_filter.1 hfst).1)
        rwa [Start.kind_reroute] at hflow
      have hrerouted : Gathers (passagesOf fs') (kind.reroute ref.name)
          (.merge ((parts.map (Prod.map (Passage.reroute ref.name) id)).map
            fun x => x.2.prolong x.1.actions)) := by
        refine .merge (VertexKind.group?_reroute hroot) ?_ ?_
        · rw [hmerge.filter_enters (fun p hp => hfresh.target_kind hp) hkind, ← hentering,
            List.map_map, List.map_map]
          rfl
        · rw [List.forall_mem_map]
          exact hbelow
      rw [List.map_map] at hrerouted
      exact hrerouted

/-- The end gathers what the new join does: nothing else arrives there. -/
theorem MergesAt.gathers_terminal {f : Flow α}
    (h : MergesAt ref span (passagesOf fs) (passagesOf fs'))
    (hf : Gathers (passagesOf fs') (.join ref.name) f) :
    Gathers (passagesOf fs') .terminal f := by
  have hnone : ∀ qs : List (Passage α),
      (qs.map (Passage.reroute ref.name)).filter (·.enters .terminal) = [] := by
    intro qs
    rw [List.filter_eq_nil_iff, List.forall_mem_map]
    intro q _
    rw [Passage.enters, decide_eq_true_eq, Passage.reroute, Option.map_map,
      Option.map_eq_some_iff]
    rintro ⟨t, -, ht⟩
    cases t <;> cases ht
  have hentering : (passagesOf fs').filter (·.enters .terminal) = [.straight ref span] := by
    obtain ⟨pre, post, -, hps'⟩ := h
    rw [hps', List.filter_append, List.filter_cons, hnone pre, hnone post]
    rfl
  -- of one part nothing is merged, and it is not prolonged
  have hflow : Flow.merge ([(Passage.straight ref span, f)].map fun x => x.2.prolong x.1.actions)
      = f := f.prolong_nil
  rw [← hflow]
  exact .merge rfl hentering.symm (List.forall_mem_singleton.2 hf)

-- ============================================================= verdicts

/-- Several rules that finish meet as at a join. If each of them leads to a
join that is used nowhere else, and one more rule, anywhere among them, goes
straight from there to the end, then a check finds nothing exactly if it
found nothing before, and the tree is the same. -/
theorem checkFragments_mergeAt (pre post : List (Fragment α)) (ref : JoinRef α) (span : Option Span)
    (hfresh : ∀ f ∈ pre ++ post, ∀ r ∈ f.mentions, r.name ≠ ref.name)
    (hgroups : ∀ f ∈ pre ++ post, ∀ group, f.start = .group group → group.ingredients ≠ []) :
    ∃ v v', checkFragments (pre ++ post) = .ok v
      ∧ checkFragments (mergeAt ref span pre post) = .ok v'
      ∧ (v.diagnostics = [] ↔ v'.diagnostics = [])
      ∧ (v.diagnostics = [] → ∃ t, v.tree = some t ∧ v'.tree = some t) := by
  have hgroups' : ∀ f ∈ mergeAt ref span pre post, ∀ group,
      f.start = .group group → group.ingredients ≠ [] := by
    rw [List.forall_mem_append] at hgroups
    rw [mergeAt, List.forall_mem_append, List.forall_mem_cons, List.forall_mem_map,
      List.forall_mem_map]
    exact ⟨hgroups.1, fun group hstart => (nomatch hstart), hgroups.2⟩
  have hmerge := mergesAt_passagesOf ref span pre post
  refine exists_verdicts hgroups hgroups' (sound_mergeAt_iff hfresh) fun _ f hf => ?_
  exact hmerge.gathers_terminal (hf.reroute hmerge hfresh fun heq => nomatch heq)

/-- Tea and toast, which are done apart from each other. -/
def breakfast : List (Fragment String) :=
  [⟨.group ⟨[⟨"tea", none⟩], none⟩, [.step ⟨⟨"steep", []⟩, none⟩], some (.done none)⟩,
    ⟨.group ⟨[⟨"bread", some "2"⟩], none⟩, [.step ⟨⟨"toast", [⟨"butter", none⟩]⟩, none⟩],
      some (.done none)⟩]

theorem diagnostics_breakfast : Verdict.diagnostics <$> checkFragments breakfast = .ok [] :=
  diagnostics_eq_nil (by simp [breakfast]) (by decide +kernel) (by decide +kernel)
    (by decide +kernel) (by decide +kernel)

/-- Tea and toast may meet on the table. -/
theorem checkFragments_mergeAt_breakfast :
    (∀ f ∈ breakfast, ∀ r ∈ f.mentions, r.name ≠ "table")
      ∧ (∀ f ∈ breakfast, ∀ group, f.start = .group group → group.ingredients ≠ [])
      ∧ ∃ v v', checkFragments breakfast = .ok v
        ∧ checkFragments
          [⟨.group ⟨[⟨"tea", none⟩], none⟩, [.step ⟨⟨"steep", []⟩, none⟩],
              some (.join ⟨"table", none⟩)⟩,
            ⟨.join ⟨"table", none⟩, [], some (.done none)⟩,
            ⟨.group ⟨[⟨"bread", some "2"⟩], none⟩, [.step ⟨⟨"toast", [⟨"butter", none⟩]⟩, none⟩],
              some (.join ⟨"table", none⟩)⟩] = .ok v'
        ∧ v.diagnostics = [] ∧ v'.diagnostics = [] ∧ ∃ t, v.tree = some t ∧ v'.tree = some t := by
  have hfresh : ∀ f ∈ breakfast, ∀ r ∈ f.mentions, r.name ≠ "table" := by decide
  have hgroups : ∀ f ∈ breakfast, ∀ group, f.start = .group group → group.ingredients ≠ [] := by
    simp [breakfast]
  obtain ⟨v, v', hv, hv', hagree, htrees⟩ := checkFragments_mergeAt (breakfast.take 1)
    (breakfast.drop 1) ⟨"table", none⟩ none hfresh hgroups
  obtain ⟨w, hw, hclean⟩ := map_eq_ok_iff.1 diagnostics_breakfast
  cases hv.symm.trans hw
  exact ⟨hfresh, hgroups, v, v', hv, hv', hclean, hagree.1 hclean, htrees hclean⟩

end RecipeChart
