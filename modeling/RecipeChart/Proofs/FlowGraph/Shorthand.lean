/-
Joins in the middle of a rule. A rule that passes a join says the same as
two rules: one that ends at the join, and one that carries on from it. The
stitching does not tell them apart, whatever was drawn, claimed and fed
before: both come to the same passages, which are added one after another.

What carries on from the join must be more than its name, as a rule that is
nothing else is only a mention. A rule that arrives somewhere can therefore
be written out, a rule to a passage, until no join is left in a body.
-/
import RecipeChart.Proofs.Verdict

namespace RecipeChart

open FlowGraph

variable {α : Type} {start : Start α} {before after : List (Element α)} {ref : JoinRef α}
  {finish : Option (Finish α)}

-- ============================================================= passages

/-- A cut at a join begins the rest of the rule anew. -/
theorem Passage.cut_append_join (owner : Start α) (actions : List (Action α))
    (before after : List (Element α)) (ref : JoinRef α) (finish : Option (Finish α)) :
    cut owner actions (before ++ .join ref :: after) finish
      = cut owner actions before (some (.join ref)) ++ cut (.join ref) [] after finish := by
  induction before generalizing owner actions with
  | nil => rfl
  | cons x before ih =>
      cases x with
      | step s => exact ih owner (actions ++ [s.action])
      | join r => exact congrArg (⟨owner, actions, some (.join r)⟩ :: ·) (ih (.join r) [])

namespace Fragment

/-- A rule with a join in its body reaches it. -/
theorem isFollowed_of_inner (start : Start α) (before after : List (Element α)) (ref : JoinRef α)
    (finish : Option (Finish α)) :
    (⟨start, before ++ .join ref :: after, finish⟩ : Fragment α).isFollowed = true := by
  cases hfollowed : (⟨start, before ++ .join ref :: after, finish⟩ : Fragment α).isFollowed with
  | true => rfl
  | false =>
      have hinner := (open_of_not_followed hfollowed).1
      rw [inner, List.filterMap_append] at hinner
      cases (List.append_eq_nil_iff.1 hinner).2

/-- A rule that sets out from a join and has more to it is followed. -/
theorem isFollowed_of_more (hmore : after ≠ [] ∨ finish ≠ none) :
    (⟨.join ref, after, finish⟩ : Fragment α).isFollowed = true := by
  rcases hmore with hafter | hfinish
  · simp [isFollowed, Draft.isBare, hafter]
  · exact isFollowed_of_finish hfinish

end Fragment

-- ============================================================ stitching

variable [DecidableEq α]

/-- What a rule with a join in its body does to a draft, the two rules in
its place do one after the other. -/
theorem Draft.add_split (d : Draft α) (hmore : after ≠ [] ∨ finish ≠ none) :
    d.add ⟨start, before ++ .join ref :: after, finish⟩
      = (d.add ⟨start, before, some (.join ref)⟩).add ⟨.join ref, after, finish⟩ := by
  have hupto : (⟨start, before, some (.join ref)⟩ : Fragment α).isFollowed = true :=
    Fragment.isFollowed_of_finish (Option.some_ne_none _)
  rw [add_eq d (Fragment.isFollowed_of_inner start before after ref finish), add_eq d hupto,
    add_eq _ (Fragment.isFollowed_of_more hmore), ← List.foldl_append]
  exact congrArg (List.foldl addPassage d)
    (Passage.cut_append_join start [] before after ref finish)

/-- A join in the middle of a rule is shorthand for two rules: the graphs
are the same, tables and numbers and spans included, and so are the
problems in their order. -/
theorem stitch_split (pre post : List (Fragment α)) (start : Start α)
    (before after : List (Element α)) (ref : JoinRef α) (finish : Option (Finish α))
    (hmore : after ≠ [] ∨ finish ≠ none) :
    stitch (pre ++ ⟨start, before ++ .join ref :: after, finish⟩ :: post) = stitch
      (pre ++ ⟨start, before, some (.join ref)⟩ :: ⟨.join ref, after, finish⟩ :: post) := by
  rw [stitch, stitch, List.foldl_append, List.foldl_append, List.foldl_cons, List.foldl_cons,
    List.foldl_cons, Draft.add_split _ hmore]

/-- The rule that fries the pancakes is two rules, one up to the batter and
one from there on. -/
theorem stitch_split_pancakes :
    stitch pancakes = stitch (pancakes.take 2 ++
      [⟨.join ⟨"bowl", none⟩, [.step ⟨⟨"mix", [⟨"salt", none⟩]⟩, none⟩],
          some (.join ⟨"batter", none⟩)⟩,
        ⟨.join ⟨"batter", none⟩, [.step ⟨⟨"fry", []⟩, none⟩], some (.done none)⟩]) :=
  stitch_split (pancakes.take 2) [] (.join ⟨"bowl", none⟩) [.step ⟨⟨"mix", [⟨"salt", none⟩]⟩, none⟩]
    [.step ⟨⟨"fry", []⟩, none⟩] ⟨"batter", none⟩ (some (.done none)) (.inr (Option.some_ne_none _))

-- ================================================================= legs

namespace Fragment

omit [DecidableEq α]

/-- The rules that stand for a rule of which so much is read: each of them
ends at the join that the next one sets out from. -/
def legsFrom (start : Start α) (read : List (Element α)) :
    List (Element α) → Option (Finish α) → List (Fragment α)
  | [], finish => [⟨start, read, finish⟩]
  | .step s :: body, finish => legsFrom start (read ++ [.step s]) body finish
  | .join ref :: body, finish =>
    ⟨start, read, some (.join ref)⟩ :: legsFrom (.join ref) [] body finish

/-- The rules without joins in their bodies that stand for the rule. -/
def legs (f : Fragment α) : List (Fragment α) := legsFrom f.start [] f.body f.finish

theorem inner_of_mem_legsFrom {read body : List (Element α)} {leg : Fragment α}
    (hread : read.filterMap Element.join? = []) (h : leg ∈ legsFrom start read body finish) :
    leg.inner = [] := by
  induction body generalizing start read with
  | nil =>
      rw [List.mem_singleton.1 h]
      exact hread
  | cons x body ih =>
      cases x with
      | step s =>
          refine ih ?_ h
          rw [List.filterMap_append, hread]
          rfl
      | join r =>
          rcases List.mem_cons.1 h with rfl | h
          · exact hread
          · exact ih rfl h

theorem inner_of_mem_legs {f leg : Fragment α} (h : leg ∈ f.legs) : leg.inner = [] :=
  inner_of_mem_legsFrom rfl h

end Fragment

/-- To add the rules that stand for a rule is to add the rule, if it
arrives somewhere. -/
theorem Draft.foldl_add_legsFrom (start : Start α) (read body : List (Element α))
    (hfinish : finish ≠ none) (d : Draft α) :
    (Fragment.legsFrom start read body finish).foldl add d
      = d.add ⟨start, read ++ body, finish⟩ := by
  induction body generalizing start read d with
  | nil =>
      rw [List.append_nil]
      rfl
  | cons x body ih =>
      cases x with
      | step s =>
          rw [Fragment.legsFrom, ih, List.append_assoc]
          rfl
      | join r =>
          rw [Fragment.legsFrom, List.foldl_cons, ih, List.nil_append,
            add_split d (.inr hfinish)]

/-- Rules that all arrive somewhere can be written without a join in any
body. -/
theorem stitch_legs {fs : List (Fragment α)} (harrive : ∀ f ∈ fs, f.finish ≠ none) :
    stitch (fs.flatMap Fragment.legs) = stitch fs
      ∧ ∀ leg ∈ fs.flatMap Fragment.legs, leg.inner = [] := by
  constructor
  · have hrun : ∀ d : Draft α,
        (fs.flatMap Fragment.legs).foldl Draft.add d = fs.foldl Draft.add d := by
      induction fs with
      | nil => exact fun d => rfl
      | cons f fs ih =>
          intro d
          rw [List.forall_mem_cons] at harrive
          rw [List.flatMap_cons, List.foldl_append, List.foldl_cons, Fragment.legs,
            Draft.foldl_add_legsFrom f.start [] f.body harrive.1, List.nil_append]
          exact ih harrive.2 (d.add f)
    exact congrArg Draft.stitched (hrun {})
  · intro leg hleg
    obtain ⟨f, -, hleg⟩ := List.mem_flatMap.1 hleg
    exact Fragment.inner_of_mem_legs hleg

end RecipeChart
