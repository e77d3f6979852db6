/-
For which start a loop is reported, and where it is cut open. The way from
a start runs along its tail and comes to the loop at one node; that node
comes first in the report. The search knows the tail as the part of its
path behind the node that it has met again, so the path is what the proof
follows: read from the start on, it is the tail and then the loop.

What earlier starts have reached is closed under arrows and holds no node
of a loop that is still to be reported. So no earlier start runs into it,
and the loops are reported in the order of the first starts that do.
-/
import RecipeChart.Proofs.Digraph.Loops
import RecipeChart.Proofs.Traversal

namespace RecipeChart.Digraph

open Relation

variable {g : Digraph} {u v w : Int}

/-- The way from the node comes to the loop at `w`: it has met no node of
the loop before. -/
def Meets (g : Digraph) (v : Int) (c : Cycle Int) (w : Int) : Prop :=
  w ∈ c ∧ ReflTransGen (fun a b => g.Arrow a b ∧ a ∉ c) v w

-- ================================================================ tails

/-- A way comes to a loop once. -/
theorem Meets.unique {c : Cycle Int} (hg : g.Single) (h : g.Meets v c w) (h' : g.Meets v c u) :
    w = u := by
  obtain ⟨hw, hpath⟩ := h
  obtain ⟨hu, hpath'⟩ := h'
  have hunique : Relator.RightUnique fun a b => g.Arrow a b ∧ a ∉ c :=
    fun _ _ _ hab hac => hg.unique hab.1 hac.1
  -- no arrow that is followed leaves a node of the loop
  rcases ReflTransGen.total_of_right_unique hunique hpath hpath' with hway | hway
  · rcases hway.cases_head with rfl | ⟨x, ⟨-, hnot⟩, -⟩
    · rfl
    · exact absurd hw hnot
  · rcases hway.cases_head with rfl | ⟨x, ⟨-, hnot⟩, -⟩
    · rfl
    · exact absurd hu hnot

/-- A way that is its tail and then the loop. -/
theorem meets_of_isChain {tail around : List Int}
    (hnodup : (tail ++ w :: around).Nodup) (hchain : (tail ++ w :: around).IsChain g.Arrow)
    (hhead : (tail ++ w :: around).head? = some v) : g.Meets v ↑(w :: around) w := by
  refine ⟨Cycle.mem_coe_iff.2 List.mem_cons_self, ?_⟩
  induction tail generalizing v with
  | nil =>
      cases hhead
      exact .refl
  | cons x tail ih =>
      cases hhead
      rw [List.cons_append, List.nodup_cons] at hnodup
      have hx : x ∉ (w :: around : Cycle Int) := fun hmem =>
        hnodup.1 (List.mem_append_right _ (Cycle.mem_coe_iff.1 hmem))
      rw [List.cons_append, List.isChain_cons] at hchain
      obtain ⟨y, hy⟩ : ∃ y, (tail ++ w :: around).head? = some y := by
        cases tail with
        | nil => exact ⟨w, rfl⟩
        | cons z tail => exact ⟨z, rfl⟩
      exact .head ⟨hchain.1 y hy, hx⟩ (ih hnodup.2 hchain.2 hy)

/-- The nodes behind the search and those that it goes on to are a tail and
then the loop that it finds. -/
theorem search_walk (hg : g.Single) {fuel : Nat} {path around : List Int} (h : Behind g path u)
    (hsearch : search g.next fuel path [] u = .loop (w :: around)) :
    ∃ tail more, path.reverse ++ u :: more = tail ++ w :: around
      ∧ (tail ++ w :: around).Nodup ∧ (tail ++ w :: around).IsChain g.Arrow := by
  induction fuel generalizing path u with
  | zero => cases hsearch
  | succ fuel ih =>
      cases hnext : g.next u with
      | nil =>
          rw [search_of_end hnext] at hsearch
          cases hsearch
      | cons v rest =>
          have huv : g.Arrow u v := g.mem_next.1 (hnext ▸ List.mem_cons_self)
          rw [search_of_next (hg.next_eq huv)] at hsearch
          by_cases hv : v ∈ u :: path
          · -- what lies behind the node that is met again is the tail
            rw [if_pos hv] at hsearch
            cases hsearch
            obtain ⟨-, rest, hsplit⟩ := takeWhile_append_of_mem hv
            have hway : rest.reverse ++ w :: ((u :: path).takeWhile (· ≠ w)).reverse
                = (u :: path).reverse := by
              conv_rhs => rw [← hsplit]
              rw [List.reverse_append, List.reverse_cons, List.append_assoc]
              rfl
            refine ⟨rest.reverse, [], ?_, ?_, ?_⟩
            · rw [hway, List.reverse_cons]
            · rw [hway, List.nodup_reverse]
              exact h.nodup
            · rw [hway, List.isChain_reverse]
              exact h.chain
          · rw [if_neg hv] at hsearch
            cases hmore : search g.next fuel (u :: path) [] v with
            | clear done =>
                rw [hmore] at hsearch
                cases hsearch
            | loop found =>
                rw [hmore] at hsearch
                cases hsearch
                obtain ⟨tail, more, hway, hnodup, hchain⟩ := ih (h.cons huv hv) hmore
                refine ⟨tail, v :: more, ?_, hnodup, hchain⟩
                rw [← hway, List.reverse_cons, List.append_assoc]
                rfl

/-- The loop that is found from a node is cut open where the way from the
node comes to it. -/
theorem meets_of_loopFrom? (hg : g.Single) {around : List Int}
    (h : g.loopFrom? v = some (w :: around)) : g.Meets v ↑(w :: around) w := by
  unfold loopFrom? at h
  split at h
  · rename_i hsearch
    cases h
    obtain ⟨tail, more, hway, hnodup, hchain⟩ := search_walk hg (Behind.nil g v) hsearch
    refine meets_of_isChain hnodup hchain ?_
    rw [← hway]
    rfl
  · cases h

-- ========================================================= first starts

/-- The loop is reported for this start: no earlier one runs into it, and
the report begins where the way from this one comes to it. -/
structure ReportedFor (g : Digraph) (starts loop : List Int) (v : Int) : Prop where
  first : ∃ earlier later, starts = earlier ++ v :: later ∧ ∀ u ∈ earlier, ¬ g.RunsInto u loop
  meets : ∃ w around, loop = w :: around ∧ g.Meets v loop w

theorem ReportedFor.cons {starts loop : List Int} (h : g.ReportedFor starts loop v)
    (hu : ¬ g.RunsInto u loop) : g.ReportedFor (u :: starts) loop v := by
  obtain ⟨⟨earlier, later, hstarts, hnone⟩, hmeets⟩ := h
  refine ⟨⟨u :: earlier, later, by rw [hstarts]; rfl, fun x hx => ?_⟩, hmeets⟩
  rcases List.mem_cons.1 hx with rfl | hx
  · exact hu
  · exact hnone x hx

/-- A start that runs into none of the loops may be put before the others. -/
theorem forall₂_reportedFor_cons {starts heads : List Int} {loops : List (List Int)}
    (h : List.Forall₂ (g.ReportedFor starts) loops heads)
    (hu : ∀ loop ∈ loops, ¬ g.RunsInto u (loop : List Int)) :
    List.Forall₂ (g.ReportedFor (u :: starts)) loops heads :=
  (forall₂_mem_left h).imp fun loop _ hloop => hloop.2.cons (hu loop hloop.1)

/-- Loop by loop there is the start for which it is reported, and these
starts come in their order. -/
theorem exists_heads (hg : g.Single) {starts reached : List Int} (hreached : g.Closed reached) :
    ∃ heads, heads.Sublist starts
      ∧ List.Forall₂ (g.ReportedFor starts) (g.loops starts reached) heads := by
  have hnew : ∀ {starts reached : List Int}, g.Closed reached →
      ∀ loop ∈ g.loops starts reached, ∀ x ∈ (loop : Cycle Int), x ∉ reached := by
    intro starts reached hreached loop hloop
    exact ((mem_reports_iff hg hreached).1 (List.mem_map_of_mem hloop)).2.2
  induction starts generalizing reached with
  | nil => exact ⟨[], .slnil, .nil⟩
  | cons v starts ih =>
      rw [loops]
      by_cases hv : v ∈ reached
      · rw [if_pos hv]
        -- What is met from a vertex that was reached has been reached
        -- itself.
        obtain ⟨heads, hsub, hall⟩ := ih hreached
        refine ⟨heads, hsub.cons v, forall₂_reportedFor_cons hall fun loop hloop => ?_⟩
        rintro ⟨x, hx, hpath⟩
        exact hnew hreached loop hloop x hx (hreached.mem_of_path hv hpath)
      · rw [if_neg hv]
        have hclosed := hreached.append_reach v
        obtain ⟨heads, hsub, hall⟩ := ih hclosed
        have hmore : List.Forall₂ (g.ReportedFor (v :: starts))
            (g.loops starts (reached ++ g.reach v)) heads :=
          forall₂_reportedFor_cons hall fun loop hloop =>
            (not_mem_append_reach_iff.1 (hnew hclosed loop hloop)).2
        rcases loopFrom?_spec hg v with ⟨hnone, -⟩ | ⟨w, around, hsome, -, -⟩
        · simp only [hnone]
          exact ⟨heads, hsub.cons v, hmore⟩
        · simp only [hsome]
          split
          · exact ⟨heads, hsub.cons v, hmore⟩
          · refine ⟨v :: heads, hsub.cons_cons v, .cons ?_ hmore⟩
            exact ⟨⟨[], starts, rfl, fun u hu => absurd hu List.not_mem_nil⟩, w, around, rfl,
              meets_of_loopFrom? hg hsome⟩

end RecipeChart.Digraph
