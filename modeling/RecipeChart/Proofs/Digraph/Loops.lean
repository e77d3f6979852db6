/-
Loops where every node has one way on at most. From each node there is
then a single way to follow. Either it comes to an end, or it runs into a
loop, and never both: the way on from a loop stays on the loop.

A loop has no beginning, so it is said as a cycle, a list up to rotation.
Each node is on one loop at most, and a way runs into one loop at most.

The depth-first search follows the way from its start. Its path holds the
nodes behind it, which are different from one another and are all left by
an arrow, so the path is never longer than the list of arrows and the
search does not run out of fuel. It is clear exactly when the way comes to
an end. What earlier starts have reached is closed under arrows, so a loop
is either reached as a whole or not at all: each loop is reported for the
first start whose way runs into it, and for no other.
-/
import Mathlib.Data.List.Cycle
import Mathlib.Data.List.Perm.Subperm
import Mathlib.Data.List.TakeWhile
import RecipeChart.Proofs.Digraph.Reach
import RecipeChart.Proofs.Repeats

namespace RecipeChart.Digraph

open Relation

variable {g : Digraph} {u v w : Int}

-- ========================================================== single ways

/-- Every node is left by one arrow at most. -/
def Single (g : Digraph) : Prop := (g.arrows.map Prod.fst).Nodup

/-- The way from the node comes to an end. -/
def Ends (g : Digraph) (v : Int) : Prop := ∃ e, ReflTransGen g.Arrow v e ∧ ∀ w, ¬ g.Arrow e w

/-- A node has one way on at most. -/
theorem Single.unique (hg : g.Single) (h : g.Arrow v w) (h' : g.Arrow v u) : w = u := by
  have hsame := List.inj_on_of_nodup_map hg h h' rfl
  exact congrArg Prod.snd hsame

theorem Single.nodup_arrows (hg : g.Single) : g.arrows.Nodup := hg.of_map

/-- Where an arrow leaves, its end is all that the search goes on to. -/
theorem Single.next_eq (hg : g.Single) (h : g.Arrow v w) : g.next v = [w] := by
  have hlength : (g.next v).length ≤ 1 := by
    rw [next, List.length_map]
    exact nodup_map_iff.1 hg v
  have hmem : w ∈ g.next v := g.mem_next.2 h
  cases hnext : g.next v with
  | nil =>
      rw [hnext] at hmem
      cases hmem
  | cons x rest =>
      rw [hnext, List.length_cons] at hlength
      have hrest : rest = [] := List.eq_nil_of_length_eq_zero (by omega)
      rw [hnext, hrest] at hmem
      rw [hrest, List.mem_singleton.1 hmem]

/-- The search has nothing to go on to where no arrow leaves. -/
theorem next_eq_nil_iff : g.next v = [] ↔ ∀ w, ¬ g.Arrow v w := by
  rw [List.eq_nil_iff_forall_not_mem]
  simp only [mem_next]
  rfl

/-- A way that comes to an end does so from the node before. -/
theorem Ends.head (h : g.Arrow v w) (hw : g.Ends w) : g.Ends v := by
  obtain ⟨e, hpath, hend⟩ := hw
  exact ⟨e, .head h hpath, hend⟩

/-- What lies on a way that comes to an end has a way that does. -/
theorem Ends.of_path (hg : g.Single) (hv : g.Ends v) (h : ReflTransGen g.Arrow v w) :
    g.Ends w := by
  obtain ⟨e, hpath, hend⟩ := hv
  have hunique : Relator.RightUnique g.Arrow := fun _ _ _ h h' => hg.unique h h'
  rcases ReflTransGen.total_of_right_unique hunique hpath h with hew | hwe
  · -- the way does not go on behind its end
    rcases hew.cases_head with rfl | ⟨x, hx, -⟩
    · exact ⟨e, .refl, hend⟩
    · exact absurd hx (hend x)
  · exact ⟨e, hwe, hend⟩

/-- A way that comes to an end runs through no loop. -/
theorem Ends.not_loop (hg : g.Single) (hv : g.Ends v) : ¬ TransGen g.Arrow v v := by
  obtain ⟨e, hpath, hend⟩ := hv
  induction hpath using ReflTransGen.head_induction_on with
  | refl =>
      intro hloop
      obtain ⟨x, hx, -⟩ := TransGen.head'_iff.1 hloop
      exact hend x hx
  | @head v x hvx _ ih =>
      intro hloop
      obtain ⟨y, hvy, hyv⟩ := TransGen.head'_iff.1 hloop
      have hsame := hg.unique hvx hvy
      subst hsame
      exact ih (TransGen.tail' hyv hvx)

-- =============================================================== loops

/-- Arrows lead around and back, and no node is met twice. -/
structure IsRound (g : Digraph) (c : Cycle Int) : Prop where
  ne_nil : c ≠ Cycle.nil
  nodup : c.Nodup
  chain : c.Chain g.Arrow

/-- The way from the node runs into the loop. -/
def RunsInto (g : Digraph) (v : Int) (c : Cycle Int) : Prop :=
  ∃ x ∈ c, ReflTransGen g.Arrow v x

/-- A cycle can be cut open at each of its nodes. -/
theorem exists_cut {c : Cycle Int} (h : v ∈ c) : ∃ around : List Int, c = ↑(v :: around) := by
  induction c using Quotient.inductionOn' with
  | h l =>
      obtain ⟨pre, post, rfl⟩ := List.append_of_mem (Cycle.mem_coe_iff.1 h)
      exact ⟨post ++ pre, Cycle.coe_eq_coe.2 List.isRotated_append⟩

/-- Along a chain of arrows every node is reached from the first. -/
theorem transGen_of_isChain {l : List Int} (h : (v :: l).IsChain g.Arrow) :
    ∀ w ∈ l, TransGen g.Arrow v w := by
  induction l generalizing v with
  | nil => exact fun w hw => absurd hw List.not_mem_nil
  | cons x l ih =>
      rw [List.isChain_cons_cons] at h
      intro w hw
      rcases List.mem_cons.1 hw with rfl | hw
      · exact .single h.1
      · exact .head h.1 (ih h.2 w hw)

namespace IsRound

variable {c c' : Cycle Int}

/-- From a node of a loop one comes to all of its nodes, and back. -/
theorem leads (h : g.IsRound c) (hv : v ∈ c) (hw : w ∈ c) : TransGen g.Arrow v w := by
  obtain ⟨around, rfl⟩ := exists_cut hv
  have hchain := (Cycle.chain_coe_cons _ _ _).1 h.chain
  refine transGen_of_isChain hchain w ?_
  rcases List.mem_cons.1 (Cycle.mem_coe_iff.1 hw) with rfl | hw
  · exact List.mem_append_right _ List.mem_cons_self
  · exact List.mem_append_left _ hw

/-- A loop has some node on it. -/
theorem exists_mem (h : g.IsRound c) : ∃ v, v ∈ c := by
  induction c using Quotient.inductionOn' with
  | h l =>
      have hne : l ≠ [] := fun hnil => h.ne_nil ((Cycle.coe_eq_nil l).2 hnil)
      obtain ⟨v, hv⟩ := List.exists_mem_of_ne_nil l hne
      exact ⟨v, Cycle.mem_coe_iff.2 hv⟩

/-- From every node of a loop an arrow leads on. -/
theorem exists_arrow (h : g.IsRound c) (hv : v ∈ c) : ∃ w, g.Arrow v w := by
  obtain ⟨w, hw, -⟩ := TransGen.head'_iff.1 (h.leads hv hv)
  exact ⟨w, hw⟩

/-- Arrows stay on the loop. -/
theorem mem_of_arrow (h : g.IsRound c) (hg : g.Single) (hv : v ∈ c) (hvw : g.Arrow v w) :
    w ∈ c := by
  obtain ⟨around, rfl⟩ := exists_cut hv
  have hchain := (Cycle.chain_coe_cons _ _ _).1 h.chain
  rw [Cycle.mem_coe_iff]
  cases around with
  | nil =>
      rw [List.nil_append, List.isChain_pair] at hchain
      rw [hg.unique hvw hchain]
      exact List.mem_cons_self
  | cons x around =>
      rw [List.cons_append, List.isChain_cons_cons] at hchain
      rw [hg.unique hvw hchain.1]
      exact List.mem_cons_of_mem _ List.mem_cons_self

/-- The way on from a loop stays on the loop. -/
theorem mem_of_path (h : g.IsRound c) (hg : g.Single) (hv : v ∈ c)
    (hvw : ReflTransGen g.Arrow v w) : w ∈ c := by
  induction hvw with
  | refl => exact hv
  | tail _ harrow ih => exact h.mem_of_arrow hg ih harrow

/-- A way that runs into a loop does not come to an end. -/
theorem not_ends (h : g.IsRound c) (hg : g.Single) (hv : g.RunsInto v c) : ¬ g.Ends v := by
  obtain ⟨x, hx, hpath⟩ := hv
  exact fun hends => (hends.of_path hg hpath).not_loop hg (h.leads hx hx)

/-- A loop is carried over with its nodes and arrows, if its nodes stay
different. -/
theorem map {g' : Digraph} {f : Int → Int} (h : g.IsRound c)
    (hnodup : ∀ x ∈ c, ∀ y ∈ c, f x = f y → x = y)
    (harrow : ∀ x ∈ c, ∀ y ∈ c, g.Arrow x y → g'.Arrow (f x) (f y)) : g'.IsRound (c.map f) := by
  obtain ⟨x, hx⟩ := h.exists_mem
  obtain ⟨around, rfl⟩ := exists_cut hx
  simp only [Cycle.mem_coe_iff] at hnodup harrow
  refine ⟨fun hnil => h.ne_nil ((Cycle.map_eq_nil _ _).1 hnil), ?_, ?_⟩
  · rw [Cycle.map_coe, Cycle.nodup_coe_iff]
    exact (Cycle.nodup_coe_iff.1 h.nodup).map_on hnodup
  · rw [Cycle.chain_map, Cycle.chain_coe_cons]
    refine ((Cycle.chain_coe_cons _ _ _).1 h.chain).imp_of_mem_imp fun a b ha hb hab => ?_
    have hmem : ∀ {y}, y ∈ x :: (around ++ [x]) → y ∈ x :: around := by
      intro y hy
      rw [← List.cons_append] at hy
      rcases List.mem_append.1 hy with hy | hy
      · exact hy
      · rw [List.mem_singleton.1 hy]
        exact List.mem_cons_self
    exact harrow a (hmem ha) b (hmem hb) hab

end IsRound

/-- Two ways that first come back to a node at their ends, from one and
the same node, are the same. -/
theorem Single.eq_of_isChain (hg : g.Single) {l l' : List Int}
    (h : (u :: (l ++ [v])).IsChain g.Arrow) (h' : (u :: (l' ++ [v])).IsChain g.Arrow)
    (hv : v ∉ l) (hv' : v ∉ l') : l = l' := by
  induction l generalizing u l' with
  | nil =>
      cases l' with
      | nil => rfl
      | cons y l' =>
          rw [List.nil_append, List.isChain_pair] at h
          rw [List.cons_append, List.isChain_cons_cons] at h'
          rw [hg.unique h h'.1] at hv'
          exact absurd List.mem_cons_self hv'
  | cons x l ih =>
      rw [List.cons_append, List.isChain_cons_cons] at h
      cases l' with
      | nil =>
          rw [List.nil_append, List.isChain_pair] at h'
          rw [hg.unique h' h.1] at hv
          exact absurd List.mem_cons_self hv
      | cons y l' =>
          rw [List.cons_append, List.isChain_cons_cons] at h'
          have hsame := hg.unique h.1 h'.1
          subst hsame
          rw [List.mem_cons, not_or] at hv hv'
          rw [ih h.2 h'.2 hv.2 hv'.2]

/-- A node is on one loop at most. -/
theorem IsRound.unique {c c' : Cycle Int} (h : g.IsRound c) (h' : g.IsRound c') (hg : g.Single)
    (hv : v ∈ c) (hv' : v ∈ c') : c = c' := by
  obtain ⟨around, rfl⟩ := exists_cut hv
  obtain ⟨around', rfl⟩ := exists_cut hv'
  have hnodup := List.nodup_cons.1 (Cycle.nodup_coe_iff.1 h.nodup)
  have hnodup' := List.nodup_cons.1 (Cycle.nodup_coe_iff.1 h'.nodup)
  have hchain := (Cycle.chain_coe_cons _ _ _).1 h.chain
  have hchain' := (Cycle.chain_coe_cons _ _ _).1 h'.chain
  rw [hg.eq_of_isChain hchain hchain' hnodup.1 hnodup'.1]

/-- A way runs into one loop at most. -/
theorem RunsInto.unique {c c' : Cycle Int} (hv : g.RunsInto v c) (hv' : g.RunsInto v c')
    (h : g.IsRound c) (h' : g.IsRound c') (hg : g.Single) : c = c' := by
  obtain ⟨x, hx, hpath⟩ := hv
  obtain ⟨x', hx', hpath'⟩ := hv'
  have hunique : Relator.RightUnique g.Arrow := fun _ _ _ h h' => hg.unique h h'
  rcases ReflTransGen.total_of_right_unique hunique hpath hpath' with hway | hway
  · exact h.unique h' hg (h.mem_of_path hg hx hway) hx'
  · exact h.unique h' hg hx (h'.mem_of_path hg hx' hway)

-- =============================================================== search

/-- The nodes behind the search: different from one another, each with an
arrow to the next, and the nearest with one to where the search stands. -/
structure Behind (g : Digraph) (path : List Int) (u : Int) : Prop where
  nodup : (u :: path).Nodup
  chain : (u :: path).IsChain fun x y => g.Arrow y x

/-- Where the search begins nothing is behind it. -/
theorem Behind.nil (g : Digraph) (u : Int) : Behind g [] u :=
  ⟨List.nodup_singleton u, .singleton u⟩

/-- The search moves on along an arrow to a node that it has not met. -/
theorem Behind.cons {path : List Int} (h : Behind g path u) (huv : g.Arrow u v)
    (hv : v ∉ u :: path) : Behind g (u :: path) v :=
  ⟨List.nodup_cons.2 ⟨hv, h.nodup⟩, List.isChain_cons_cons.2 ⟨huv, h.chain⟩⟩

/-- There are no more nodes behind the search than arrows. -/
theorem Behind.length_le {path : List Int} (h : Behind g path u) :
    path.length ≤ g.arrows.length := by
  have hsubset : path ⊆ g.arrows.map Prod.fst := by
    have hchain := h.chain
    clear h
    induction path generalizing u with
    | nil => exact List.nil_subset _
    | cons x path ih =>
        rw [List.isChain_cons_cons] at hchain
        exact List.cons_subset.2 ⟨List.mem_map.2 ⟨(x, u), hchain.1, rfl⟩, ih hchain.2⟩
  have hle := (List.subperm_of_subset (List.nodup_cons.1 h.nodup).2 hsubset).length_le
  rwa [List.length_map] at hle

/-- A list, split at a member where it stands first. -/
theorem takeWhile_append_of_mem {l : List Int} (h : v ∈ l) :
    v ∉ l.takeWhile (· ≠ v) ∧ ∃ rest, l.takeWhile (· ≠ v) ++ v :: rest = l := by
  constructor
  · intro hmem
    have hall := List.all_eq_true.1 (List.all_takeWhile (p := (· ≠ v)) (l := l)) v hmem
    simp at hall
  · cases hdrop : l.dropWhile (· ≠ v) with
    | nil =>
        rw [List.dropWhile_eq_nil_iff] at hdrop
        have hne := hdrop v h
        simp at hne
    | cons x rest =>
        have hhead := List.head?_dropWhile_not (· ≠ v) l
        rw [hdrop] at hhead
        simp at hhead
        subst hhead
        exact ⟨rest, by rw [← hdrop, List.takeWhile_append_dropWhile]⟩

/-- Where the way comes back to a node behind the search, it has gone
around a loop. -/
theorem Behind.isRound {path : List Int} (h : Behind g path u) (huv : g.Arrow u v)
    (hv : v ∈ u :: path) :
    g.IsRound ↑(v :: ((u :: path).takeWhile (· ≠ v)).reverse) := by
  obtain ⟨hstop, rest, hsplit⟩ := takeWhile_append_of_mem hv
  have hfirst : (v :: ((u :: path).takeWhile (· ≠ v) ++ [v])) <+: v :: u :: path := by
    refine List.cons_prefix_cons.2 ⟨rfl, rest, ?_⟩
    rw [List.append_assoc, List.singleton_append, hsplit]
  refine ⟨fun hnil => ?_, ?_, ?_⟩
  · rw [Cycle.coe_eq_nil] at hnil
    cases hnil
  · rw [Cycle.nodup_coe_iff, List.nodup_cons, List.mem_reverse, List.nodup_reverse]
    exact ⟨hstop, h.nodup.sublist (List.takeWhile_sublist _)⟩
  · rw [Cycle.chain_coe_cons]
    -- read backwards, the arrows lead from the node up the path to itself
    have hchain : (v :: u :: path).IsChain fun x y => g.Arrow y x :=
      List.isChain_cons_cons.2 ⟨huv, h.chain⟩
    have hup := List.IsChain.prefix hchain hfirst
    have hround := List.isChain_reverse.2 hup
    simpa using hround

/-- Where no arrow leaves, the search is clear. -/
theorem search_of_end {fuel : Nat} {path done : List Int} (h : g.next u = []) :
    search g.next (fuel + 1) path done u = .clear (u :: done) := by
  rw [search, h]
  rfl

/-- Where an arrow leaves, the search has found a loop if it has met the end
of the arrow before; else it goes on from there. -/
theorem search_of_next {fuel : Nat} {path : List Int} (h : g.next u = [v]) :
    search g.next (fuel + 1) path [] u
      = if v ∈ u :: path then .loop (v :: ((u :: path).takeWhile (· ≠ v)).reverse)
        else (search g.next fuel (u :: path) [] v).andThen fun done => .clear (u :: done) := by
  rw [search, h]
  by_cases hv : v ∈ u :: path
  · simp only [List.foldl_cons, List.foldl_nil, Search.andThen, if_pos hv]
  · simp only [List.foldl_cons, List.foldl_nil, Search.andThen, if_neg hv, List.not_mem_nil,
      if_false]

/-- With enough fuel the search is clear if the way comes to an end, and
otherwise finds the loop that the way runs into. -/
theorem search_spec (hg : g.Single) {fuel : Nat} {path : List Int} (h : Behind g path u)
    (hfuel : g.arrows.length < path.length + fuel) :
    (∃ done, search g.next fuel path [] u = .clear done ∧ g.Ends u)
      ∨ ∃ w around, search g.next fuel path [] u = .loop (w :: around)
        ∧ ReflTransGen g.Arrow u w ∧ g.IsRound ↑(w :: around) := by
  induction fuel generalizing path u with
  | zero =>
      have := h.length_le
      omega
  | succ fuel ih =>
      cases hnext : g.next u with
      | nil => exact .inl ⟨_, search_of_end hnext, u, .refl, next_eq_nil_iff.1 hnext⟩
      | cons v rest =>
          have huv : g.Arrow u v := by
            have hmem : v ∈ g.next u := by
              rw [hnext]
              exact List.mem_cons_self
            exact g.mem_next.1 hmem
          rw [search_of_next (hg.next_eq huv)]
          by_cases hv : v ∈ u :: path
          · -- the way has come back to a node behind the search
            rw [if_pos hv]
            exact .inr ⟨v, _, rfl, .single huv, h.isRound huv hv⟩
          · rw [if_neg hv]
            have hfuel' : g.arrows.length < (u :: path).length + fuel := by
              rw [List.length_cons]
              omega
            rcases ih (h.cons huv hv) hfuel' with
              ⟨done, hsearch, hend⟩ | ⟨w, around, hsearch, hpath, hround⟩
            · rw [hsearch]
              exact .inl ⟨u :: done, rfl, hend.head huv⟩
            · rw [hsearch]
              exact .inr ⟨w, around, rfl, .head huv hpath, hround⟩

/-- Either the way from a node comes to an end, or the loop that it runs
into is found. -/
theorem loopFrom?_spec (hg : g.Single) (v : Int) :
    (g.loopFrom? v = none ∧ g.Ends v)
      ∨ ∃ w around, g.loopFrom? v = some (w :: around) ∧ ReflTransGen g.Arrow v w
        ∧ g.IsRound ↑(w :: around) := by
  have hfuel : g.arrows.length < ([] : List Int).length + (g.arrows.length + 1) := by
    rw [List.length_nil]
    omega
  rcases search_spec hg (Behind.nil g v) hfuel with
    ⟨done, hsearch, hend⟩ | ⟨w, around, hsearch, hpath, hround⟩
  · left
    rw [loopFrom?, hsearch]
    exact ⟨rfl, hend⟩
  · right
    rw [loopFrom?, hsearch]
    exact ⟨w, around, rfl, hpath, hround⟩

-- ============================================================== reports

/-- No arrow leads out of what was reached. -/
def Closed (g : Digraph) (reached : List Int) : Prop :=
  ∀ u ∈ reached, ∀ w, g.Arrow u w → w ∈ reached

/-- The loops that are reported, without their beginnings. -/
def reports (g : Digraph) (starts reached : List Int) : List (Cycle Int) :=
  (g.loops starts reached).map fun loop : List Int => (loop : Cycle Int)

section Reports

variable {starts reached : List Int} {c : Cycle Int}

/-- No way leads out of what was reached. -/
theorem Closed.mem_of_path (h : g.Closed reached) (hv : v ∈ reached)
    (hvw : ReflTransGen g.Arrow v w) : w ∈ reached := by
  induction hvw with
  | refl => exact hv
  | tail _ harrow ih => exact h _ ih _ harrow

/-- It stays so with all that a further start reaches. -/
theorem Closed.append_reach (h : g.Closed reached) (v : Int) :
    g.Closed (reached ++ g.reach v) := by
  intro u hu w huw
  rcases List.mem_append.1 hu with hu | hu
  · exact List.mem_append_left _ (h u hu w huw)
  · exact List.mem_append_right _ (g.mem_reach.2 (.tail (g.mem_reach.1 hu) huw))

/-- What was not reached before is reached from the start by the loop
that the way of the start runs into, and by no other. -/
theorem not_mem_append_reach_iff :
    (∀ x ∈ c, x ∉ reached ++ g.reach v) ↔ (∀ x ∈ c, x ∉ reached) ∧ ¬ g.RunsInto v c := by
  simp only [List.mem_append, not_or, mem_reach, RunsInto, not_exists, not_and]
  exact ⟨fun h => ⟨fun x hx => (h x hx).1, fun x hx => (h x hx).2⟩,
    fun h x hx => ⟨h.1 x hx, h.2 x hx⟩⟩

/-- The loops that are reported are those that the starts run into,
unless they were reached before. -/
theorem mem_reports_iff (hg : g.Single) (hreached : g.Closed reached) :
    c ∈ g.reports starts reached
      ↔ g.IsRound c ∧ (∃ v ∈ starts, g.RunsInto v c) ∧ ∀ x ∈ c, x ∉ reached := by
  induction starts generalizing reached with
  | nil => simp [reports, loops]
  | cons v starts ih =>
      have hcons : (∃ u ∈ v :: starts, g.RunsInto u c)
          ↔ g.RunsInto v c ∨ ∃ u ∈ starts, g.RunsInto u c := List.exists_mem_cons_iff _ _ _
      rw [reports, loops, hcons]
      -- A start that was reached before adds nothing, as a loop that it runs into was
      -- reached whole.
      by_cases hv : v ∈ reached
      · rw [if_pos hv, ← reports, ih hreached]
        refine and_congr_right fun _ => ⟨fun h => ⟨.inr h.1, h.2⟩, fun h => ⟨?_, h.2⟩⟩
        refine h.1.resolve_left fun ⟨x, hx, hpath⟩ => ?_
        exact h.2 x hx (hreached.mem_of_path hv hpath)
      · rw [if_neg hv]
        have hmore := ih (hreached.append_reach v)
        rw [not_mem_append_reach_iff] at hmore
        -- Any other way comes to an end or runs into one loop, which is new unless its
        -- first node was reached.
        rcases loopFrom?_spec hg v with ⟨hnone, hends⟩ | ⟨w, around, hsome, hpath, hround⟩
        · simp only [hnone]
          rw [← reports, hmore]
          refine and_congr_right fun hc => ?_
          have hnot : ¬ g.RunsInto v c := fun hv => hc.not_ends hg hv hends
          simp only [hnot, not_false_eq_true, and_true, false_or]
        · have hruns : g.RunsInto v ↑(w :: around) :=
            ⟨w, Cycle.mem_coe_iff.2 List.mem_cons_self, hpath⟩
          simp only [hsome]
          split
          · rename_i hw
            rw [← reports, hmore]
            refine and_congr_right fun hc => ⟨fun h => ⟨.inr h.1, h.2.1⟩, fun h => ?_⟩
            have hnot : ¬ g.RunsInto v c := by
              intro hv
              rw [hv.unique hruns hc hround hg] at h
              exact h.2 w (Cycle.mem_coe_iff.2 List.mem_cons_self) hw
            exact ⟨h.1.resolve_left hnot, h.2, hnot⟩
          · rename_i hw
            rw [List.map_cons, List.mem_cons, ← reports, hmore]
            constructor
            · intro h
              rcases h with rfl | ⟨hc, hstart, hnew, -⟩
              · refine ⟨hround, .inl hruns, fun x hx hmem => hw ?_⟩
                exact hreached.mem_of_path hmem
                  (hround.leads hx (Cycle.mem_coe_iff.2 List.mem_cons_self)).to_reflTransGen
              · exact ⟨hc, .inr hstart, hnew⟩
            · intro ⟨hc, hstart, hnew⟩
              by_cases hv : g.RunsInto v c
              · exact .inl (hv.unique hruns hc hround hg)
              · exact .inr ⟨hc, hstart.resolve_left hv, hnew, hv⟩

/-- No loop is reported twice. -/
theorem nodup_reports (hg : g.Single) (hreached : g.Closed reached) :
    (g.reports starts reached).Nodup := by
  induction starts generalizing reached with
  | nil => exact List.nodup_nil
  | cons v starts ih =>
      have hmore := ih (hreached.append_reach v)
      rw [reports, loops]
      by_cases hv : v ∈ reached
      · rw [if_pos hv]
        exact ih hreached
      · rw [if_neg hv]
        rcases loopFrom?_spec hg v with ⟨hnone, -⟩ | ⟨w, around, hsome, hpath, -⟩
        · simp only [hnone]
          exact hmore
        · simp only [hsome]
          split
          · exact hmore
          · rw [List.map_cons, List.nodup_cons, ← reports,
              mem_reports_iff hg (hreached.append_reach v), not_mem_append_reach_iff]
            refine ⟨fun h => h.2.2.2 ⟨w, Cycle.mem_coe_iff.2 List.mem_cons_self, hpath⟩, hmore⟩

/-- Where nothing was reached nothing is left. -/
theorem Closed.nil (g : Digraph) : g.Closed [] := fun _ hu => absurd hu List.not_mem_nil

/-- From the start of a search, all loops that a way runs into are
reported. -/
theorem mem_reports_nil_iff (hg : g.Single) :
    c ∈ g.reports starts []
      ↔ g.IsRound c ∧ ∃ v ∈ starts, g.RunsInto v c := by
  rw [mem_reports_iff hg (Closed.nil g)]
  simp only [List.not_mem_nil, not_false_eq_true, implies_true, and_true]

/-- What is reported is a loop. -/
theorem isRound_of_mem_loops (hg : g.Single) {loop : List Int} (h : loop ∈ g.loops starts []) :
    g.IsRound loop :=
  ((mem_reports_nil_iff hg).1 (List.mem_map_of_mem h)).1

/-- No loop is reported exactly when all ways from the starts come to an
end. -/
theorem loops_eq_nil_iff (hg : g.Single) :
    g.loops starts [] = [] ↔ ∀ v ∈ starts, g.Ends v := by
  constructor
  · intro hnil v hv
    rcases loopFrom?_spec hg v with ⟨-, hends⟩ | ⟨w, around, -, hpath, hround⟩
    · exact hends
    · have hruns : g.RunsInto v ↑(w :: around) :=
        ⟨w, Cycle.mem_coe_iff.2 List.mem_cons_self, hpath⟩
      have hmem := (mem_reports_nil_iff hg).2 ⟨hround, v, hv, hruns⟩
      rw [reports, hnil] at hmem
      cases hmem
  · intro hall
    by_contra hne
    obtain ⟨loop, hloop⟩ := List.exists_mem_of_ne_nil _ hne
    obtain ⟨hround, v, hv, hruns⟩ := (mem_reports_nil_iff hg).1 (List.mem_map_of_mem hloop)
    exact hround.not_ends hg hruns (hall v hv)

end Reports

end RecipeChart.Digraph
