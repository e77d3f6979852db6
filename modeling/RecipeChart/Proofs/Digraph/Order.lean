/-
The order in which a digraph is taken apart. Where every way comes to an
end, a node is so many arrows away from its end, and each arrow brings
one nearer. Among the nodes that are left, one that is farthest away is
entered by no arrow, so there is always a node to take: the order has all
nodes, and each arrow leads from an earlier node to a later one.

Of all such orders it is the smallest, compared from the front. Whatever
stands first in another one is entered by no arrow either, and the node
that is taken is the smallest of these; if they are the same, what is left
is compared in the same way.

The test for a tree asks for one arrow less than there are nodes. Then
some node is left by no arrow, and from there the ways of all others come
in, as all are tied to it and a node has one way on only.
-/
import Mathlib.Data.Finset.Max
import Mathlib.Data.List.Sort
import RecipeChart.Proofs.Digraph.Loops

namespace RecipeChart.Digraph

open Relation

variable {g : Digraph} {u v w : Int}

-- ============================================================ distance

/-- How many arrows there are from the node to where its way ends. -/
inductive Away (g : Digraph) : Nat → Int → Prop where
  | stop {v : Int} (h : ∀ w, ¬ g.Arrow v w) : Away g 0 v
  | step {n : Nat} {v w : Int} (h : g.Arrow v w) (hw : Away g n w) : Away g (n + 1) v

theorem Away.unique (hg : g.Single) {m n : Nat} (hm : g.Away m v) (hn : g.Away n v) :
    m = n := by
  induction hm generalizing n with
  | stop h =>
      cases hn with
      | stop => rfl
      | step h' => exact absurd h' (h _)
  | step h _ ih =>
      cases hn with
      | stop h' => exact absurd h (h' _)
      | step h' hw' =>
          have hsame := hg.unique h h'
          subst hsame
          rw [ih hw']

theorem Ends.exists_away (h : g.Ends v) : ∃ n, g.Away n v := by
  obtain ⟨e, hpath, hend⟩ := h
  induction hpath using ReflTransGen.head_induction_on with
  | refl => exact ⟨0, .stop hend⟩
  | head h _ ih =>
      obtain ⟨n, hn⟩ := ih
      exact ⟨n + 1, .step h hn⟩

/-- Does each arrow lead from a node of greater rank to one of smaller? -/
def Falls (rank : Int → Nat) (arrows : List (Int × Int)) : Prop :=
  ∀ a ∈ arrows, rank a.2 < rank a.1

/-- Where all ways end there is a rank along which the arrows fall. -/
theorem Single.exists_falls (hg : g.Single) (h : ∀ a ∈ g.arrows, g.Ends a.1) :
    ∃ rank, Falls rank g.arrows := by
  classical
  refine ⟨fun v => if hv : ∃ n, g.Away n v then hv.choose else 0, fun a ha => ?_⟩
  have harrow : g.Arrow a.1 a.2 := ha
  have htarget : ∃ n, g.Away n a.2 :=
    ((h a ha).of_path hg (.single harrow)).exists_away
  have hsource : ∃ n, g.Away n a.1 := (h a ha).exists_away
  simp only [dif_pos htarget, dif_pos hsource]
  have hsame := hsource.choose_spec.unique hg (.step harrow htarget.choose_spec)
  omega

-- =============================================================== order

/-- Does every arrow lead forward in the order? -/
def Forward (arrows : List (Int × Int)) (order : List Int) : Prop :=
  ∀ a ∈ arrows, ∀ pre post, order = pre ++ a.2 :: post → a.1 ∈ pre

/-- Arrows lead forward where the source of each is met before its
target. -/
theorem forward_of_idxOf_lt {arrows : List (Int × Int)} {order : List Int}
    (h : ∀ a ∈ arrows, order.idxOf a.1 < order.idxOf a.2) : Forward arrows order := by
  intro a ha pre post hsplit
  have hlt := h a ha
  by_contra hnot
  rw [hsplit, List.idxOf_append_of_notMem hnot] at hlt
  by_cases htarget : a.2 ∈ pre
  · rw [List.idxOf_append_of_mem htarget] at hlt
    have hpre := List.idxOf_lt_length_of_mem htarget
    omega
  · rw [List.idxOf_append_of_notMem htarget, List.idxOf_cons_self] at hlt
    omega

/-- Where arrows lead forward, none leads back from a node to the node
itself or to one before it. -/
theorem Forward.not_mem {arrows : List (Int × Int)} {earlier later : List Int}
    (h : Forward arrows (earlier ++ v :: later)) (hv : v ∉ earlier) (harrow : (v, w) ∈ arrows) :
    w ∉ earlier ++ [v] := by
  intro hw
  obtain ⟨pre, post, hsplit⟩ := List.append_of_mem hw
  have horder : earlier ++ v :: later = pre ++ w :: (post ++ later) := by
    rw [← List.singleton_append, ← List.append_assoc, hsplit, List.append_assoc]
    rfl
  -- the source of an arrow to it would stand earlier still
  have hpre : v ∈ pre := h (v, w) harrow pre _ horder
  rcases List.append_eq_append_iff.1 hsplit with ⟨more, hmore, htail⟩ | ⟨more, hmore, -⟩
  · cases more with
    | nil =>
        rw [List.append_nil] at hmore
        rw [hmore] at hpre
        exact hv hpre
    | cons x more =>
        rw [List.cons_append] at htail
        injection htail with _ hnil
        simp at hnil
  · rw [hmore] at hv
    exact hv (List.mem_append_left _ hpre)

/-- Among nodes that the arrows leave there is one that none enters. -/
theorem exists_first {rank : Int → Nat} {nodes : List Int} {arrows : List (Int × Int)}
    (hfalls : Falls rank arrows) (hsources : ∀ a ∈ arrows, a.1 ∈ nodes) (hnodes : nodes ≠ []) :
    ∃ v ∈ nodes, ∀ a ∈ arrows, a.2 ≠ v := by
  have hfinset : nodes.toFinset.Nonempty := by
    rwa [List.toFinset_nonempty_iff]
  obtain ⟨v, hv, hmax⟩ := nodes.toFinset.exists_max_image rank hfinset
  refine ⟨v, List.mem_toFinset.1 hv, fun a ha heq => ?_⟩
  have hlow := hmax a.1 (List.mem_toFinset.2 (hsources a ha))
  have hhigh := hfalls a ha
  rw [heq] at hhigh
  omega

theorem eq_nil_of_find?_eq_none {rank : Int → Nat} {nodes : List Int} {arrows : List (Int × Int)}
    (hfalls : Falls rank arrows) (hsources : ∀ a ∈ arrows, a.1 ∈ nodes)
    (hfind : (nodes.find? fun v => arrows.all (·.2 ≠ v)) = none) : nodes = [] := by
  by_contra hne
  obtain ⟨v, hv, hfree⟩ := exists_first hfalls hsources hne
  have hblocked := List.find?_eq_none.1 hfind v hv
  apply hblocked
  rw [List.all_eq_true]
  intro a ha
  exact decide_eq_true (hfree a ha)

/-- A node that no arrow enters may stand first. -/
theorem Forward.cons {arrows : List (Int × Int)} {order : List Int}
    (h : Forward (arrows.filter (·.1 ≠ v)) order) (hfree : ∀ a ∈ arrows, a.2 ≠ v) :
    Forward arrows (v :: order) := by
  intro a ha pre post hsplit
  cases pre with
  | nil =>
      rw [List.nil_append] at hsplit
      injection hsplit with hhead
      exact absurd hhead.symm (hfree a ha)
  | cons x pre =>
      rw [List.cons_append] at hsplit
      injection hsplit with hhead htail
      subst hhead
      by_cases hsource : a.1 = v
      · rw [hsource]
        exact List.mem_cons_self
      · have hleft : a ∈ arrows.filter (·.1 ≠ v) :=
          List.mem_filter.2 ⟨ha, decide_eq_true hsource⟩
        exact List.mem_cons_of_mem v (h a hleft pre post htail)

/-- Peeling gives all nodes, in an order in which the arrows lead
forward. -/
theorem peel_spec {rank : Int → Nat} {fuel : Nat} {nodes : List Int} {arrows : List (Int × Int)}
    (hfalls : Falls rank arrows) (hsources : ∀ a ∈ arrows, a.1 ∈ nodes)
    (hfuel : nodes.length ≤ fuel) :
    (peel fuel nodes arrows).Perm nodes ∧ Forward arrows (peel fuel nodes arrows) := by
  induction fuel generalizing nodes arrows with
  | zero =>
      have hempty : nodes = [] := List.eq_nil_of_length_eq_zero (by omega)
      subst hempty
      refine ⟨.nil, fun a ha => ?_⟩
      exact absurd (hsources a ha) List.not_mem_nil
  | succ fuel ih =>
      rw [peel]
      cases hfind : nodes.find? fun v => arrows.all (·.2 ≠ v) with
      -- Ranks fall along arrows, so among any nodes there is one that nothing leads into.
      | none =>
          have hempty := eq_nil_of_find?_eq_none hfalls hsources hfind
          subst hempty
          refine ⟨.nil, fun a ha => ?_⟩
          exact absurd (hsources a ha) List.not_mem_nil
      | some v =>
          have hv : v ∈ nodes := List.mem_of_find?_eq_some hfind
          have hfree : ∀ a ∈ arrows, a.2 ≠ v := by
            intro a ha
            have hall := List.find?_some hfind
            rw [List.all_eq_true] at hall
            exact of_decide_eq_true (hall a ha)
          have hfalls' : Falls rank (arrows.filter (·.1 ≠ v)) := fun a ha =>
            hfalls a (List.mem_of_mem_filter ha)
          have hsources' : ∀ a ∈ arrows.filter (·.1 ≠ v), a.1 ∈ nodes.erase v := by
            intro a ha
            rw [List.mem_filter, decide_eq_true_eq] at ha
            exact (List.mem_erase_of_ne ha.2).2 (hsources a ha.1)
          have hfuel' : (nodes.erase v).length ≤ fuel := by
            rw [List.length_erase_of_mem hv]
            omega
          obtain ⟨hperm, hforward⟩ := ih hfalls' hsources' hfuel'
          exact ⟨(hperm.cons v).trans (List.perm_cons_erase hv).symm, hforward.cons hfree⟩

theorem order_spec (hg : g.Single) (hends : ∀ a ∈ g.arrows, g.Ends a.1)
    (hsources : ∀ a ∈ g.arrows, a.1 ∈ g.nodes) :
    g.order.Perm g.nodes ∧ Forward g.arrows g.order := by
  obtain ⟨rank, hfalls⟩ := hg.exists_falls hends
  have hsorted : (g.nodes.mergeSort (· ≤ ·)).Perm g.nodes := List.mergeSort_perm g.nodes _
  have hsources' : ∀ a ∈ g.arrows, a.1 ∈ g.nodes.mergeSort (· ≤ ·) :=
    fun a ha => hsorted.mem_iff.2 (hsources a ha)
  obtain ⟨hperm, hforward⟩ := peel_spec hfalls hsources' (Nat.le_of_eq hsorted.length_eq)
  exact ⟨hperm.trans hsorted, hforward⟩

/-- What stands last in an order of all nodes is left by no arrow. -/
theorem Forward.last_stops {order : List Int} (h : Forward g.arrows order) (hnodup : order.Nodup)
    (htargets : ∀ a ∈ g.arrows, a.2 ∈ order) (hlast : order.getLast? = some v) (w : Int) :
    ¬ g.Arrow v w := by
  obtain ⟨earlier, rfl⟩ := List.getLast?_eq_some_iff.1 hlast
  intro harrow
  have hnew : v ∉ earlier := by
    rw [List.nodup_append] at hnodup
    exact fun hmem => hnodup.2.2 v hmem v List.mem_cons_self rfl
  exact Forward.not_mem h hnew harrow (htargets (v, w) harrow)

-- ============================================================ smallest

/-- Without the node that stands first, arrows lead forward still. -/
theorem Forward.tail {arrows : List (Int × Int)} {order : List Int}
    (h : Forward arrows (v :: order)) : Forward (arrows.filter (·.1 ≠ v)) order := by
  intro a ha pre post hsplit
  rw [List.mem_filter, decide_eq_true_eq] at ha
  have hpre : a.1 ∈ v :: pre := h a ha.1 (v :: pre) post (by rw [hsplit]; rfl)
  exact (List.mem_cons.1 hpre).resolve_left ha.2

/-- Nothing smaller stands before the first hit in a rising list. -/
theorem le_of_find?_eq_some {nodes : List Int} {p : Int → Bool} (hrising : nodes.Pairwise (· ≤ ·))
    (hfind : nodes.find? p = some v) (hw : w ∈ nodes) (hp : p w = true) : v ≤ w := by
  obtain ⟨-, before, after, rfl, hbefore⟩ := List.find?_eq_some_iff_append.1 hfind
  rcases List.mem_append.1 hw with hw | hw
  · have hnot := hbefore w hw
    rw [hp] at hnot
    cases hnot
  · rcases List.mem_cons.1 hw with rfl | hw
    · exact Int.le_refl w
    · exact List.rel_of_pairwise_cons (List.pairwise_append.1 hrising).2.1 hw

theorem nil_smallest (other : List Int) : [] = other ∨ List.Lex (· < ·) [] other := by
  cases other with
  | nil => exact .inl rfl
  | cons w other => exact .inr .nil

/-- Peeling gives an order that, compared from the front, is smaller than
every other one in which the arrows lead forward. -/
theorem peel_smallest {fuel : Nat} {nodes other : List Int} {arrows : List (Int × Int)}
    (hrising : nodes.Pairwise (· ≤ ·)) (hperm : other.Perm nodes)
    (hforward : Forward arrows other) :
    peel fuel nodes arrows = other ∨ List.Lex (· < ·) (peel fuel nodes arrows) other := by
  induction fuel generalizing nodes arrows other with
  | zero => exact nil_smallest other
  | succ fuel ih =>
      rw [peel]
      cases hfind : nodes.find? fun v => arrows.all (·.2 ≠ v) with
      | none => exact nil_smallest other
      | some v =>
          cases other with
          | nil =>
              rw [hperm.symm.eq_nil] at hfind
              cases hfind
          | cons w other =>
              -- nothing stands before the first node, so no arrow enters it
              have hfree : (arrows.all (·.2 ≠ w)) = true := by
                rw [List.all_eq_true]
                refine fun a ha => decide_eq_true fun heq => ?_
                exact List.not_mem_nil (hforward a ha [] other (by rw [heq]; rfl))
              have hw : w ∈ nodes := hperm.mem_iff.1 List.mem_cons_self
              rcases Int.lt_or_eq_of_le (le_of_find?_eq_some hrising hfind hw hfree) with hlt | rfl
              · exact .inr (.rel hlt)
              · have hrest : other.Perm (nodes.erase v) :=
                  (List.cons_perm_iff_perm_erase.1 hperm).2
                rcases ih (hrising.sublist List.erase_sublist) hrest hforward.tail with heq | hless
                · exact .inl (congrArg (v :: ·) heq)
                · exact .inr (.cons hless)

/-- The order is smaller than every other one in which the arrows lead
forward. -/
theorem order_smallest {other : List Int} (hperm : other.Perm g.nodes)
    (hforward : Forward g.arrows other) :
    g.order = other ∨ List.Lex (· < ·) g.order other := by
  have hsorted : (g.nodes.mergeSort (· ≤ ·)).Perm g.nodes := List.mergeSort_perm g.nodes _
  have hrising : (g.nodes.mergeSort (· ≤ ·)).Pairwise (· ≤ ·) :=
    List.pairwise_mergeSort' (· ≤ ·) g.nodes
  exact peel_smallest hrising (hperm.trans hsorted.symm) hforward

-- ================================================================ tree

/-- A graph of single ways that all lead to its first node is a tree, if
it has one arrow less than nodes. -/
theorem Single.isInTree_eq_true (hg : g.Single) {rest : List Int} (hnodes : g.nodes = v :: rest)
    (hcount : g.nodes.length = g.arrows.length + 1)
    (hpath : ∀ u ∈ g.nodes, ReflTransGen g.Arrow u v) : g.isInTree = true := by
  have harrows : g.arrows.eraseDups = g.arrows := eraseDups_eq_self hg.nodup_arrows
  have htied : ∀ u ∈ g.nodes, u ∈ g.component v := by
    intro u hu
    have hway := hpath u hu
    clear hu
    rw [mem_component]
    induction hway using ReflTransGen.head_induction_on with
    | refl => exact .refl
    | head h _ ih => exact ih.tail (.inr h)
  have hsingle : ∀ u, (g.arrows.filter (·.1 = u)).length ≤ 1 := nodup_map_iff.1 hg
  unfold isInTree
  rw [hnodes]
  simp only [harrows, Bool.and_eq_true, List.all_eq_true, decide_eq_true_eq]
  rw [← hnodes]
  exact ⟨⟨hcount, htied⟩, fun u _ => hsingle u⟩

/-- The arrows form one tree that runs into the root: every node has one
way on at most, the root has none, and all ways lead to the root. -/
structure InTree (g : Digraph) (root : Int) : Prop where
  single : g.Single
  stops : ∀ w, ¬ g.Arrow root w
  leads : ∀ v ∈ g.nodes, ReflTransGen g.Arrow v root

/-- What is tied to a root leads to it. -/
theorem Single.path_of_tied (hg : g.Single) {root : Int} (hstop : ∀ w, ¬ g.Arrow root w)
    (htied : ReflTransGen (fun a b => g.Arrow a b ∨ g.Arrow b a) root v) :
    ReflTransGen g.Arrow v root := by
  induction htied with
  | refl => exact .refl
  | @tail u v _ hstep ih =>
      rcases hstep with huv | hvu
      · -- the way of `u` goes over `v`, as `u` has one way on
        rcases ih.cases_head with rfl | ⟨x, hux, hpath⟩
        · exact absurd huv (hstop v)
        · rwa [hg.unique huv hux]
      · exact .head hvu ih

/-- A graph of single ways that passes the test for a tree is one, whatever
its root. -/
theorem Single.exists_inTree (hg : g.Single) (hnodup : g.nodes.Nodup) (htree : g.isInTree = true) :
    ∃ root, g.InTree root := by
  have harrows : g.arrows.eraseDups = g.arrows := eraseDups_eq_self hg.nodup_arrows
  unfold isInTree at htree
  split at htree
  · cases htree
  · rename_i first rest hnodes
    simp only [harrows, Bool.and_eq_true, List.all_eq_true, decide_eq_true_eq] at htree
    obtain ⟨⟨hcount, htied⟩, -⟩ := htree
    -- there are more nodes than arrows, so one of them is no source
    obtain ⟨root, hroot, hnot⟩ : ∃ root ∈ g.nodes, root ∉ g.arrows.map Prod.fst := by
      by_contra hall
      have hsubset : g.nodes ⊆ g.arrows.map Prod.fst := fun u hu =>
        not_not.1 fun hnot => hall ⟨u, hu, hnot⟩
      have hle := (List.subperm_of_subset hnodup hsubset).length_le
      rw [List.length_map] at hle
      omega
    have hstop : ∀ w, ¬ g.Arrow root w := fun w harrow =>
      hnot (List.mem_map.2 ⟨(root, w), harrow, rfl⟩)
    have hsymm : Std.Symm fun a b => g.Arrow a b ∨ g.Arrow b a := ⟨fun _ _ => Or.symm⟩
    have hback : ReflTransGen (fun a b => g.Arrow a b ∨ g.Arrow b a) root first :=
      ReflTransGen.stdSymm.symm _ _ (g.mem_component.1 (htied root hroot))
    exact ⟨root, hg, hstop, fun u hu =>
      hg.path_of_tied hstop (hback.trans (g.mem_component.1 (htied u hu)))⟩

theorem InTree.ends {root : Int} (h : g.InTree root) (hv : v ∈ g.nodes) : g.Ends v :=
  ⟨root, h.leads v hv, h.stops⟩

/-- The root is the only node without a way on. -/
theorem InTree.eq_root {root : Int} (h : g.InTree root) (hv : v ∈ g.nodes)
    (hstop : ∀ w, ¬ g.Arrow v w) : v = root := by
  rcases (h.leads v hv).cases_head with hroot | ⟨x, hx, -⟩
  · exact hroot
  · exact absurd hx (hstop x)

end RecipeChart.Digraph
