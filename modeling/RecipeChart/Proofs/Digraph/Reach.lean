/-
What the closures of a digraph find. A closure works off a list of
waiting nodes. A node that is new is marked and its neighbours join the
list, so everything on the list is reached from where the search began,
and whenever the list runs empty, the neighbours of marked nodes are
marked.

That it runs empty before the fuel does is a matter of accounts. Each
round takes one node from the list. Each arrow puts at most one node on
the list, and does so only once, when the node it leaves is marked. So
the nodes waiting and the arrows still to be followed are together a
bound on the rounds to come, and the fuel that a closure is given pays
for it.
-/
import Mathlib.Logic.Relation
import RecipeChart.Digraph

namespace RecipeChart.Digraph

open Relation

-- ============================================================= closures

section Closure

variable {step : Int → List Int} {fuel : Nat} {waiting seen : List Int} {w : Int}

theorem mem_closure_of_seen (h : w ∈ seen) : w ∈ closure step fuel waiting seen := by
  induction fuel generalizing waiting seen with
  | zero => exact h
  | succ fuel ih =>
      cases waiting with
      | nil => exact h
      | cons v waiting =>
          rw [closure]
          split
          · exact ih h
          · exact ih (List.mem_cons_of_mem v h)

/-- Nothing is marked but what the waiting nodes lead to. -/
theorem closure_sound (h : w ∈ closure step fuel waiting seen) :
    w ∈ seen ∨ ∃ v ∈ waiting, ReflTransGen (fun a b => b ∈ step a) v w := by
  induction fuel generalizing waiting seen with
  | zero => exact .inl h
  | succ fuel ih =>
      cases waiting with
      | nil => exact .inl h
      | cons v waiting =>
          rw [closure] at h
          by_cases hv : v ∈ seen
          · rw [if_pos hv] at h
            rcases ih h with hw | ⟨u, hu, hpath⟩
            · exact .inl hw
            · exact .inr ⟨u, List.mem_cons_of_mem v hu, hpath⟩
          · rw [if_neg hv] at h
            rcases ih h with hw | ⟨u, hu, hpath⟩
            · rcases List.mem_cons.1 hw with rfl | hw
              · exact .inr ⟨w, List.mem_cons_self, .refl⟩
              · exact .inl hw
            · rcases List.mem_append.1 hu with hu | hu
              · exact .inr ⟨v, List.mem_cons_self, .head hu hpath⟩
              · exact .inr ⟨u, List.mem_cons_of_mem v hu, hpath⟩

/-- With enough fuel the waiting nodes are marked, and so is whatever a
marked node steps to. The cost is what the unmarked nodes may still put
on the list. -/
theorem closure_complete {cost : List Int → Nat}
    (hcost : ∀ v seen, v ∉ seen → cost (v :: seen) + (step v).length ≤ cost seen)
    (hfuel : waiting.length + cost seen ≤ fuel)
    (hseen : ∀ u ∈ seen, ∀ w ∈ step u, w ∈ seen ∨ w ∈ waiting) :
    (∀ v ∈ waiting, v ∈ closure step fuel waiting seen)
      ∧ ∀ u ∈ closure step fuel waiting seen, ∀ w ∈ step u, w ∈ closure step fuel waiting seen := by
  induction fuel generalizing waiting seen with
  | zero =>
      have hempty : waiting = [] := List.eq_nil_of_length_eq_zero (by omega)
      subst hempty
      refine ⟨fun v hv => absurd hv List.not_mem_nil, fun u hu w hw => ?_⟩
      exact (hseen u hu w hw).resolve_right List.not_mem_nil
  | succ fuel ih =>
      cases waiting with
      | nil =>
          refine ⟨fun v hv => absurd hv List.not_mem_nil, fun u hu w hw => ?_⟩
          exact (hseen u hu w hw).resolve_right List.not_mem_nil
      | cons v waiting =>
          rw [List.length_cons] at hfuel
          rw [closure]
          by_cases hv : v ∈ seen
          · rw [if_pos hv]
            -- A node that is marked is dropped and costs nothing.
            have hfuel' : waiting.length + cost seen ≤ fuel := by omega
            have hseen' : ∀ u ∈ seen, ∀ w ∈ step u, w ∈ seen ∨ w ∈ waiting := by
              intro u hu w hw
              rcases hseen u hu w hw with h | h
              · exact .inl h
              · rcases List.mem_cons.1 h with rfl | h
                · exact .inl hv
                · exact .inr h
            obtain ⟨hwaiting, hclosed⟩ := ih hfuel' hseen'
            refine ⟨fun u hu => ?_, hclosed⟩
            rcases List.mem_cons.1 hu with rfl | hu
            · exact mem_closure_of_seen hv
            · exact hwaiting u hu
          · rw [if_neg hv]
            -- A new node is marked, and what it puts on the list is paid for by what it
            -- takes off the cost.
            have hpaid := hcost v seen hv
            have hfuel' : (step v ++ waiting).length + cost (v :: seen) ≤ fuel := by
              rw [List.length_append]
              omega
            have hseen' : ∀ u ∈ v :: seen, ∀ w ∈ step u,
                w ∈ v :: seen ∨ w ∈ step v ++ waiting := by
              intro u hu w hw
              rcases List.mem_cons.1 hu with rfl | hu
              · exact .inr (List.mem_append_left waiting hw)
              · rcases hseen u hu w hw with h | h
                · exact .inl (List.mem_cons_of_mem v h)
                · rcases List.mem_cons.1 h with rfl | h
                  · exact .inl List.mem_cons_self
                  · exact .inr (List.mem_append_right (step v) h)
            obtain ⟨hwaiting, hclosed⟩ := ih hfuel' hseen'
            refine ⟨fun u hu => ?_, hclosed⟩
            rcases List.mem_cons.1 hu with rfl | hu
            · exact mem_closure_of_seen List.mem_cons_self
            · exact hwaiting u (List.mem_append_right (step v) hu)

/-- With enough fuel the closure of a node is what it leads to. -/
theorem mem_closure_iff {c : List Int → Nat}
    (hcost : ∀ v seen, v ∉ seen → c (v :: seen) + (step v).length ≤ c seen)
    (hfuel : c [] + 1 ≤ fuel) {v : Int} :
    w ∈ closure step fuel [v] [] ↔ ReflTransGen (fun a b => b ∈ step a) v w := by
  constructor
  · intro h
    rcases closure_sound h with hw | ⟨u, hu, hpath⟩
    · exact absurd hw List.not_mem_nil
    · rwa [List.mem_singleton.1 hu] at hpath
  · intro hpath
    have hbound : [v].length + c [] ≤ fuel := by
      rw [List.length_singleton]
      omega
    obtain ⟨hstart, hclosed⟩ :=
      closure_complete hcost hbound fun u hu => absurd hu List.not_mem_nil
    induction hpath with
    | refl => exact hstart v (List.mem_singleton_self v)
    | tail _ hstep ih => exact hclosed _ ih _ hstep

end Closure

-- =========================================================== the bounds

variable (g : Digraph)

/-- An arrow leads from the one node to the other. -/
def Arrow (v w : Int) : Prop := (v, w) ∈ g.arrows

/-- How many arrows leave unmarked nodes. -/
def leaving (seen : List Int) : Nat := g.arrows.countP fun a => a.1 ∉ seen

def entering (seen : List Int) : Nat := g.arrows.countP fun a => a.2 ∉ seen

theorem countP_not_mem {β : Type} (key : β → Int) (items : List β) {v : Int} {seen : List Int}
    (hv : v ∉ seen) :
    items.countP (fun a => key a ∉ v :: seen) + (items.filter (key · = v)).length
      = items.countP (fun a => key a ∉ seen) := by
  rw [← List.countP_eq_length_filter]
  induction items with
  | nil => rfl
  | cons a items ih =>
      by_cases ha : key a = v
      · have hout : key a ∉ seen := ha ▸ hv
        simp [ha, hv] at ih ⊢
        omega
      · by_cases hs : key a ∈ seen
        · simp [ha, hs] at ih ⊢
          omega
        · simp [ha, hs] at ih ⊢
          omega

theorem leaving_cons {v : Int} {seen : List Int} (hv : v ∉ seen) :
    g.leaving (v :: seen) + (g.next v).length = g.leaving seen := by
  rw [next, List.length_map]
  exact countP_not_mem Prod.fst g.arrows hv

theorem entering_cons {v : Int} {seen : List Int} (hv : v ∉ seen) :
    g.entering (v :: seen) + (g.prev v).length = g.entering seen := by
  rw [prev, List.length_map]
  exact countP_not_mem Prod.snd g.arrows hv

theorem leaving_le (seen : List Int) : g.leaving seen ≤ g.arrows.length := List.countP_le_length

theorem entering_le (seen : List Int) : g.entering seen ≤ g.arrows.length := List.countP_le_length

-- ======================================================== reachability

theorem mem_reach {v w : Int} : w ∈ g.reach v ↔ ReflTransGen g.Arrow v w := by
  have hfuel : g.leaving [] + 1 ≤ g.arrows.length + 1 := Nat.succ_le_succ (g.leaving_le [])
  rw [reach, mem_closure_iff (fun v seen hv => Nat.le_of_eq (g.leaving_cons hv)) hfuel]
  simp only [mem_next]
  rfl

theorem mem_reachBack {v w : Int} : w ∈ g.reachBack v ↔ ReflTransGen g.Arrow w v := by
  have hfuel : g.entering [] + 1 ≤ g.arrows.length + 1 := Nat.succ_le_succ (g.entering_le [])
  rw [reachBack, mem_closure_iff (fun v seen hv => Nat.le_of_eq (g.entering_cons hv)) hfuel,
    ← reflTransGen_swap]
  simp only [mem_prev]
  rfl

/-- A component is what arrows of either sense tie together. -/
theorem mem_component {v w : Int} :
    w ∈ g.component v ↔ ReflTransGen (fun a b => g.Arrow a b ∨ g.Arrow b a) v w := by
  have hcost : ∀ v seen, v ∉ seen →
      g.leaving (v :: seen) + g.entering (v :: seen) + (g.next v ++ g.prev v).length
        ≤ g.leaving seen + g.entering seen := by
    intro v seen hv
    have h := g.leaving_cons hv
    have h' := g.entering_cons hv
    rw [List.length_append]
    omega
  have hfuel : g.leaving [] + g.entering [] + 1 ≤ 2 * g.arrows.length + 1 := by
    have h := g.leaving_le []
    have h' := g.entering_le []
    omega
  rw [component, mem_closure_iff (c := fun seen => g.leaving seen + g.entering seen) hcost hfuel]
  simp only [List.mem_append, mem_next, mem_prev]
  rfl

end RecipeChart.Digraph
