/-
Lists that match in some order. Under a relation two lists match when
their items can be paired so that each pair is related, whatever the order
on either side: as multisets they are related one to one. Matches compose,
and what the relation does not tell apart may be filtered by.
-/
import Mathlib.Data.List.Forall2
import Mathlib.Data.Multiset.Filter

namespace RecipeChart

variable {β γ δ : Type} {R : β → γ → Prop} {s : Multiset β} {t : Multiset γ}

/-- Lists that match in their order do. -/
theorem rel_of_forall₂ {xs : List β} {ys : List γ} (h : List.Forall₂ R xs ys) :
    Multiset.Rel R xs ys := by
  induction h with
  | nil => exact .zero
  | cons hxy _ ih => exact .cons hxy ih

theorem rel_comp {S : γ → δ → Prop} {u : Multiset δ} (h : Multiset.Rel R s t)
    (h' : Multiset.Rel S t u) : Multiset.Rel (fun x z => ∃ y, R x y ∧ S y z) s u := by
  induction h generalizing u with
  | zero =>
      rw [Multiset.rel_zero_left.1 h']
      exact .zero
  | cons hxy _ ih =>
      obtain ⟨z, u', hyz, htail, rfl⟩ := Multiset.rel_cons_left.1 h'
      exact .cons ⟨_, hxy, hyz⟩ (ih htail)

theorem rel_filter {p : β → Prop} {q : γ → Prop} [DecidablePred p] [DecidablePred q]
    (h : Multiset.Rel R s t) (hpq : ∀ x ∈ s, ∀ y ∈ t, R x y → (p x ↔ q y)) :
    Multiset.Rel R (s.filter p) (t.filter q) := by
  induction h with
  | zero => exact .zero
  | @cons x y s t hxy _ ih =>
      have htail := ih fun x' hx y' hy =>
        hpq x' (Multiset.mem_cons_of_mem hx) y' (Multiset.mem_cons_of_mem hy)
      have hhead := hpq x (Multiset.mem_cons_self x s) y (Multiset.mem_cons_self y t) hxy
      by_cases hx : p x
      · rw [Multiset.filter_cons_of_pos s hx, Multiset.filter_cons_of_pos t (hhead.1 hx)]
        exact .cons hxy htail
      · rw [Multiset.filter_cons_of_neg s hx,
          Multiset.filter_cons_of_neg t fun hy => hx (hhead.2 hy)]
        exact htail

/-- Where related items keep the same, the same is kept. -/
theorem filterMap_eq_of_rel {f : β → Option δ} {f' : γ → Option δ} (h : Multiset.Rel R s t)
    (hsame : ∀ x ∈ s, ∀ y ∈ t, R x y → f x = f' y) : s.filterMap f = t.filterMap f' := by
  induction h with
  | zero => rfl
  | @cons x y s t hxy _ ih =>
      have htail := ih fun x' hx y' hy =>
        hsame x' (Multiset.mem_cons_of_mem hx) y' (Multiset.mem_cons_of_mem hy)
      have hhead := hsame x (Multiset.mem_cons_self x s) y (Multiset.mem_cons_self y t) hxy
      rw [Multiset.filterMap_cons, Multiset.filterMap_cons, hhead, htail]

end RecipeChart
