/-
Traversals whose effect may fail. A traversal succeeds exactly when its
effect does at every place, and then the result has, place by place,
what the effect gave. Everything that is said of a resolved value goes
back to that: the shape stays, and only the names change.
-/
import Mathlib.Data.List.Perm.Basic
import RecipeChart.Recipe.Rename

namespace RecipeChart

variable {ε β γ : Type}

/-- Outcomes can be compared. -/
instance decidableEqExcept [DecidableEq ε] [DecidableEq β] : DecidableEq (Except ε β)
  | .ok b, .ok b' => decidable_of_iff (b = b') ⟨congrArg Except.ok, Except.ok.inj⟩
  | .error e, .error e' => decidable_of_iff (e = e') ⟨congrArg Except.error, Except.error.inj⟩
  | .ok _, .error _ => .isFalse fun h => (nomatch h)
  | .error _, .ok _ => .isFalse fun h => (nomatch h)

-- ============================================================ sequences

/-- Two steps succeed exactly when the first gives something on which the
second succeeds. -/
theorem bind_eq_ok_iff {x : Except ε β} {f : β → Except ε γ} {c : γ} :
    (x >>= f) = .ok c ↔ ∃ b, x = .ok b ∧ f b = .ok c := by
  cases x with
  | error e =>
      constructor
      · intro h
        cases h
      · intro hrun
        obtain ⟨b, h, -⟩ := hrun
        cases h
  | ok b =>
      constructor
      · intro h
        exact ⟨b, rfl, h⟩
      · intro hrun
        obtain ⟨b', h, hf⟩ := hrun
        cases h
        exact hf

/-- A mapped result is there exactly when there is one to map. -/
theorem map_eq_ok_iff {x : Except ε β} {f : β → γ} {c : γ} :
    f <$> x = .ok c ↔ ∃ b, x = .ok b ∧ f b = c := by
  cases x with
  | error e =>
      constructor
      · intro h
        cases h
      · intro hrun
        obtain ⟨b, h, -⟩ := hrun
        cases h
  | ok b =>
      constructor
      · intro h
        cases h
        exact ⟨b, rfl, rfl⟩
      · intro hrun
        obtain ⟨b', h, hf⟩ := hrun
        cases h
        rw [← hf]
        rfl

/-- What is made of a result fails exactly when the result does, and with
its error. -/
theorem bind_ok_eq_error_iff {x : Except ε β} {f : β → γ} {e : ε} :
    (x >>= fun b => .ok (f b)) = .error e ↔ x = .error e := by
  cases x with
  | error e' => exact ⟨fun h => by cases h; rfl, fun h => by cases h; rfl⟩
  | ok b => exact ⟨fun h => (nomatch h), fun h => (nomatch h)⟩

-- ============================================================== success

/-- Two steps succeed together exactly when the first does, and the second
does on what it gave. -/
theorem exists_bind_eq_ok_iff {x : Except ε β} {rest : β → Except ε γ} :
    (∃ c, (x >>= rest) = .ok c) ↔ ∃ b, x = .ok b ∧ ∃ c, rest b = .ok c := by
  simp only [bind_eq_ok_iff]
  rw [exists_comm]
  exact exists_congr fun b => exists_and_left

/-- Something is made of a result if there is one. -/
theorem exists_map_eq_ok_iff {x : Except ε β} {f : β → γ} :
    (∃ c, f <$> x = .ok c) ↔ ∃ b, x = .ok b := by
  simp only [map_eq_ok_iff]
  rw [exists_comm]
  simp only [exists_and_left, exists_eq', and_true]

theorem exists_pure_eq_ok_iff {b : β} : (∃ c, (pure b : Except ε β) = .ok c) ↔ True :=
  iff_true_intro ⟨b, rfl⟩

-- ========================================================= counterparts

/-- Every item of the one list has its counterpart in the other. -/
theorem counterpart_of_mem_left {R : β → γ → Prop} {xs : List β} {ys : List γ}
    (h : List.Forall₂ R xs ys) {x : β} (hx : x ∈ xs) : ∃ y ∈ ys, R x y := by
  induction h with
  | nil => cases hx
  | @cons x' y' xs ys hxy _ ih =>
      rcases List.mem_cons.1 hx with rfl | hx
      · exact ⟨y', List.mem_cons_self, hxy⟩
      · obtain ⟨y, hy, hR⟩ := ih hx
        exact ⟨y, List.mem_cons_of_mem y' hy, hR⟩

/-- Every member on the right has a counterpart on the left. -/
theorem counterpart_of_mem_right {R : β → γ → Prop} {xs : List β} {ys : List γ}
    (h : List.Forall₂ R xs ys) {y : γ} (hy : y ∈ ys) : ∃ x ∈ xs, R x y :=
  counterpart_of_mem_left h.flip hy

/-- Counterparts of counterparts. -/
theorem forall₂_comp {δ : Type} {R : β → γ → Prop} {S : γ → δ → Prop} {xs : List β} {ys : List γ}
    {zs : List δ} (h : List.Forall₂ R xs ys) (h' : List.Forall₂ S ys zs) :
    List.Forall₂ (fun x z => ∃ y, R x y ∧ S y z) xs zs := by
  induction h generalizing zs with
  | nil =>
      cases h'
      exact .nil
  | cons hxy _ ih =>
      cases h' with
      | cons hyz htail => exact .cons ⟨_, hxy, hyz⟩ (ih htail)

/-- Counterparts of a list are counterparts of its members. -/
theorem forall₂_mem_left {R : β → γ → Prop} {xs : List β} {ys : List γ}
    (h : List.Forall₂ R xs ys) : List.Forall₂ (fun x y => x ∈ xs ∧ R x y) xs ys := by
  induction h with
  | nil => exact .nil
  | cons hxy _ ih =>
      refine .cons ⟨List.mem_cons_self, hxy⟩ (ih.imp fun x y hpair => ?_)
      exact ⟨List.mem_cons_of_mem _ hpair.1, hpair.2⟩

theorem nil_iff_of_forall₂ {R : β → γ → Prop} {xs : List β} {ys : List γ}
    (h : List.Forall₂ R xs ys) : ys = [] ↔ xs = [] := by
  rw [← List.length_eq_zero_iff, ← List.length_eq_zero_iff, h.length_eq]

theorem isEmpty_congr {xs : List β} {ys : List γ} (h : xs = [] ↔ ys = []) :
    xs.isEmpty = ys.isEmpty :=
  Bool.eq_iff_iff.2 (by rw [List.isEmpty_iff, List.isEmpty_iff, h])

/-- What is made of one list item by item is related if the items are. -/
theorem forall₂_flatMap {δ : Type} {R : γ → δ → Prop} {xs : List β} {F : β → List γ}
    {G : β → List δ} (h : ∀ x ∈ xs, List.Forall₂ R (F x) (G x)) :
    List.Forall₂ R (xs.flatMap F) (xs.flatMap G) := by
  induction xs with
  | nil => exact .nil
  | cons x xs ih =>
      rw [List.forall_mem_cons] at h
      rw [List.flatMap_cons, List.flatMap_cons]
      exact List.rel_append h.1 (ih h.2)

/-- What is made of some items goes with these items, one by one. -/
theorem forall₂_filterMap {f : β → Option γ} {p : β → Bool} {xs : List β}
    (h : ∀ x ∈ xs, (f x).isSome = p x) :
    List.Forall₂ (fun y x => f x = some y) (xs.filterMap f) (xs.filter p) := by
  induction xs with
  | nil => exact .nil
  | cons x xs ih =>
      rw [List.forall_mem_cons] at h
      rw [List.filterMap_cons, List.filter_cons, ← h.1]
      cases hx : f x with
      | none => exact ih h.2
      | some y => exact .cons hx (ih h.2)

/-- What is the same for an item and its counterpart is the same, one by
one. -/
theorem map_eq_of_forall₂ {δ : Type} {R : β → γ → Prop} {f : β → δ} {g : γ → δ} {xs : List β}
    {ys : List γ} (h : List.Forall₂ R xs ys) (hsame : ∀ x y, R x y → f x = g y) :
    xs.map f = ys.map g := by
  induction h with
  | nil => rfl
  | cons hxy _ ih => rw [List.map_cons, List.map_cons, hsame _ _ hxy, ih]

/-- Where items with the same first image have the same second one, so have
lists of items. -/
theorem map_eq_of_map_eq {δ : Type} {f : β → γ} {g : β → δ}
    (h : ∀ x y, f x = f y → g x = g y) {xs ys : List β} (hmap : xs.map f = ys.map f) :
    xs.map g = ys.map g := by
  refine map_eq_of_forall₂ (R := fun x y => f x = f y) ?_ h
  rw [← List.forall₂_map_left_iff (R := fun a y => a = f y),
    ← List.forall₂_map_right_iff (R := fun a b => a = b), List.forall₂_eq_eq_eq]
  exact hmap

/-- Items and their counterparts, as pairs. -/
theorem exists_pairs {R : β → γ → Prop} {xs : List β} {ys : List γ} (h : List.Forall₂ R xs ys) :
    ∃ pairs : List (β × γ), pairs.map Prod.fst = xs ∧ pairs.map Prod.snd = ys
      ∧ ∀ x ∈ pairs, R x.1 x.2 := by
  obtain ⟨hlength, hrel⟩ := List.forall₂_iff_zip.1 h
  exact ⟨xs.zip ys, List.map_fst_zip (Nat.le_of_eq hlength),
    List.map_snd_zip (Nat.le_of_eq hlength.symm), fun x hx => hrel hx⟩

/-- Where the first of a pair tells the second, pairs are told by what
comes first in them. -/
theorem eq_of_map_fst {R : β → γ → Prop} {xs ys : List (β × γ)}
    (hfirst : xs.map Prod.fst = ys.map Prod.fst) (hsame : ∀ x ∈ xs, ∀ c, R x.1 c → x.2 = c)
    (hys : ∀ y ∈ ys, R y.1 y.2) : xs = ys := by
  induction xs generalizing ys with
  | nil =>
      rw [List.map_nil, eq_comm, List.map_eq_nil_iff] at hfirst
      exact hfirst.symm
  | cons x xs ih =>
      cases ys with
      | nil => cases hfirst
      | cons y ys =>
          rw [List.map_cons, List.map_cons] at hfirst
          injection hfirst with hhead htail
          rw [List.forall_mem_cons] at hsame hys
          have hrel := hys.1
          rw [← hhead] at hrel
          rw [Prod.ext hhead (hsame.1 y.2 hrel), ih htail hsame.2 hys.2]

/-- Pairs in their order, cut at one that is known by what comes first in
it. -/
theorem exists_middle {pairs : List (β × γ)} {pre post : List β} {b : β}
    (h : pairs.map Prod.fst = pre ++ b :: post) :
    ∃ front c back, pairs = front ++ (b, c) :: back ∧ front.map Prod.fst = pre
      ∧ back.map Prod.fst = post := by
  obtain ⟨front, rest, rfl, hfront, hrest⟩ := List.map_eq_append_iff.1 h
  obtain ⟨⟨b', c⟩, back, rfl, rfl, hback⟩ := List.map_eq_cons_iff.1 hrest
  exact ⟨front, c, back, rfl, hfront, hback⟩

/-- Items are related, one by one, if and only if their counterparts are. -/
theorem forall₂_iff_of_counterparts {β' γ' : Type} {A : β → γ → Prop} {B : β' → γ' → Prop}
    {R : β → β' → Prop} {S : γ → γ' → Prop} {xs : List β} {ys : List γ} {xs' : List β'}
    {ys' : List γ'} (h : List.Forall₂ A xs ys) (h' : List.Forall₂ B xs' ys')
    (hiff : ∀ x ∈ xs, ∀ {y x' y'}, A x y → B x' y' → (R x x' ↔ S y y')) :
    List.Forall₂ R xs xs' ↔ List.Forall₂ S ys ys' := by
  induction h generalizing xs' ys' with
  | nil => cases h' <;> simp
  | cons hxy _ ih =>
      rw [List.forall_mem_cons] at hiff
      cases h' with
      | nil => simp
      | cons hxy' h' =>
          rw [List.forall₂_cons, List.forall₂_cons, hiff.1 hxy hxy', ih h' hiff.2]

-- =============================================================== lists

/-- What is taken from the front ends before an item that does not pass. -/
theorem takeWhile_append_of_head {p : β → Bool} {xs ys : List β} (hxs : ∀ x ∈ xs, p x = true)
    (hys : ∀ y ∈ ys.head?, p y = false) : (xs ++ ys).takeWhile p = xs := by
  have hstop : ys.takeWhile p = [] := by
    cases ys with
    | nil => rfl
    | cons y ys =>
        exact List.takeWhile_cons_of_neg (by rw [hys y rfl]; exact Bool.false_ne_true)
  rw [List.takeWhile_append_of_pos hxs, hstop, List.append_nil]

/-- A list is cut in one place only, if what holds of all items before the
cut does not hold of the item behind it. -/
theorem append_inj_of_head {p : β → Prop} {xs xs' ys ys' : List β} (hxs : ∀ x ∈ xs, p x)
    (hxs' : ∀ x ∈ xs', p x) (hys : ∀ y ∈ ys.head?, ¬ p y) (hys' : ∀ y ∈ ys'.head?, ¬ p y)
    (h : xs ++ ys = xs' ++ ys') : xs = xs' ∧ ys = ys' := by
  induction xs generalizing xs' with
  | nil =>
      cases xs' with
      | nil => exact ⟨rfl, h⟩
      | cons x' xs' =>
          rw [show ys = x' :: (xs' ++ ys') from h] at hys
          exact absurd (hxs' x' List.mem_cons_self) (hys x' rfl)
  | cons x xs ih =>
      cases xs' with
      | nil =>
          rw [show ys' = x :: (xs ++ ys) from h.symm] at hys'
          exact absurd (hxs x List.mem_cons_self) (hys' x rfl)
      | cons x' xs' =>
          rw [List.forall_mem_cons] at hxs hxs'
          obtain ⟨hhead, htail⟩ := List.cons.inj h
          obtain ⟨hxs, hys⟩ := ih hxs.2 hxs'.2 htail
          exact ⟨by rw [hhead, hxs], hys⟩

/-- Behind the first of them, a separator stands before every item. -/
theorem intercalate_cons (sep x : List β) (xs : List (List β)) :
    sep.intercalate (x :: xs) = x ++ xs.flatMap (sep ++ ·) := by
  induction xs generalizing x with
  | nil => simp
  | cons y ys ih =>
      rw [List.intercalate_cons_cons, ih, List.flatMap_cons, List.append_assoc, List.append_assoc]

/-- A traversal of a list succeeds exactly when its effect gives, one by
one, the items of the result. -/
theorem mapM_eq_ok_iff {f : β → Except ε γ} :
    ∀ {xs : List β} {ys : List γ},
      xs.mapM f = .ok ys ↔ List.Forall₂ (fun x y => f x = .ok y) xs ys := by
  intro xs
  induction xs with
  | nil =>
      intro ys
      rw [List.mapM_nil, List.forall₂_nil_left_iff]
      exact ⟨fun h => by cases h; rfl, fun h => by rw [h]; rfl⟩
  | cons x xs ih =>
      intro ys
      rw [List.mapM_cons, List.forall₂_cons_left_iff]
      cases hx : f x with
      | error e =>
          constructor
          · intro h
            cases h
          · intro hrun
            obtain ⟨y, ys', h, -, -⟩ := hrun
            cases h
      | ok y =>
          cases hxs : xs.mapM f with
          | error e =>
              constructor
              · intro h
                cases h
              · intro hrun
                obtain ⟨y', ys', -, h, -⟩ := hrun
                rw [← ih, hxs] at h
                cases h
          | ok ys' =>
              constructor
              · intro h
                cases h
                exact ⟨y, ys', rfl, ih.1 hxs, rfl⟩
              · intro hrun
                obtain ⟨y', ys'', h, hys, rfl⟩ := hrun
                cases h
                rw [← ih, hxs] at hys
                cases hys
                rfl

/-- One result comes of each. -/
theorem length_of_mapM_eq_ok {f : β → Except ε γ} {xs : List β} {ys : List γ}
    (h : xs.mapM f = .ok ys) : ys.length = xs.length :=
  (mapM_eq_ok_iff.1 h).length_eq.symm

/-- In another order a traversal gives the same items in another order. -/
theorem mapM_perm {f : β → Except ε γ} {xs ys : List β} {zs : List γ} (h : xs.Perm ys)
    (hys : ys.mapM f = .ok zs) : ∃ ws, xs.mapM f = .ok ws ∧ ws.Perm zs := by
  obtain ⟨ws, hws, hperm⟩ := List.perm_comp_forall₂ h (mapM_eq_ok_iff.1 hys)
  exact ⟨ws, mapM_eq_ok_iff.2 hws, hperm⟩

/-- A traversal succeeds if its effect does everywhere. -/
theorem exists_mapM_eq_ok {f : β → Except ε γ} {xs : List β} (h : ∀ x ∈ xs, ∃ y, f x = .ok y) :
    ∃ ys, xs.mapM f = .ok ys := by
  induction xs with
  | nil => exact ⟨[], rfl⟩
  | cons x xs ih =>
      rw [List.forall_mem_cons] at h
      obtain ⟨y, hy⟩ := h.1
      obtain ⟨ys, hys⟩ := ih h.2
      refine ⟨y :: ys, ?_⟩
      rw [mapM_eq_ok_iff] at hys ⊢
      exact .cons hy hys

/-- A traversal succeeds exactly when its effect does everywhere. -/
theorem exists_mapM_eq_ok_iff {f : β → Except ε γ} {xs : List β} :
    (∃ ys, xs.mapM f = .ok ys) ↔ ∀ x ∈ xs, ∃ y, f x = .ok y := by
  refine ⟨fun hall x hx => ?_, exists_mapM_eq_ok⟩
  obtain ⟨ys, hys⟩ := hall
  obtain ⟨y, -, hy⟩ := counterpart_of_mem_left (mapM_eq_ok_iff.1 hys) hx
  exact ⟨y, hy⟩

/-- What may be absent succeeds if it is absent or succeeds. -/
theorem exists_option_mapM_eq_ok_iff {f : β → Except ε γ} {x : Option β} :
    (∃ y, x.mapM f = .ok y) ↔ ∀ b ∈ x.toList, ∃ c, f b = .ok c := by
  cases x with
  | none => exact ⟨fun _ b hb => absurd hb List.not_mem_nil, fun _ => ⟨none, rfl⟩⟩
  | some b =>
      rw [Option.toList_some, List.forall_mem_singleton]
      exact exists_map_eq_ok_iff

/-- Items that are each read back from what they were written as are read
back together. -/
theorem mapM_map_eq_some {write : β → γ} {read : γ → Option β} {xs : List β}
    (h : ∀ x ∈ xs, read (write x) = some x) : (xs.map write).mapM read = some xs := by
  induction xs with
  | nil => rfl
  | cons x xs ih =>
      rw [List.forall_mem_cons] at h
      rw [List.map_cons, List.mapM_cons, h.1, ih h.2]
      rfl

/-- A traversal that keeps everything has kept, one by one, what the
effect gave. -/
theorem filterMapM_eq_ok {f : β → Except ε (Option γ)} {items : List β}
    (h : ∀ x ∈ items, ∃ y, f x = .ok (some y)) :
    ∃ ys, items.filterMapM f = .ok ys ∧ List.Forall₂ (fun x y => f x = .ok (some y)) items ys := by
  induction items with
  | nil => exact ⟨[], rfl, .nil⟩
  | cons x items ih =>
      rw [List.forall_mem_cons] at h
      obtain ⟨y, hy⟩ := h.1
      obtain ⟨ys, hys, hall⟩ := ih h.2
      refine ⟨y :: ys, ?_, .cons hy hall⟩
      rw [List.filterMapM_cons, hy]
      show (items.filterMapM f >>= fun bs => Except.ok (y :: bs)) = _
      rw [hys]
      rfl

section Commuting

variable {m : Type → Type} [Monad m] [LawfulMonad m] {δ γ' : Type}

/-- A traversal of changed items, if the effect on a changed item is that
on the item with its result changed. -/
theorem mapM_map_eq {g : β → δ} {h : γ → γ'} {op : β → m γ} {op' : δ → m γ'}
    (hop : ∀ x, op' (g x) = h <$> op x) (xs : List β) :
    (xs.map g).mapM op' = List.map h <$> xs.mapM op := by
  induction xs with
  | nil => simp only [List.map_nil, List.mapM_nil, map_pure]
  | cons x xs ih =>
      simp only [List.map_cons, List.mapM_cons, hop, ih, map_bind, bind_map_left, map_pure]

/-- A traversal of which each result is changed. -/
theorem mapM_eq_map_mapM {h : γ → γ'} {op : β → m γ} {op' : β → m γ'}
    (hop : ∀ x, op' x = h <$> op x) (xs : List β) : xs.mapM op' = List.map h <$> xs.mapM op := by
  rw [← mapM_map_eq (g := id) hop xs, List.map_id]

theorem filterMapM_eq_map_filterMapM {h : γ → γ'} {op : β → m (Option γ)} {op' : β → m (Option γ')}
    (hop : ∀ x, op' x = Option.map h <$> op x) (xs : List β) :
    xs.filterMapM op' = List.map h <$> xs.filterMapM op := by
  induction xs with
  | nil => simp only [List.filterMapM_nil, map_pure, List.map_nil]
  | cons x xs ih =>
      rw [List.filterMapM_cons, List.filterMapM_cons, hop, bind_map_left, map_bind]
      refine bind_congr fun found => ?_
      cases found with
      | none => exact ih
      | some y =>
          simp only [Option.map_some, ih, bind_map_left, map_bind, map_pure, List.map_cons]

end Commuting

/-- A list of checks passes exactly when each of them does. -/
theorem forM_eq_ok_iff {f : β → Except ε Unit} {xs : List β} :
    xs.forM f = .ok () ↔ ∀ x ∈ xs, f x = .ok () := by
  induction xs with
  | nil => exact ⟨fun _ x hx => absurd hx List.not_mem_nil, fun _ => rfl⟩
  | cons x xs ih =>
      rw [show (x :: xs).forM f = (f x >>= fun _ => xs.forM f) from rfl, bind_eq_ok_iff,
        List.forall_mem_cons]
      constructor
      · intro hrun
        obtain ⟨u, hx, hxs⟩ := hrun
        exact ⟨hx, ih.1 hxs⟩
      · intro hrun
        obtain ⟨hx, hxs⟩ := hrun
        exact ⟨(), hx, ih.2 hxs⟩

/-- A list of checks fails with the error of the first that fails. -/
theorem forM_eq_error_iff {f : β → Except ε Unit} {xs : List β} {e : ε} :
    xs.forM f = .error e
      ↔ ∃ pre x post, xs = pre ++ x :: post ∧ (∀ y ∈ pre, f y = .ok ()) ∧ f x = .error e := by
  induction xs with
  | nil =>
      refine ⟨fun h => (nomatch h), fun hfails => ?_⟩
      obtain ⟨pre, x, post, hsplit, -⟩ := hfails
      cases pre <;> cases hsplit
  | cons x xs ih =>
      rw [show (x :: xs).forM f = (f x >>= fun _ => xs.forM f) from rfl]
      -- The first check fails, and is the one, or it passes and stands in front of those
      -- that do.
      cases hx : f x with
      | error e' =>
          constructor
          · intro h
            cases h
            exact ⟨[], x, xs, rfl, fun y hy => absurd hy List.not_mem_nil, hx⟩
          · intro hfails
            obtain ⟨pre, y, post, hsplit, hpre, hy⟩ := hfails
            cases pre with
            | nil =>
                cases hsplit
                exact hx.symm.trans hy
            | cons z pre =>
                cases hsplit
                cases hx.symm.trans (hpre _ List.mem_cons_self)
      | ok u =>
          refine Iff.trans ih ?_
          constructor
          · intro hfails
            obtain ⟨pre, y, post, rfl, hpre, hy⟩ := hfails
            exact ⟨x :: pre, y, post, rfl, List.forall_mem_cons.2 ⟨hx, hpre⟩, hy⟩
          · intro hfails
            obtain ⟨pre, y, post, hsplit, hpre, hy⟩ := hfails
            cases pre with
            | nil =>
                cases hsplit
                cases hx.symm.trans hy
            | cons z pre =>
                cases hsplit
                exact ⟨pre, y, post, rfl, (List.forall_mem_cons.1 hpre).2, hy⟩

/-- A list of checks that can fail in one way only passes or fails in that
way. -/
theorem forM_eq_ok_or_error {f : β → Except ε Unit} {e : ε} {xs : List β}
    (h : ∀ x ∈ xs, f x = .ok () ∨ f x = .error e) :
    xs.forM f = .ok () ∨ xs.forM f = .error e := by
  induction xs with
  | nil => exact .inl rfl
  | cons x xs ih =>
      rw [List.forall_mem_cons] at h
      rw [show (x :: xs).forM f = (f x >>= fun _ => xs.forM f) from rfl]
      rcases h.1 with hx | hx
      · rw [hx]
        exact ih h.2
      · rw [hx]
        exact .inr rfl

end RecipeChart
