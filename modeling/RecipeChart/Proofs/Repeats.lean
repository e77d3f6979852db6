/-
Lists and their repeats. Without its repeats a list keeps each item where
it stands first, so nothing is lost, nothing is left twice, and a list
that repeats nothing stays as it is. Where no key repeats, a key has one
item at most. Items can also be taken into a list one after another, each
put at its end unless it is there.
-/
import Mathlib.Data.List.Nodup
import RecipeChart.Proofs.Traversal

namespace RecipeChart

variable {α β γ : Type}

-- ================================================================= keys

/-- No key repeats when no key has more than one item. -/
theorem nodup_map_iff [DecidableEq γ] {key : β → γ} {items : List β} :
    (items.map key).Nodup ↔ ∀ c, (items.filter (key · = c)).length ≤ 1 := by
  rw [List.nodup_iff_count_le_one]
  refine forall_congr' fun c => ?_
  rw [List.count, List.countP_map, List.countP_eq_length_filter]
  rfl

/-- Of one item at most the first is the last. -/
theorem head?_eq_getLast? {items : List β} (h : items.length ≤ 1) :
    items.head? = items.getLast? := by
  match items with
  | [] => rfl
  | [_] => rfl
  | _ :: _ :: items => simp at h

/-- Where no key repeats, items of one key are the same. -/
theorem eq_of_nodup_filterMap {f : β → Option γ} {key : γ → α} {items : List β}
    (h : ((items.filterMap f).map key).Nodup) {a b : β} {x y : γ} (ha : a ∈ items) (hb : b ∈ items)
    (hx : f a = some x) (hy : f b = some y) (hkey : key x = key y) : a = b := by
  induction items with
  | nil => cases ha
  | cons c items ih =>
      have hin : ∀ {b y}, b ∈ items → f b = some y → key y ∈ (items.filterMap f).map key := by
        intro b y hb hy
        exact List.mem_map_of_mem (List.mem_filterMap.2 ⟨b, hb, hy⟩)
      rcases List.mem_cons.1 ha with rfl | hin_a
      · rcases List.mem_cons.1 hb with rfl | hin_b
        · rfl
        · rw [List.filterMap_cons_some hx, List.map_cons, List.nodup_cons, hkey] at h
          exact absurd (hin hin_b hy) h.1
      · rcases List.mem_cons.1 hb with rfl | hin_b
        · rw [List.filterMap_cons_some hy, List.map_cons, List.nodup_cons, ← hkey] at h
          exact absurd (hin hin_a hx) h.1
        · refine ih (h.sublist ?_) hin_a hin_b
          exact ((List.sublist_cons_self c items).filterMap f).map key

/-- What is found under a key stands beside it. -/
theorem mem_of_lookup [DecidableEq β] {items : List (β × γ)} {b : β} {c : γ}
    (h : items.lookup b = some c) : (b, c) ∈ items := by
  obtain ⟨pre, post, rfl, -⟩ := List.lookup_eq_some_iff.1 h
  exact List.mem_append_right pre List.mem_cons_self

/-- In a table without repeats a key is found with what stands beside
it. -/
theorem lookup_iff_mem [DecidableEq β] {items : List (β × γ)}
    (h : (items.map Prod.fst).Nodup) {b : β} {c : γ} :
    items.lookup b = some c ↔ (b, c) ∈ items := by
  refine ⟨mem_of_lookup, fun hmem => ?_⟩
  obtain ⟨pre, post, rfl⟩ := List.append_of_mem hmem
  refine List.lookup_eq_some_iff.2 ⟨pre, post, rfl, fun item hitem => ?_⟩
  rw [List.map_append, List.nodup_append] at h
  have hne := h.2.2 item.1 (List.mem_map_of_mem hitem) b List.mem_cons_self
  simpa using hne.symm

/-- In a table without repeats one item goes with its key. -/
theorem perm_cons_filter [DecidableEq β] {items : List (β × γ)}
    (h : (items.map Prod.fst).Nodup) {b : β} {c : γ} (hmem : (b, c) ∈ items) :
    items.Perm ((b, c) :: items.filter (·.1 ≠ b)) := by
  obtain ⟨pre, post, rfl⟩ := List.append_of_mem hmem
  rw [List.map_append, List.map_cons, List.nodup_middle, List.nodup_cons, ← List.map_append] at h
  have hkeep : ∀ item ∈ pre ++ post, decide (item.1 ≠ b) = true := by
    intro item hitem
    refine decide_eq_true fun heq => h.1 ?_
    show b ∈ (pre ++ post).map Prod.fst
    rw [← heq]
    exact List.mem_map_of_mem hitem
  rw [List.forall_mem_append] at hkeep
  rw [List.filter_append, List.filter_cons, List.filter_eq_self.2 hkeep.1,
    List.filter_eq_self.2 hkeep.2, if_neg (by simp)]
  exact List.perm_middle

/-- Items sorted by keys that do not repeat are the items that have one of
the keys. -/
theorem flatMap_filter_perm [DecidableEq γ] (key : β → γ) {keys : List γ} (h : keys.Nodup)
    (items : List β) :
    (keys.flatMap fun c => items.filter (key · = c)).Perm (items.filter (key · ∈ keys)) := by
  induction keys with
  | nil => simp
  | cons c keys ih =>
      rw [List.nodup_cons] at h
      have hsplit := List.filter_append_perm (fun b => decide (key b = c))
        (items.filter (key · ∈ c :: keys))
      have hfirst : (items.filter (key · ∈ c :: keys)).filter (fun b => decide (key b = c))
          = items.filter (key · = c) := by
        rw [List.filter_filter]
        refine List.filter_congr fun b _ => ?_
        simp +contextual
      have hothers : (items.filter (key · ∈ c :: keys)).filter (fun b => !decide (key b = c))
          = items.filter (key · ∈ keys) := by
        rw [List.filter_filter]
        refine List.filter_congr fun b _ => ?_
        by_cases hb : key b = c
        · simp [hb, h.1]
        · simp [hb]
      rw [hfirst, hothers] at hsplit
      rw [List.flatMap_cons]
      exact ((ih h.2).append_left _).trans hsplit

-- ============================================================== repeats

/-- A list without repeats has nothing to lose. -/
theorem eraseDups_eq_self [BEq α] [LawfulBEq α] {items : List α} (h : items.Nodup) :
    items.eraseDups = items := by
  induction items with
  | nil => rfl
  | cons a items ih =>
      rw [List.nodup_cons] at h
      have hkeep : items.filter (fun b => !b == a) = items := by
        refine List.filter_eq_self.2 fun b hb => ?_
        have hne : b ≠ a := fun heq => h.1 (heq ▸ hb)
        simp [hne]
      rw [List.eraseDups_cons, hkeep, ih h.2]

variable [DecidableEq α]

/-- The first stays, and is left out further on. -/
theorem unique_cons (a : α) (items : List α) :
    unique (a :: items) = a :: unique (items.filter fun b => !b == a) := List.eraseDups_cons

/-- One more item is kept if it is new. -/
theorem unique_concat (items : List α) (a : α) :
    unique (items ++ [a]) = if a ∈ items then unique items else unique items ++ [a] := by
  rw [unique, List.eraseDups_append, unique]
  by_cases ha : a ∈ items
  · simp [List.removeAll, ha]
  · simp [List.removeAll, ha, List.eraseDups_cons]

/-- Nothing is lost but repeats. -/
theorem mem_unique {a : α} {items : List α} : a ∈ unique items ↔ a ∈ items := List.mem_eraseDups

/-- What is left has no repeats. -/
theorem nodup_unique : ∀ items : List α, (unique items).Nodup
  | [] => List.nodup_nil
  | a :: items => by
      rw [unique_cons, List.nodup_cons, mem_unique]
      refine ⟨fun h => ?_, nodup_unique _⟩
      simp at h
termination_by items => items.length
decreasing_by exact Nat.lt_succ_of_le (List.length_filter_le _ items)

theorem unique_eq_self {items : List α} (h : items.Nodup) : unique items = items :=
  eraseDups_eq_self h

-- ============================================================ taking in

/-- The items with this one at the end, unless it is there. -/
def takeIn (items : List α) (a : α) : List α :=
  if a ∈ items then items else items ++ [a]

/-- What is there is not put in again. -/
theorem takeIn_of_mem {items : List α} {a : α} (h : a ∈ items) : takeIn items a = items :=
  if_pos h

/-- What is new is put in at the end. -/
theorem takeIn_of_not_mem {items : List α} {a : α} (h : a ∉ items) :
    takeIn items a = items ++ [a] :=
  if_neg h

/-- What is put in once stands there once. -/
theorem nodup_takeIn {items : List α} (h : items.Nodup) (a : α) : (takeIn items a).Nodup := by
  by_cases hmem : a ∈ items
  · rwa [takeIn_of_mem hmem]
  · rw [takeIn_of_not_mem hmem]
    refine List.nodup_append.2 ⟨h, List.nodup_singleton _, fun b hb c hc hbc => ?_⟩
    rw [hbc, List.mem_singleton.1 hc] at hb
    exact hmem hb

/-- What is taken in one after another stands at the end, each of the new
items where it comes first. -/
theorem foldl_takeIn_eq (items more : List α) :
    more.foldl takeIn items = items ++ unique (more.filter (· ∉ items)) := by
  induction more generalizing items with
  | nil => exact (List.append_nil items).symm
  | cons a more ih =>
      rw [List.foldl_cons, ih]
      by_cases ha : a ∈ items
      · rw [takeIn_of_mem ha, List.filter_cons_of_neg (by simpa using ha)]
      · -- of what comes behind, the new items other than the first are still new
        have hlater : more.filter (· ∉ items ++ [a])
            = (more.filter (· ∉ items)).filter fun b => !b == a := by
          rw [List.filter_filter]
          refine List.filter_congr fun b _ => ?_
          rw [Bool.eq_iff_iff]
          simp [and_comm]
        rw [takeIn_of_not_mem ha, List.filter_cons_of_pos (by simpa using ha), unique_cons, hlater,
          List.append_assoc]
        rfl

/-- What was there stays in its place. -/
theorem prefix_foldl_takeIn (items more : List α) : items <+: more.foldl takeIn items := by
  rw [foldl_takeIn_eq]
  exact List.prefix_append _ _

/-- Without its repeats a list is what it comes to when it is taken into
none. -/
theorem foldl_takeIn_nil (items : List α) : items.foldl takeIn [] = unique items := by
  have hall : items.filter (· ∉ ([] : List α)) = items :=
    List.filter_eq_self.2 fun a _ => decide_eq_true List.not_mem_nil
  rw [foldl_takeIn_eq, hall]
  rfl

/-- Counterparts that are told apart alike are counterparts still without
their repeats. -/
theorem forall₂_foldl_takeIn [DecidableEq β] {R : α → β → Prop}
    (hR : ∀ {a a' b b'}, R a b → R a' b' → (a = a' ↔ b = b')) {items more : List α}
    {items' more' : List β} (h : List.Forall₂ R items items') (hmore : List.Forall₂ R more more') :
    List.Forall₂ R (more.foldl takeIn items) (more'.foldl takeIn items') := by
  induction hmore generalizing items items' with
  | nil => exact h
  | @cons a b more more' hab _ ih =>
      refine ih ?_
      have hmem : a ∈ items ↔ b ∈ items' := by
        constructor
        · intro ha
          obtain ⟨b', hb', hab'⟩ := counterpart_of_mem_left h ha
          rwa [(hR hab hab').1 rfl]
        · intro hb
          obtain ⟨a', ha', hab'⟩ := counterpart_of_mem_right h hb
          rwa [(hR hab hab').2 rfl]
      by_cases ha : a ∈ items
      · rwa [takeIn_of_mem ha, takeIn_of_mem (hmem.1 ha)]
      · rw [takeIn_of_not_mem ha, takeIn_of_not_mem fun hb => ha (hmem.2 hb)]
        exact List.rel_append h (.cons hab .nil)

/-- Counterparts that are told apart alike are so without their repeats. -/
theorem forall₂_unique [DecidableEq β] {R : α → β → Prop}
    (hR : ∀ {a a' b b'}, R a b → R a' b' → (a = a' ↔ b = b')) {items : List α} {items' : List β}
    (h : List.Forall₂ R items items') : List.Forall₂ R (unique items) (unique items') := by
  rw [← foldl_takeIn_nil, ← foldl_takeIn_nil]
  exact forall₂_foldl_takeIn hR .nil h

end RecipeChart
