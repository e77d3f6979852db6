/-
A layer cake. One rule passes a join for every layer on its way to the
end, and one more rule to a layer leads something into its join. The
rules are sound, however many layers there are, and a tree that has a node
for each of them is deep (`Sound.exists_tree`): so there are recipes with
trees of any depth.

The words of the cake are numbered, and they are taken into a fresh
registry in that order, so each of them is handed out as its number. What
the source of a cake is read as is then the same cake, made of handles.
-/
import RecipeChart.Proofs.Recipe.RoundTrip
import RecipeChart.Proofs.Registry.Canonicals
import RecipeChart.Proofs.Relabelling
import RecipeChart.Proofs.StepTree.Depth

namespace RecipeChart

variable {α : Type} (word : Nat → α)

-- ================================================================ rules

/-- What every rule of the cake starts from. -/
def sponge : Start α := .group ⟨[⟨word 0, none⟩], none⟩

/-- The join of a layer. -/
def layer (k : Nat) : JoinRef α := ⟨word k, none⟩

/-- The rule that passes so many layers. -/
def pile (n : Nat) : Fragment α :=
  ⟨sponge word, (List.range' 1 n).map fun k => .join (layer word k), some (.done none)⟩

/-- The rule that leads into a layer. -/
def filling (k : Nat) : Fragment α := ⟨sponge word, [], some (.join (layer word k))⟩

/-- The rules of a cake of so many layers. -/
def cake (n : Nat) : List (Fragment α) := pile word n :: (List.range' 1 n).map (filling word)

/-- Inside the body of the pile stands one join for each layer. -/
theorem inner_pile (n : Nat) : (pile word n).inner = (List.range' 1 n).map (layer word) := by
  rw [Fragment.inner, pile, List.filterMap_map]
  exact congrFun List.filterMap_eq_map _

/-- The pile carries on from every layer, and no filling does. -/
theorem claims_cake (n : Nat) :
    (cake word n).flatMap Fragment.claims = (List.range' 1 n).map (layer word) := by
  have hfillings : ((List.range' 1 n).map (filling word)).flatMap Fragment.claims = [] := by
    rw [List.flatMap_map, List.flatMap_eq_nil_iff]
    exact fun k _ => rfl
  rw [cake, List.flatMap_cons, hfillings, List.append_nil, ← inner_pile]
  rfl

/-- The pile leads into every layer, and so do the fillings, one into
each. -/
theorem feeds_cake (n : Nat) : (cake word n).flatMap Fragment.feeds
    = (List.range' 1 n).map (layer word) ++ (List.range' 1 n).map (layer word) := by
  have hfillings : ((List.range' 1 n).map (filling word)).flatMap Fragment.feeds
      = (List.range' 1 n).map (layer word) := by
    rw [List.flatMap_map]
    exact List.map_eq_flatMap.symm
  rw [cake, List.flatMap_cons, hfillings, ← inner_pile]
  show (pile word n).inner ++ [] ++ (pile word n).inner = _
  rw [List.append_nil]

-- ============================================================ soundness

section Sound

variable [DecidableEq α]

omit [DecidableEq α] in
/-- The joins that a rule passes on its way to the end arrive there, and
so does the join that it sets out from. -/
theorem arrives_of_cut {fs : List (Fragment α)} {f : Fragment α} {span : Option Span}
    {owner : Start α} {actions : List (Action α)} {body : List (Element α)} (hf : f ∈ fs)
    (hcut : ∀ p ∈ Passage.cut owner actions body (some (.done span)), p ∈ f.passages) :
    ∀ ref ∈ owner.join?.toList ++ body.filterMap Element.join?, Arrives fs ref.name := by
  induction body generalizing owner actions with
  | nil =>
      intro ref href
      rw [List.filterMap_nil, List.append_nil] at href
      cases owner with
      | group g => cases href
      | join r =>
          rw [List.mem_singleton.1 href]
          exact .done hf (hcut _ (List.mem_singleton_self _)) rfl rfl
  | cons x body ih =>
      cases x with
      | step s => exact ih hcut
      | join r =>
          have hlater := ih fun p hp => hcut p (List.mem_cons_of_mem _ hp)
          intro ref href
          rcases List.mem_append.1 href with href | href
          · cases owner with
            | group g => cases href
            | join r' =>
                rw [List.mem_singleton.1 href]
                exact .jump hf (hcut _ List.mem_cons_self) rfl rfl (hlater r List.mem_cons_self)
          · exact hlater ref href

variable {word} {n : Nat}

/-- Among layers of different names one has the name of a layer. -/
theorem filter_layers (hword : Function.Injective word) {k : Nat} (hk : k ∈ List.range' 1 n) :
    ((List.range' 1 n).map (layer word)).filter (·.name = word k) = [layer word k] := by
  have hsame : ∀ j, decide ((layer word j).name = word k) = (j == k) := by
    intro j
    rw [layer, Bool.beq_eq_decide_eq, decide_eq_decide, hword.eq_iff]
  rw [List.filter_map]
  simp only [Function.comp_def, hsame]
  rw [List.filter_beq, List.count_eq_one_of_mem List.nodup_range' hk]
  rfl

/-- Every layer is carried on from once. -/
theorem claimsOf_cake (hword : Function.Injective word) {k : Nat} (hk : k ∈ List.range' 1 n) :
    claimsOf (cake word n) (word k) = [layer word k] := by
  rw [claimsOf, claims_cake, filter_layers hword hk]

/-- Every layer is led into twice. -/
theorem feedsOf_cake (hword : Function.Injective word) {k : Nat} (hk : k ∈ List.range' 1 n) :
    feedsOf (cake word n) (word k) = [layer word k, layer word k] := by
  rw [feedsOf, feeds_cake, List.filter_append, filter_layers hword hk]
  rfl

/-- The joins of a cake are those of its layers. -/
theorem exists_layer {name : α}
    (h : claimsOf (cake word n) name ≠ [] ∨ feedsOf (cake word n) name ≠ []) :
    ∃ k ∈ List.range' 1 n, word k = name := by
  have hmention : ∃ ref ∈ (List.range' 1 n).map (layer word), ref.name = name := by
    rcases h with h | h
    · obtain ⟨ref, href⟩ := List.exists_mem_of_ne_nil _ h
      rw [claimsOf, claims_cake, List.mem_filter, decide_eq_true_eq] at href
      exact ⟨ref, href⟩
    · obtain ⟨ref, href⟩ := List.exists_mem_of_ne_nil _ h
      rw [feedsOf, feeds_cake, List.mem_filter, decide_eq_true_eq, List.mem_append, or_self] at href
      exact ⟨ref, href⟩
  obtain ⟨ref, href, hname⟩ := hmention
  obtain ⟨k, hk, rfl⟩ := List.mem_map.1 href
  exact ⟨k, hk, hname⟩

/-- A cake whose layers have different names is sound. -/
theorem sound_cake (hword : Function.Injective word) : Sound (cake word n) := by
  -- Each layer is claimed once and fed twice, and nothing is left open.
  refine ⟨fun f hf => .inr ?_, ⟨pile word n, List.mem_cons_self, none, rfl⟩, fun name h => ?_,
    fun name h => ?_⟩
  · rcases List.mem_cons.1 hf with rfl | hf
    · exact Option.some_ne_none _
    · obtain ⟨k, -, rfl⟩ := List.mem_map.1 hf
      exact Option.some_ne_none _
  · obtain ⟨k, hk, rfl⟩ := exists_layer h
    rw [claimsOf_cake hword hk, feedsOf_cake hword hk]
    exact ⟨rfl, List.cons_ne_nil _ _⟩
  · obtain ⟨k, hk, rfl⟩ := exists_layer h
    have hlayer : layer word k ∈ (pile word n).inner := by
      rw [inner_pile]
      exact List.mem_map_of_mem hk
    exact arrives_of_cut (f := pile word n) List.mem_cons_self (fun p hp => hp) _ hlayer

omit [DecidableEq α] in
/-- Every rule of a cake starts from something. -/
theorem ingredients_ne_nil_cake :
    ∀ f ∈ cake word n, ∀ group, f.start = .group group → group.ingredients ≠ [] := by
  intro f hf group hstart
  have hsponge : f.start = sponge word := by
    rcases List.mem_cons.1 hf with rfl | hf
    · rfl
    · obtain ⟨k, -, rfl⟩ := List.mem_map.1 hf
      rfl
  cases hsponge.symm.trans hstart
  exact List.cons_ne_nil _ _

/-- The tree of a cake is deeper than the cake has layers. -/
theorem exists_tree_cake (hword : Function.Injective word) (n : Nat) :
    ∃ v t, checkFragments (cake word n) = .ok v ∧ v.tree = some t ∧ n + 2 ≤ t.nesting := by
  have hcrowded : ∀ ref ∈ (pile word n).inner, 2 ≤ (feedsOf (cake word n) ref.name).length := by
    intro ref href
    rw [inner_pile] at href
    obtain ⟨k, hk, rfl⟩ := List.mem_map.1 href
    exact (congrArg List.length (feedsOf_cake hword hk)).ge
  obtain ⟨v, t, hv, -, ht, hdeep⟩ :=
    (sound_cake hword).exists_tree ingredients_ne_nil_cake List.mem_cons_self rfl hcrowded
  rw [inner_pile, List.length_map, List.length_range'] at hdeep
  exact ⟨v, t, hv, ht, hdeep⟩

end Sound

-- ================================================================ words

/-- The words of the cakes that are written down: the more of the letter,
the higher the layer. -/
def wordOf (k : Nat) : String := String.ofList (List.replicate (k + 1) 'x')

/-- The handle that the registry hands out for it. -/
def handleOf (k : Nat) : Handle := ⟨k⟩

/-- Words of different numbers have different lengths. -/
theorem wordOf_injective : Function.Injective wordOf := by
  intro j k h
  have hlists := congrArg (fun s => s.toList.length) h
  simp only [wordOf, String.toList_ofList, List.length_replicate] at hlists
  omega

theorem handleOf_injective : Function.Injective handleOf := by
  intro j k h
  cases h
  rfl

/-- The recipe of a cake. -/
def cakeRecipe (n : Nat) : Recipe α := ⟨word 0, cake word n⟩

theorem isPlain_wordOf_zero : isPlain (wordOf 0).toList = true := by decide

/-- The ingredient of a cake can be printed. -/
theorem printable_sponge : (sponge wordOf).Printable := by
  refine ⟨List.cons_ne_nil _ _, List.nodup_singleton _, ?_⟩
  rw [List.forall_mem_singleton]
  exact ⟨isPlain_wordOf_zero, fun text htext => absurd htext (Option.not_mem_none text)⟩

/-- So can the name of a layer. -/
theorem printable_layer (k : Nat) : (layer wordOf k).Printable := by
  rw [JoinRef.Printable, isJoinName, layer, wordOf, String.toList_ofList]
  simp [isNameChar]

/-- So can the rule that passes all layers. -/
theorem printable_pile (n : Nat) : (pile wordOf n).Printable where
  start := printable_sponge
  body e he := by
    obtain ⟨k, -, rfl⟩ := List.mem_map.1 he
    exact printable_layer k
  finish e he := by
    cases he
    trivial
  closed hfinish := by cases hfinish

/-- So can the rule that leads into one. -/
theorem printable_filling (k : Nat) : (filling wordOf k).Printable where
  start := printable_sponge
  body e he := by cases he
  finish e he := by
    cases he
    exact printable_layer k
  closed hfinish := by cases hfinish

/-- So can the recipe of a cake. -/
theorem printable_cake (n : Nat) : (cakeRecipe wordOf n).Printable where
  name := isPlain_wordOf_zero
  fragments f hf := by
    rcases List.mem_cons.1 hf with rfl | hf
    · exact printable_pile n
    · obtain ⟨k, -, rfl⟩ := List.mem_map.1 hf
      exact printable_filling k

namespace Interning

/-- The registry that holds so many of the words. -/
def shelf (m : Nat) : Registry where
  strings := (List.range m).map wordOf
  canonicals := [.ingredient ⟨handleOf 0, none⟩]

/-- On the shelf the index and the list are each other's inverse. -/
theorem agrees_shelf (m : Nat) : (shelf m).Agrees :=
  Registry.agrees_of_index (List.nodup_range.map wordOf_injective) rfl

/-- A word of the shelf is given the handle of its number, and nothing
changes. -/
theorem intern_old {k m : Nat} (hk : k < m) :
    Registry.intern (wordOf k) (shelf m) = (.ok (handleOf k), shelf m) := by
  refine Registry.intern_of_resolve (agrees_shelf m) (Registry.resolve_eq_ok_iff.2 ⟨k, rfl, ?_⟩)
  rw [shelf, List.getElem?_map, List.getElem?_range hk]
  rfl

/-- The first word that is missing is the one after those that are there. -/
theorem not_contains_shelf (m : Nat) : ¬ (shelf m).contains (wordOf m) = true := by
  rw [(agrees_shelf m).contains_iff]
  intro hmem
  obtain ⟨j, hj, hword⟩ := List.mem_map.1 hmem
  rw [wordOf_injective hword, List.mem_range] at hj
  exact absurd hj (Nat.lt_irrefl m)

/-- That word is given the next number, and the shelf holds one more. -/
theorem intern_new (m : Nat) :
    Registry.intern (wordOf m) (shelf m) = (.ok (handleOf m), shelf (m + 1)) := by
  have hnew := not_contains_shelf m
  have htake : (shelf m).take (wordOf m) = shelf (m + 1) := by
    rw [Registry.take_of_not_contains hnew]
    simp [shelf, List.range_succ, List.zipIdx_append]
  have hlength : (shelf m).strings.length = m := by simp [shelf]
  rw [Registry.intern_of_new hnew rfl, htake, hlength]
  rfl

/-- A layer is taken in as its word is. -/
theorem join_layer {k m m' : Nat}
    (h : Registry.intern (wordOf k) (shelf m) = (.ok (handleOf k), shelf m')) :
    join (layer wordOf k) (shelf m) = (.ok (layer handleOf k), shelf m') :=
  Registry.bind_ok_iff.2 ⟨_, _, blame_ok_iff.2 h, rfl⟩

/-- The layers are handed out as their numbers when they come in turn. -/
theorem mapM_layers (m n : Nat) :
    ((List.range' m n).map fun k => Element.join (layer wordOf k)).mapM element (shelf m)
      = (.ok ((List.range' m n).map fun k => .join (layer handleOf k)), shelf (m + n)) := by
  induction n generalizing m with
  | zero => rfl
  | succ n ih =>
      rw [List.range'_succ, List.map_cons, List.map_cons]
      have hlater := ih (m + 1)
      rw [Nat.add_assoc, Nat.add_comm 1 n] at hlater
      exact Registry.mapM_cons_ok_iff.2 ⟨_, _, shelf (m + 1),
        Registry.map_ok_iff.2 ⟨_, join_layer (intern_new m), rfl⟩, hlater, rfl⟩

/-- The ingredient of a cake is what a fresh registry takes in first. -/
theorem ingredient_first :
    ingredient ⟨wordOf 0, none⟩ .empty = (.ok ⟨handleOf 0, none⟩, shelf 1) := rfl

/-- It is found on every shelf that holds anything. -/
theorem ingredient_again (m : Nat) :
    ingredient ⟨wordOf 0, none⟩ (shelf (m + 1)) = (.ok ⟨handleOf 0, none⟩, shelf (m + 1)) := by
  have hmade : Registry.ingredient (wordOf 0) none (shelf (m + 1))
      = (.ok (⟨handleOf 0, none⟩, 0), shelf (m + 1)) :=
    Registry.bind_ok_iff.2 ⟨_, _, intern_old (Nat.succ_pos m), rfl⟩
  exact Registry.bind_ok_iff.2 ⟨_, _, blame_ok_iff.2 hmade, rfl⟩

/-- What every rule starts from is taken in as its ingredient is. -/
theorem start_sponge {r r' : Registry}
    (h : ingredient ⟨wordOf 0, none⟩ r = (.ok ⟨handleOf 0, none⟩, r')) :
    start (sponge wordOf) r = (.ok (sponge handleOf), r') :=
  Registry.bind_ok_iff.2 ⟨_, _, Registry.mapM_cons_ok_iff.2 ⟨_, [], _, h, rfl, rfl⟩, rfl⟩

/-- A fragment is taken in part by part. -/
theorem fragment_eq_ok {f : Fragment String} {f' : Fragment Handle} {r r₁ r₂ r' : Registry}
    (hstart : start f.start r = (.ok f'.start, r₁))
    (hbody : f.body.mapM element r₁ = (.ok f'.body, r₂))
    (hfinish : f.finish.mapM finish r₂ = (.ok f'.finish, r')) : fragment f r = (.ok f', r') :=
  Registry.bind_ok_iff.2 ⟨_, _, hstart, Registry.bind_ok_iff.2
    ⟨(f'.body, f'.finish), r', parts_ok_iff.2 ⟨r₂, hbody, hfinish⟩, rfl⟩⟩

/-- An end in a layer of the shelf takes in nothing new. -/
theorem finish_layer {k m : Nat} (hk : k < m) :
    (some (Finish.join (layer wordOf k))).mapM finish (shelf m)
      = (.ok (some (.join (layer handleOf k))), shelf m) :=
  Registry.map_ok_iff.2 ⟨_, Registry.map_ok_iff.2 ⟨_, join_layer (intern_old hk), rfl⟩, rfl⟩

/-- Neither does a filling. -/
theorem fragment_filling {k m : Nat} (hk : k < m + 1) :
    fragment (filling wordOf k) (shelf (m + 1)) = (.ok (filling handleOf k), shelf (m + 1)) :=
  fragment_eq_ok (start_sponge (ingredient_again m)) rfl (finish_layer hk)

/-- Nor do several of them. -/
theorem mapM_fillings {m : Nat} {ks : List Nat} (hks : ∀ k ∈ ks, k < m + 1) :
    (ks.map (filling wordOf)).mapM fragment (shelf (m + 1))
      = (.ok (ks.map (filling handleOf)), shelf (m + 1)) := by
  induction ks with
  | nil => rfl
  | cons k ks ih =>
      rw [List.forall_mem_cons] at hks
      exact Registry.mapM_cons_ok_iff.2 ⟨_, _, _, fragment_filling hks.1, ih hks.2, rfl⟩

/-- The pile, taken into a fresh registry, fills the shelf. -/
theorem fragment_pile (n : Nat) :
    fragment (pile wordOf n) .empty = (.ok (pile handleOf n), shelf (n + 1)) := by
  have hlayers := mapM_layers 1 n
  rw [Nat.add_comm 1 n] at hlayers
  exact fragment_eq_ok (start_sponge ingredient_first) hlayers rfl

/-- A fresh registry hands out every word of a cake as its number. -/
theorem recipe_cake (n : Nat) :
    recipe (cakeRecipe wordOf n) .empty = (.ok (cakeRecipe handleOf n), shelf (n + 1)) := by
  have hlow : ∀ k ∈ List.range' 1 n, k < n + 1 := by
    intro k hk
    have hbounds := List.mem_range'_1.1 hk
    omega
  have hrules : (cake wordOf n).mapM fragment .empty = (.ok (cake handleOf n), shelf (n + 1)) :=
    Registry.mapM_cons_ok_iff.2 ⟨_, _, _, fragment_pile n, mapM_fillings hlow, rfl⟩
  exact recipe_ok_iff.2 ⟨shelf (n + 1), hrules, intern_old (Nat.succ_pos n)⟩

end Interning

-- =============================================================== depths

/-- The source of a cake. -/
def cakeSource (n : Nat) : List Char := (cakeRecipe wordOf n).text.toList

/-- There are recipes with trees of any depth. -/
theorem Recipe.exists_deep (n : Nat) :
    ∃ recipe r v t, Recipe.read (cakeSource n) .empty = (.ok recipe, r) ∧ recipe.check = .ok v
      ∧ v.tree = some t ∧ n + 2 ≤ t.nesting := by
  obtain ⟨texts, hwritten, hsame⟩ := (printable_cake n).isWritten
  obtain ⟨recipe, hop, hunplaced⟩ :=
    Interning.recipe_of_unplaced_eq hsame (Interning.recipe_cake n)
  have hread : Recipe.read (cakeSource n) .empty = (.ok recipe, _) :=
    Recipe.read_eq_ok_iff.2 ⟨texts, hwritten, _, hop, rfl⟩
  have hfragments : recipe.fragments.map Fragment.unplaced
      = (cake handleOf n).map (Fragment.relabel id) := by
    rw [Fragment.relabel_id]
    exact congrArg Recipe.fragments hunplaced
  obtain ⟨v, t, hv, ht, hdeep⟩ := exists_tree_cake handleOf_injective n
  obtain ⟨-, -, v₁, v', hv₁, hv', -, -, hsametree⟩ :=
    verdicts_of_relabel (Set.injOn_id _) hfragments ingredients_ne_nil_cake
  cases hv.symm.trans hv₁
  exact ⟨recipe, _, v', t, hread, hv', hsametree.trans ht, hdeep⟩

end RecipeChart
