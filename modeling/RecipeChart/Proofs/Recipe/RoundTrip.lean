/-
Printing a recipe and reading it back. Three facts come together here.
What a source writes is printable; a printable recipe is written by its
printed form, up to its spans; and taking in texts pays no attention to
spans. Hence a recipe that was read and printed reads as the same recipe
again, and its texts come into a fresh registry in the same order.
-/
import RecipeChart.Proofs.Recipe.Rereading
import RecipeChart.Proofs.Recipe.Interning

namespace RecipeChart

-- ================================================================ spans

namespace Interning

/-- A join is taken in alike, wherever it stands; so is every other part of
a recipe. -/
theorem join_unplaced (j : JoinRef String) : join j.unplaced = JoinRef.unplaced <$> join j := by
  simp only [join, JoinRef.unplaced, map_bind, map_pure]

theorem step_unplaced (s : Step String) : step s.unplaced = Step.unplaced <$> step s := by
  simp only [step, Step.unplaced, map_bind, map_pure]

theorem start_unplaced (s : Start String) : start s.unplaced = Start.unplaced <$> start s := by
  cases s with
  | group g => simp only [start, Start.unplaced, Group.unplaced, map_bind, map_pure]
  | join j => simp only [start, Start.unplaced, join_unplaced, Functor.map_map]

theorem element_unplaced (e : Element String) :
    element e.unplaced = Element.unplaced <$> element e := by
  cases e with
  | step s => simp only [element, Element.unplaced, step_unplaced, Functor.map_map]
  | join j => simp only [element, Element.unplaced, join_unplaced, Functor.map_map]

theorem finish_unplaced (e : Finish String) :
    finish e.unplaced = Finish.unplaced <$> finish e := by
  cases e with
  | join j => simp only [finish, Finish.unplaced, join_unplaced, Functor.map_map]
  | done span => simp only [finish, Finish.unplaced, map_pure]

theorem last_unplaced (last : Option (Finish String)) :
    (last.map Finish.unplaced).mapM finish = Option.map Finish.unplaced <$> last.mapM finish := by
  cases last with
  | none => simp only [Option.map_none, Option.mapM_none, map_pure]
  | some e => simp only [Option.map_some, Option.mapM_some, finish_unplaced, Functor.map_map]

/-- A fragment without its spans is taken in as the fragment is. -/
theorem fragment_unplaced (f : Fragment String) :
    fragment f.unplaced = Fragment.unplaced <$> fragment f := by
  simp only [fragment, parts, Fragment.unplaced, start_unplaced, mapM_map_eq element_unplaced,
    last_unplaced, map_bind, bind_map_left, bind_assoc, pure_bind, map_pure]

/-- Spans pass through, and make no difference otherwise. -/
theorem recipe_unplaced (texts : Recipe String) :
    Interning.recipe texts.unplaced = Recipe.unplaced <$> Interning.recipe texts := by
  simp only [Interning.recipe, Recipe.unplaced, mapM_map_eq fragment_unplaced, map_bind,
    bind_map_left, map_pure]

/-- Recipes that agree in everything but their spans are taken in the
same. -/
theorem recipe_of_unplaced_eq {texts texts' : Recipe String}
    (hsame : texts'.unplaced = texts.unplaced) {r r' : Registry} {found : Recipe Handle}
    (hop : Interning.recipe texts r = (.ok found, r')) :
    ∃ found', Interning.recipe texts' r = (.ok found', r') ∧ found'.unplaced = found.unplaced := by
  have hplain : Interning.recipe texts'.unplaced r = (.ok found.unplaced, r') := by
    rw [hsame, recipe_unplaced]
    exact Registry.map_ok_iff.2 ⟨found, hop, rfl⟩
  rw [recipe_unplaced] at hplain
  exact Registry.map_ok_iff.1 hplain

end Interning

-- ============================================================== repeats

/-- Where no text is held twice, ingredients repeat exactly when their
texts do. -/
theorem nodup_resolved_iff {r : Registry} (hr : r.strings.Nodup) {found : List (Ingredient Handle)}
    {items : List (Ingredient String)}
    (h : found.mapM (Ingredient.traverse r.resolve) = .ok items) : items.Nodup ↔ found.Nodup := by
  rw [mapM_eq_ok_iff] at h
  refine ⟨Interning.nodup_of_resolves h.flip, fun hnodup => ?_⟩
  induction h with
  | nil => exact List.nodup_nil
  | @cons b i found items hb hfound ih =>
      rw [List.nodup_cons] at hnodup ⊢
      refine ⟨fun hmem => hnodup.1 ?_, ih hnodup.2⟩
      obtain ⟨b', hb', hresolve⟩ := counterpart_of_mem_right hfound hmem
      rwa [Interning.ingredient_injective hr hb hresolve]

-- ================================================================= laws

namespace Recipe

/-- The recipe resolves in the registry to texts that can be printed and
read back. That no ingredient repeats is said of the texts, which is the
same as to say it of the handles (`nodup_resolved_iff`). -/
def PrintableIn (r : Registry) (recipe : Recipe Handle) : Prop :=
  ∃ texts, recipe.traverse r.resolve = .ok texts ∧ texts.Printable

/-- What a source writes is what is found again in the registry that the
reading leaves. -/
theorem exists_of_read {source : List Char} {r r' : Registry} {recipe : Recipe Handle}
    (hr : r.Honest) (h : Recipe.read source r = (.ok recipe, r')) :
    ∃ texts : Recipe String, texts.IsWritten source ∧ recipe.traverse r'.resolve = .ok texts := by
  obtain ⟨texts, hwritten, r₁, hop, rfl⟩ := Recipe.read_eq_ok_iff.1 h
  obtain ⟨-, hresolve⟩ := (Interning.takes_recipe hwritten.printable).ok hop
  exact ⟨texts, hwritten, hresolve hr (.freeze r₁)⟩

/-- Every recipe that is read is printable. -/
theorem printableIn_of_read {source : List Char} {r r' : Registry} {recipe : Recipe Handle}
    (hr : r.Honest) (h : Recipe.read source r = (.ok recipe, r')) : recipe.PrintableIn r' := by
  obtain ⟨texts, hwritten, hresolve⟩ := exists_of_read hr h
  exact ⟨texts, hresolve, hwritten.printable⟩

/-- A fragment that resolves starts from a group where its texts do, and
the group resolves to that of the texts. -/
theorem exists_group_of_traverse {ε β γ : Type} {k : β → Except ε γ} {f : Fragment β}
    {texts : Fragment γ} (h : f.traverse k = .ok texts) {group : Group β}
    (hstart : f.start = .group group) :
    ∃ g, texts.start = .group g ∧ group.traverse k = .ok g := by
  obtain ⟨start, hresolve, h⟩ := bind_eq_ok_iff.1 h
  obtain ⟨body, -, h⟩ := bind_eq_ok_iff.1 h
  obtain ⟨finish, -, h⟩ := bind_eq_ok_iff.1 h
  cases h
  rw [hstart] at hresolve
  obtain ⟨g, hg, rfl⟩ := map_eq_ok_iff.1 hresolve
  exact ⟨g, rfl, hg⟩

/-- No group of a recipe that was read is empty. -/
theorem ingredients_ne_nil_of_read {source : List Char} {r r' : Registry} {recipe : Recipe Handle}
    (hr : r.Honest) (h : Recipe.read source r = (.ok recipe, r')) :
    ∀ f ∈ recipe.fragments, ∀ group, f.start = .group group → group.ingredients ≠ [] := by
  intro f hf group hstart hnil
  obtain ⟨texts, hresolve, hprintable⟩ := printableIn_of_read hr h
  obtain ⟨name, -, hresolve⟩ := bind_eq_ok_iff.1 hresolve
  obtain ⟨fragments, hfragments, hresolve⟩ := bind_eq_ok_iff.1 hresolve
  cases hresolve
  obtain ⟨f', hf', hfound⟩ := counterpart_of_mem_left (mapM_eq_ok_iff.1 hfragments) hf
  obtain ⟨g, hstart', hgroup⟩ := exists_group_of_traverse hfound hstart
  obtain ⟨items, hitems, hgroup⟩ := bind_eq_ok_iff.1 hgroup
  cases hgroup
  rw [hnil] at hitems
  cases hitems
  exact hprintable.ingredients_ne_nil f' hf' _ hstart' rfl

/-- The printed form of a printable recipe is read, wherever new texts
are welcome, and as that recipe. -/
theorem Printable.read_text {texts : Recipe String} (h : texts.Printable) {r : Registry}
    (hr : r.Honest) (hfrozen : r.frozen = false) :
    ∃ recipe r' texts', Recipe.read texts.text.toList r = (.ok recipe, r')
      ∧ recipe.traverse r'.resolve = .ok texts' ∧ texts'.unplaced = texts.unplaced := by
  obtain ⟨texts', hwritten, hsame⟩ := h.isWritten
  have htakes := Interning.takes_recipe hwritten.printable
  obtain ⟨recipe, r₁, hop⟩ := htakes.succeeds (Registry.welcomes_of_not_frozen hfrozen)
  obtain ⟨-, hresolve⟩ := htakes.ok hop
  exact ⟨recipe, r₁.freeze, texts', Recipe.read_eq_ok_iff.2 ⟨texts', hwritten, r₁, hop, rfl⟩,
    hresolve hr (.freeze r₁), hsame⟩

/-- A recipe that was read and printed is read from its printed form as
it was read at first, and the registry becomes the same. -/
theorem read_text_of_read {source : List Char} {r r' : Registry} {recipe : Recipe Handle}
    (hr : r.Honest) (h : Recipe.read source r = (.ok recipe, r')) {texts : Recipe String}
    (htexts : recipe.traverse r'.resolve = .ok texts) :
    ∃ recipe', Recipe.read texts.text.toList r = (.ok recipe', r')
      ∧ recipe'.unplaced = recipe.unplaced := by
  obtain ⟨texts₁, hwritten, r₁, hop, rfl⟩ := Recipe.read_eq_ok_iff.1 h
  obtain ⟨-, hresolve⟩ := (Interning.takes_recipe hwritten.printable).ok hop
  have hfound : recipe.traverse r₁.freeze.resolve = .ok texts₁ := hresolve hr (.freeze r₁)
  rw [htexts] at hfound
  cases hfound
  obtain ⟨texts', hwritten', hsame⟩ := hwritten.printable.isWritten
  obtain ⟨recipe', hop', hsame'⟩ := Interning.recipe_of_unplaced_eq hsame hop
  exact ⟨recipe', Recipe.read_eq_ok_iff.2 ⟨texts', hwritten', r₁, hop', rfl⟩, hsame'⟩

/-- Reading gives printable recipes only; the printed form of a printable
recipe is read wherever new texts are welcome, as a recipe that resolves
to the same, spans apart; and what was read into a fresh registry is read
from its printed form with the same handles and the same texts. All that is
asked of a registry that is read into is an index that was not tampered
with, as that of the empty one and of all that becomes of it is. -/
theorem round_trip :
    (∀ source (r r' : Registry) recipe, r.Honest → Recipe.read source r = (.ok recipe, r') →
        recipe.PrintableIn r')
    ∧ (∀ (r : Registry) (recipe : Recipe Handle), recipe.PrintableIn r →
        ∃ texts, recipe.traverse r.resolve = .ok texts
          ∧ ∀ r₁ : Registry, r₁.Honest → r₁.frozen = false →
          ∃ recipe' r₂ texts', Recipe.read texts.text.toList r₁ = (.ok recipe', r₂)
            ∧ recipe'.traverse r₂.resolve = .ok texts' ∧ texts'.unplaced = texts.unplaced)
    ∧ ∀ source recipe r, Recipe.read source .empty = (.ok recipe, r) →
        ∃ texts recipe', recipe.traverse r.resolve = .ok texts
          ∧ Recipe.read texts.text.toList .empty = (.ok recipe', r)
          ∧ recipe'.unplaced = recipe.unplaced := by
  refine ⟨fun source r r' recipe hr h => printableIn_of_read hr h, ?_, ?_⟩
  · rintro r recipe ⟨texts, hresolve, hprintable⟩
    exact ⟨texts, hresolve, fun r₁ hr₁ hfrozen => hprintable.read_text hr₁ hfrozen⟩
  · intro source recipe r h
    obtain ⟨texts, -, hresolve⟩ := exists_of_read Registry.honest_empty h
    obtain ⟨recipe', hread, hsame⟩ := read_text_of_read Registry.honest_empty h hresolve
    exact ⟨texts, recipe', hresolve, hread, hsame⟩

/-- Words that end in a hyphen or a slash, a comment, a repeat. -/
def eggsSource : List Char :=
  "eggs-/ \x7b // two\n [1/2]b- ->c/&b+b->$x;$x->d-;\x7d".toList

/-- What it is read as. -/
def eggs : Recipe Handle where
  name := ⟨6⟩
  fragments :=
    [⟨.group ⟨[⟨⟨0⟩, some ⟨1⟩⟩], some ⟨2, 3⟩⟩,
        [.step ⟨⟨⟨3⟩, [⟨⟨2⟩, none⟩]⟩, some ⟨2, 12⟩⟩], some (.join ⟨⟨4⟩, some ⟨2, 20⟩⟩)⟩,
      ⟨.join ⟨⟨4⟩, some ⟨2, 23⟩⟩, [.step ⟨⟨⟨5⟩, []⟩, some ⟨2, 27⟩⟩], none⟩]

/-- The registry that the reading leaves. -/
def eggsRegistry : Registry where
  strings := ["b-", "1/2", "b", "c/", "x", "d-", "eggs-/"]
  canonicals :=
    [.ingredient ⟨⟨0⟩, some ⟨1⟩⟩, .ingredient ⟨⟨2⟩, none⟩, .action ⟨⟨3⟩, [⟨⟨2⟩, none⟩]⟩,
      .action ⟨⟨5⟩, []⟩]
  frozen := true

theorem read_eggs : Recipe.read eggsSource .empty = (.ok eggs, eggsRegistry) := by
  decide +kernel

theorem round_trip_eggs :
    Recipe.read eggsSource .empty = (.ok eggs, eggsRegistry)
      ∧ eggs.PrintableIn eggsRegistry
      ∧ ∃ texts recipe', eggs.traverse eggsRegistry.resolve = .ok texts
        ∧ Recipe.read texts.text.toList .empty = (.ok recipe', eggsRegistry)
        ∧ recipe'.unplaced = eggs.unplaced := by
  obtain ⟨hprintable, -, hagain⟩ := round_trip
  exact ⟨read_eggs, hprintable eggsSource .empty _ eggs Registry.honest_empty read_eggs,
    hagain eggsSource eggs eggsRegistry read_eggs⟩

end Recipe

end RecipeChart
