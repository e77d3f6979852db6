/-
Canonical values over whole sessions. A value is found under its number or
recorded at the end, so the recorded values only grow at their end and none
is recorded twice. That is kept by every operation, one that fails and the
freezing included (`Keeps`), hence by every session. A call that succeeds
leaves its value under its number, and its texts under the handles of that
value; as neither texts nor values repeat, two calls get one number exactly
if they get one value, and one value exactly if they were made of the same.
-/
import RecipeChart.Proofs.Registry.Sessions

namespace RecipeChart.Registry

variable {r r' r'' : Registry} {k : Nat} {ops : List Op} {op : Op} {answer : Answer}

-- ============================================================ recording

/-- The values of the earlier registry have the same numbers in the later
one, and none comes to be recorded twice. -/
structure Keeps (r r' : Registry) : Prop where
  grows : r.canonicals <+: r'.canonicals
  nodup : r.canonicals.Nodup → r'.canonicals.Nodup

namespace Keeps

/-- Values that are untouched are kept. -/
theorem of_eq (h : r'.canonicals = r.canonicals) : Keeps r r' :=
  ⟨h ▸ List.prefix_rfl, fun hr => h ▸ hr⟩

theorem refl (r : Registry) : Keeps r r := .of_eq rfl

/-- A value that is recorded leaves those before it in their places. -/
theorem of_takeIn {value : Canonical Handle} (h : r'.canonicals = takeIn r.canonicals value) :
    Keeps r r' :=
  ⟨h ▸ prefix_foldl_takeIn r.canonicals [value], fun hr => h ▸ nodup_takeIn hr value⟩

/-- Values that are kept twice are kept. -/
theorem trans (h : Keeps r r') (h' : Keeps r' r'') : Keeps r r'' :=
  ⟨h.grows.trans h'.grows, fun hr => h'.nodup (h.nodup hr)⟩

/-- A value has its number for good. -/
theorem recorded (h : Keeps r r') {value : Canonical Handle} (hk : r.canonicals[k]? = some value) :
    r'.canonicals[k]? = some value := by
  obtain ⟨new, hnew⟩ := h.grows
  rw [← hnew, List.getElem?_append_left (List.getElem?_eq_some_iff.1 hk).1, hk]

end Keeps

-- ================================================================ calls

section Calls

variable {name description : String} {amount : Option String}
  {seasonings : List (Ingredient Handle)}

-- What is there already is found, whether or not the registry is frozen.

/-- Where the tables agree, the text of a handle is given that handle
again. -/
theorem intern_of_resolve (hr : r.Agrees) {handle : Handle} {text : String}
    (h : r.resolve handle = .ok text) : intern text r = (.ok handle, r) :=
  intern_of_find? ((hr text handle).2 h)

/-- The same of a text that may be absent. -/
theorem internOption_of_resolve (hr : r.Agrees) {handle : Option Handle} {text : Option String}
    (h : handle.mapM r.resolve = .ok text) : text.mapM intern r = (.ok handle, r) := by
  cases handle with
  | none =>
      cases h
      rfl
  | some handle =>
      obtain ⟨text, htext, rfl⟩ := map_eq_ok_iff.1 h
      exact map_ok_iff.2 ⟨handle, intern_of_resolve hr htext, rfl⟩

/-- A value that is recorded is given its number again, and nothing
changes. -/
theorem number_of_recorded (hr : r.canonicals.Nodup) {value : Canonical Handle}
    (h : r.canonicals[k]? = some value) : number value r = (.ok k, r) := by
  obtain ⟨j, hnumber, hget⟩ := number_eq r value
  have hsame : r.record value = r := by
    rw [record, takeIn_of_mem (List.mem_of_getElem? h)]
  rw [hsame] at hnumber hget
  have hlt : k < r.canonicals.length := (List.getElem?_eq_some_iff.1 h).1
  rw [hnumber, (List.getElem?_inj hlt hr).1 (h.trans hget.symm)]

/-- An ingredient that is there is given out again, and nothing changes. -/
theorem ingredient_again (hr : r.Agrees) (hvalues : r.canonicals.Nodup)
    {value : Ingredient Handle} (hname : r.resolve value.name = .ok name)
    (hamount : value.amount.mapM r.resolve = .ok amount)
    (hk : r.canonicals[k]? = some (.ingredient value)) :
    ingredient name amount r = (.ok (value, k), r) :=
  bind_ok_iff.2 ⟨_, r, intern_of_resolve hr hname,
    bind_ok_iff.2 ⟨_, r, internOption_of_resolve hr hamount,
      bind_ok_iff.2 ⟨k, r, number_of_recorded hvalues hk, rfl⟩⟩⟩

/-- An action that is there is given out again, for all seasonings that are
the same without their repeats, and nothing changes. -/
theorem action_again (hr : r.Agrees) (hvalues : r.canonicals.Nodup)
    {value : Action Handle} (hdescription : r.resolve value.description = .ok description)
    (hseasonings : value.seasonings = unique seasonings)
    (hk : r.canonicals[k]? = some (.action value)) :
    action description seasonings r = (.ok (value, k), r) := by
  have hvalue : value = .ofSeasonings value.description seasonings := by
    rw [Action.ofSeasonings, ← hseasonings]
  rw [hvalue] at hk ⊢
  exact bind_ok_iff.2 ⟨value.description, r, intern_of_resolve hr hdescription,
    bind_ok_iff.2 ⟨k, r, number_of_recorded hvalues hk, rfl⟩⟩

end Calls

-- ============================================================= sessions

/-- Whatever is answered, every canonical value keeps its number. -/
theorem keeps_answer (h : Registry.answer op r = (.ok answer, r')) : Keeps r r' := by
  cases does_of_answer h with
  | freeze => exact .of_eq rfl
  | look => exact .refl r
  | intern h => exact .of_eq (interned_of_intern h).canonicals
  | ingredient h => exact .of_takeIn (made_of_ingredient h).canonicals
  | action h => exact .of_takeIn (made_of_action h).canonicals

/-- So it does when an operation fails. -/
theorem keeps_step (r : Registry) (op : Op) : Keeps r (r.step op).2 := by
  cases h : (r.step op).1 with
  | error e => exact .of_eq (congrArg canonicals (step_of_error h))
  | ok answer => exact keeps_answer (step_of_ok h)

/-- The canonical values of a session are those of any later point, and more
behind them. -/
theorem keeps_after (r : Registry) (ops : List Op) : Keeps r (r.after ops) := by
  induction ops generalizing r with
  | nil => exact .refl r
  | cons op ops ih =>
      rw [after_cons]
      exact (keeps_step r op).trans (ih _)

/-- No value is recorded twice in a session from the empty registry. -/
theorem nodup_canonicals (ops : List Op) : (empty.after ops).canonicals.Nodup :=
  (keeps_after empty ops).nodup List.nodup_nil

/-- Each answer of a session is the one to its operation by the registry
that the operations before it leave. -/
theorem getElem?_session (r : Registry) (ops : List Op) (i : Nat) :
    (r.session ops)[i]? = ops[i]?.map (r.after (ops.take i)).step := by
  induction ops generalizing r i with
  | nil => rfl
  | cons op ops ih =>
      cases i with
      | zero => rfl
      | succ i => simp [session, ih]

/-- Was the operation asked for in this place of a session with a fresh
registry, and did it succeed with this answer? -/
def AnsweredAt (ops : List Op) (i : Nat) (op : Op) (answer : Answer) : Prop :=
  ops[i]? = some op ∧ ∃ left, (empty.session ops)[i]? = some (.ok answer, left)

/-- The ingredients that the items named in this place of the session. -/
def namedAt (ops : List Op) (i : Nat) (items : List Item) : List (Ingredient Handle) :=
  items.filterMap (empty.after (ops.take i)).item?

/-- An operation that was answered was answered by the registry of its
place, and all registries to come go on from the one it left. -/
theorem AnsweredAt.exists_answer {i : Nat} (h : AnsweredAt ops i op answer) (later : List Op) :
    ∃ r, Registry.answer op (empty.after (ops.take i)) = (.ok answer, r)
      ∧ Grows r (empty.after (ops ++ later)) ∧ Keeps r (empty.after (ops ++ later)) := by
  obtain ⟨hop, left, hanswer⟩ := h
  rw [getElem?_session, hop, Option.map_some, Option.some_inj] at hanswer
  have hok : ((empty.after (ops.take i)).step op).1 = .ok answer := by rw [hanswer]
  have hsplit : ops = ops.take i ++ op :: ops.drop (i + 1) := by
    obtain ⟨hlt, hget⟩ := List.getElem?_eq_some_iff.1 hop
    rw [← hget, ← List.drop_eq_getElem_cons hlt, List.take_append_drop]
  have hrest : empty.after (ops ++ later)
      = ((empty.after (ops.take i)).step op).2.after (ops.drop (i + 1) ++ later) := by
    conv_lhs => rw [hsplit, List.append_assoc, List.cons_append, after_append, after_cons]
  refine ⟨_, step_of_ok hok, ?_, ?_⟩
  · rw [hrest]
    exact grows_after _ _
  · rw [hrest]
    exact keeps_after _ _

/-- What is left of a call of an ingredient. -/
theorem AnsweredAt.ingredient {i : Nat} {name : String} {amount : Option String}
    (h : AnsweredAt ops i (.ingredient name amount) answer) (later : List Op) :
    ∃ value k, answer = .ingredient value k
      ∧ (empty.after (ops ++ later)).resolve value.name = .ok name
      ∧ value.amount.mapM (empty.after (ops ++ later)).resolve = .ok amount
      ∧ (empty.after (ops ++ later)).canonicals[k]? = some (.ingredient value) := by
  obtain ⟨r, hanswer, hgrows, hkeeps⟩ := h.exists_answer later
  cases does_of_answer hanswer with
  | look hop => cases hop
  | ingredient hingredient =>
      have hmade := made_of_ingredient hingredient
      obtain ⟨hname, hamount⟩ := hmade.resolve (agrees_after agrees_empty _).honest hgrows
      exact ⟨_, _, rfl, hname, hamount, hkeeps.recorded hmade.numbered⟩

/-- What is left of a call of an action. -/
theorem AnsweredAt.action {i : Nat} {description : String} {items : List Item}
    (h : AnsweredAt ops i (.action description items) answer) (later : List Op) :
    ∃ value k, answer = .action value k
      ∧ (empty.after (ops ++ later)).resolve value.description = .ok description
      ∧ value.seasonings = unique (namedAt ops i items)
      ∧ (empty.after (ops ++ later)).canonicals[k]? = some (.action value) := by
  obtain ⟨r, hanswer, hgrows, hkeeps⟩ := h.exists_answer later
  cases does_of_answer hanswer with
  | look hop => cases hop
  | action haction =>
      have hmade := made_of_action haction
      exact ⟨_, _, rfl, hmade.resolve (agrees_after agrees_empty _).honest hgrows,
        hmade.seasonings, hkeeps.recorded hmade.numbered⟩

-- ======================================================= the same value

/-- Numbers and values go together. -/
theorem number_eq_iff {ops : List Op} {k k' : Nat} {value value' : Canonical Handle}
    (h : (empty.after ops).canonicals[k]? = some value)
    (h' : (empty.after ops).canonicals[k']? = some value') : k = k' ↔ value = value' := by
  constructor
  · rintro rfl
    exact Option.some_inj.1 (h.symm.trans h')
  · rintro rfl
    have hlt := (List.getElem?_eq_some_iff.1 h).1
    exact (List.getElem?_inj hlt (nodup_canonicals ops)).1 (h.trans h'.symm)

/-- Canonical values in every session and in any way in which it may go
on. A call that succeeds gives a value of the handles of its texts and, for
an action, of the ingredients that were named, less repeats; the value is
recorded under the number that is given with it. The same call made again
whenever, the registry frozen or not, gives the same value and number and
changes nothing. Two calls of ingredients get one number exactly if their
names are equal and their amounts both absent or equal; two calls of
actions exactly if their descriptions are equal and the ingredients that
were named are so without their repeats; an ingredient and an action never
do. -/
theorem canonical_values (ops later : List Op) :
    (∀ i name amount answer, AnsweredAt ops i (.ingredient name amount) answer →
        ∃ value k, answer = .ingredient value k
          ∧ (empty.after (ops ++ later)).resolve value.name = .ok name
          ∧ value.amount.mapM (empty.after (ops ++ later)).resolve = .ok amount
          ∧ (empty.after (ops ++ later)).canonicals[k]? = some (.ingredient value)
          ∧ Registry.ingredient name amount (empty.after (ops ++ later))
            = (.ok (value, k), empty.after (ops ++ later)))
      ∧ (∀ i description items answer, AnsweredAt ops i (.action description items) answer →
        ∃ value k, answer = .action value k
          ∧ (empty.after (ops ++ later)).resolve value.description = .ok description
          ∧ value.seasonings = unique (namedAt ops i items)
          ∧ (empty.after (ops ++ later)).canonicals[k]? = some (.action value)
          ∧ ∀ seasonings, unique seasonings = unique (namedAt ops i items) →
            Registry.action description seasonings (empty.after (ops ++ later))
              = (.ok (value, k), empty.after (ops ++ later)))
      ∧ (∀ i name amount value k i' name' amount' value' k',
        AnsweredAt ops i (.ingredient name amount) (.ingredient value k) →
        AnsweredAt ops i' (.ingredient name' amount') (.ingredient value' k') →
        (k = k' ↔ name = name' ∧ amount = amount'))
      ∧ (∀ i description items value k i' description' items' value' k',
        AnsweredAt ops i (.action description items) (.action value k) →
        AnsweredAt ops i' (.action description' items') (.action value' k') →
        (k = k' ↔ description = description'
          ∧ unique (namedAt ops i items) = unique (namedAt ops i' items')))
      ∧ (∀ i name amount value k i' description items value' k',
        AnsweredAt ops i (.ingredient name amount) (.ingredient value k) →
        AnsweredAt ops i' (.action description items) (.action value' k') → k ≠ k') := by
  -- What holds of one call is told later, at the end of any session; two calls are then
  -- compared by the numbers of their values, which are one exactly if the values are
  -- (`number_eq_iff`).
  have hagrees : ∀ ops, (empty.after ops).Agrees := agrees_after agrees_empty
  refine ⟨fun i name amount answer h => ?_, fun i description items answer h => ?_,
    fun i name amount value k i' name' amount' value' k' h h' => ?_,
    fun i description items value k i' description' items' value' k' h h' => ?_,
    fun i name amount value k i' description items value' k' h h' heq => ?_⟩
  · obtain ⟨value, k, hvalue, hname, hamount, hk⟩ := h.ingredient later
    exact ⟨value, k, hvalue, hname, hamount, hk,
      ingredient_again (hagrees _) (nodup_canonicals _) hname hamount hk⟩
  · obtain ⟨value, k, hvalue, hdescription, hnamed, hk⟩ := h.action later
    refine ⟨value, k, hvalue, hdescription, hnamed, hk, fun seasonings hsame => ?_⟩
    exact action_again (hagrees _) (nodup_canonicals _) hdescription (hnamed.trans hsame.symm) hk
  · obtain ⟨_, _, ⟨⟩, hname, hamount, hk⟩ := h.ingredient []
    obtain ⟨_, _, ⟨⟩, hname', hamount', hk'⟩ := h'.ingredient []
    rw [number_eq_iff hk hk', Canonical.ingredient.injEq]
    constructor
    · rintro rfl
      exact ⟨Except.ok.inj (hname.symm.trans hname'), Except.ok.inj (hamount.symm.trans hamount')⟩
    · rintro ⟨rfl, rfl⟩
      have hfirst := resolve_injective (hagrees _).nodup hname hname'
      have hsecond := resolveOption_injective (hagrees _).nodup hamount hamount'
      cases value
      cases value'
      cases hfirst
      cases hsecond
      rfl
  · obtain ⟨_, _, ⟨⟩, hdescription, hnamed, hk⟩ := h.action []
    obtain ⟨_, _, ⟨⟩, hdescription', hnamed', hk'⟩ := h'.action []
    rw [number_eq_iff hk hk', Canonical.action.injEq, ← hnamed, ← hnamed']
    constructor
    · rintro rfl
      exact ⟨Except.ok.inj (hdescription.symm.trans hdescription'), rfl⟩
    · rintro ⟨rfl, hsame⟩
      have hfirst := resolve_injective (hagrees _).nodup hdescription hdescription'
      cases value
      cases value'
      cases hfirst
      cases hsame
      rfl
  · obtain ⟨_, _, ⟨⟩, -, -, hk⟩ := h.ingredient []
    obtain ⟨_, _, ⟨⟩, -, -, hk'⟩ := h'.action []
    cases (number_eq_iff hk hk').1 heq

/-- Eggs are fried, with an egg and something foreign as seasonings, once
before and once after no new text is welcome; then eggs by the two are
asked for, in vain. -/
def frying : List Op :=
  [.ingredient "egg" none, .action "fry" [.canonical 0, .given ⟨⟨9⟩, none⟩, .canonical 0],
    .freeze, .action "fry" [.given ⟨⟨0⟩, none⟩, .given ⟨⟨9⟩, none⟩],
    .ingredient "egg" (some "2")]

/-- Both times it is the same action, for the ingredients named are the
same without their repeats; the egg is another value, and is found again
in the frozen registry. -/
theorem canonical_values_frying :
    ((1 : Nat) = 1 ↔ "fry" = "fry"
        ∧ unique (namedAt frying 1 [.canonical 0, .given ⟨⟨9⟩, none⟩, .canonical 0])
          = unique (namedAt frying 3 [.given ⟨⟨0⟩, none⟩, .given ⟨⟨9⟩, none⟩]))
      ∧ (0 : Nat) ≠ 1
      ∧ Registry.ingredient "egg" none (empty.after (frying ++ [.intern "milk"]))
        = (.ok (⟨⟨0⟩, none⟩, 0), empty.after (frying ++ [.intern "milk"])) := by
  have hegg : AnsweredAt frying 0 (.ingredient "egg" none) (.ingredient ⟨⟨0⟩, none⟩ 0) :=
    ⟨rfl, { strings := ["egg"], canonicals := [.ingredient ⟨⟨0⟩, none⟩] }, by decide⟩
  have hfry : AnsweredAt frying 1 (.action "fry" [.canonical 0, .given ⟨⟨9⟩, none⟩, .canonical 0])
      (.action ⟨⟨1⟩, [⟨⟨0⟩, none⟩, ⟨⟨9⟩, none⟩]⟩ 1) :=
    ⟨rfl, empty.after (frying.take 2), by decide⟩
  have hagain : AnsweredAt frying 3 (.action "fry" [.given ⟨⟨0⟩, none⟩, .given ⟨⟨9⟩, none⟩])
      (.action ⟨⟨1⟩, [⟨⟨0⟩, none⟩, ⟨⟨9⟩, none⟩]⟩ 1) :=
    ⟨rfl, empty.after (frying.take 4), by decide⟩
  obtain ⟨hfound, -, -, hactions, hapart⟩ := canonical_values frying [.intern "milk"]
  obtain ⟨_, _, ⟨⟩, -, -, -, hlater⟩ := hfound _ _ _ _ hegg
  exact ⟨hactions _ _ _ _ _ _ _ _ _ _ hfry hagain, hapart _ _ _ _ _ _ _ _ _ _ hegg hfry, hlater⟩

end RecipeChart.Registry
