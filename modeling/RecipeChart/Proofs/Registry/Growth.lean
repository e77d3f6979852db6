/-
Registries over time. A registry only grows at its end, so a handle that
resolves once resolves to the same text ever after, and a text that is
found once is found under the same handle. What taking one text in can do
is said once (`intern_cases`), for the success and for the refusal; what
it does to the two tables is a step (`take`) that can be put one after
another (`Took`).

That the tables belong together is an invariant of that step. Either half
of it is kept alone: what the index finds resolves to what it was looked
up for (`Honest`), and with the other half the tables are each other's
inverse (`Agrees`). No registry that is merely written down has to be of
this kind; the empty one is, and so is all that becomes of it.
-/
import RecipeChart.Proofs.Repeats
import RecipeChart.Proofs.Registry.Tasks

namespace RecipeChart.Registry

variable {r r' r'' : Registry} {text : String} {handle : Handle}

-- ============================================================ the tables

/-- Exactly the texts of the registry are found, each under its number. -/
theorem resolve_eq_ok_iff :
    r.resolve handle = .ok text ↔ ∃ i : Nat, handle.index = i ∧ r.strings[i]? = some text := by
  unfold Registry.resolve
  constructor
  · intro h
    split at h
    · cases h
    · rename_i hindex
      split at h
      · rename_i found hget
        cases h
        exact ⟨handle.index.toNat, by omega, hget⟩
      · cases h
  · intro ⟨i, hi, hget⟩
    rw [hi, if_neg (by omega), Int.toNat_natCast, hget]

/-- A text is held exactly when some handle resolves to it. -/
theorem mem_strings_iff : text ∈ r.strings ↔ ∃ handle, r.resolve handle = .ok text := by
  constructor
  · intro hmem
    obtain ⟨i, hget⟩ := List.mem_iff_getElem?.1 hmem
    exact ⟨⟨i⟩, resolve_eq_ok_iff.2 ⟨i, rfl, hget⟩⟩
  · intro ⟨handle, hresolve⟩
    obtain ⟨i, -, hget⟩ := resolve_eq_ok_iff.1 hresolve
    exact List.mem_of_getElem? hget

/-- Where no text is held twice, no two handles resolve to the same. -/
theorem resolve_injective (hr : r.strings.Nodup) {handle' : Handle}
    (h : r.resolve handle = .ok text) (h' : r.resolve handle' = .ok text) : handle = handle' := by
  obtain ⟨i, hi, hget⟩ := resolve_eq_ok_iff.1 h
  obtain ⟨i', hi', hget'⟩ := resolve_eq_ok_iff.1 h'
  -- Both handles are places in one list, and a list without repeats has one place for a
  -- text.
  have hlt : i < r.strings.length := (List.getElem?_eq_some_iff.1 hget).1
  have hsame : i = i' := (List.getElem?_inj hlt hr).1 (hget.trans hget'.symm)
  rw [← hsame, ← hi] at hi'
  cases handle
  cases handle'
  cases hi'
  rfl

/-- Where no text is held twice, no two handles that may be absent resolve to
the same. -/
theorem resolveOption_injective (hr : r.strings.Nodup) {a a' : Option Handle}
    {text : Option String} (h : a.mapM r.resolve = .ok text) (h' : a'.mapM r.resolve = .ok text) :
    a = a' := by
  cases a with
  | none =>
      cases h
      cases a' with
      | none => rfl
      | some a' =>
          obtain ⟨_, -, hsome⟩ := map_eq_ok_iff.1 h'
          cases hsome
  | some a =>
      obtain ⟨t, ha, rfl⟩ := map_eq_ok_iff.1 h
      cases a' with
      | none => cases h'
      | some a' =>
          obtain ⟨t', ha', hsome⟩ := map_eq_ok_iff.1 h'
          cases hsome
          rw [resolve_injective hr ha ha']

/-- The registry contains the text exactly when the index has a handle for
it. -/
theorem contains_iff : r.contains text = true ↔ ∃ handle, r.find? text = some handle :=
  Option.isSome_iff_exists

/-- A text that is not contained is one that the index misses. -/
theorem not_contains_iff : ¬ r.contains text = true ↔ r.find? text = none := by
  unfold contains
  cases r.find? text with
  | none => exact ⟨fun _ => rfl, fun _ h => (nomatch h)⟩
  | some handle => exact ⟨fun h => absurd rfl h, fun h => (nomatch h)⟩

/-- What the index finds resolves to what it was looked up for. -/
def Honest (r : Registry) : Prop :=
  ∀ text handle, r.find? text = some handle → r.resolve handle = .ok text

/-- The index and the list of the texts are each other's inverse. -/
def Agrees (r : Registry) : Prop :=
  ∀ text handle, r.find? text = some handle ↔ r.resolve handle = .ok text

/-- The invariant of both tables holds the one of the index. -/
theorem Agrees.honest (h : r.Agrees) : r.Honest := fun text handle => (h text handle).1

/-- Nothing is found in the empty registry, so all that is found
resolves. -/
theorem honest_empty : empty.Honest := fun _ _ h => (nomatch h)

/-- Where a run begins, the tables are each other's inverse. -/
theorem agrees_empty : empty.Agrees := by
  refine fun text handle => ⟨fun h => (nomatch h), fun h => ?_⟩
  obtain ⟨i, -, hget⟩ := resolve_eq_ok_iff.1 h
  cases hget

/-- An index with an inverse has no room for a text that is held twice. -/
theorem Agrees.nodup (h : r.Agrees) : r.strings.Nodup := by
  rw [List.nodup_iff_getElem?_ne_getElem?]
  intro i j hij hj hsame
  have hget := List.getElem?_eq_getElem hj
  have hi := (h _ _).2 (resolve_eq_ok_iff.2 ⟨i, rfl, hsame.trans hget⟩)
  have hj' := (h _ _).2 (resolve_eq_ok_iff.2 ⟨j, rfl, hget⟩)
  have heq : (⟨i⟩ : Handle) = ⟨j⟩ := Option.some_inj.1 (hi.symm.trans hj')
  cases heq
  exact absurd hij (Nat.lt_irrefl _)

/-- Where the tables agree, to be found in the index is to stand in the
list. -/
theorem Agrees.contains_iff (h : r.Agrees) : r.contains text = true ↔ text ∈ r.strings := by
  rw [Registry.contains_iff, mem_strings_iff]
  exact exists_congr fun handle => h text handle

/-- An index that was drawn up from a list without repeats is its
inverse. -/
theorem agrees_of_index (hr : r.strings.Nodup)
    (hindex : r.index = r.strings.zipIdx.map fun (text, i) => (text, ⟨i⟩)) : r.Agrees := by
  -- The keys of the index are the texts themselves, so a look-up meets the one entry
  -- there is.
  have hkeys : (r.index.map Prod.fst).Nodup := by
    rw [hindex, List.map_map]
    exact (List.zipIdx_map_fst 0 r.strings).symm ▸ hr
  intro text handle
  rw [find?, lookup_iff_mem hkeys, hindex, List.mem_map, resolve_eq_ok_iff]
  constructor
  · rintro ⟨⟨text, i⟩, hmem, hpair⟩
    cases hpair
    exact ⟨i, rfl, List.mem_zipIdx_iff_getElem?.1 hmem⟩
  · intro ⟨i, hi, hget⟩
    refine ⟨(text, i), List.mem_zipIdx_iff_getElem?.2 hget, ?_⟩
    show (text, (⟨i⟩ : Handle)) = (text, handle)
    rw [← hi]

-- =============================================================== growth

/-- The later registry holds the texts of the earlier one, and under the
same handles. -/
structure Grows (r r' : Registry) : Prop where
  strings : r.strings <+: r'.strings
  index : r.index <+: r'.index

namespace Grows

theorem of_eq (hstrings : r'.strings = r.strings) (hindex : r'.index = r.index) : Grows r r' :=
  ⟨hstrings ▸ List.prefix_rfl, hindex ▸ List.prefix_rfl⟩

theorem refl (r : Registry) : Grows r r := .of_eq rfl rfl

/-- Freezing leaves both tables. -/
theorem freeze (r : Registry) : Grows r r.freeze := .of_eq rfl rfl

theorem trans (h : Grows r r') (h' : Grows r' r'') : Grows r r'' :=
  ⟨h.strings.trans h'.strings, h.index.trans h'.index⟩

/-- A handle that resolves once resolves to the same text ever after. -/
theorem resolve (h : Grows r r') (hr : r.resolve handle = .ok text) :
    r'.resolve handle = .ok text := by
  obtain ⟨i, hi, hget⟩ := resolve_eq_ok_iff.1 hr
  obtain ⟨new, hnew⟩ := h.strings
  refine resolve_eq_ok_iff.2 ⟨i, hi, ?_⟩
  have hlt : i < r.strings.length := (List.getElem?_eq_some_iff.1 hget).1
  rw [← hnew, List.getElem?_append_left hlt, hget]

/-- A text that is found once is found under the same handle ever after. -/
theorem find? (h : Grows r r') (hr : r.find? text = some handle) :
    r'.find? text = some handle := by
  obtain ⟨new, hnew⟩ := h.index
  rw [Registry.find?] at hr
  rw [Registry.find?, ← hnew, List.lookup_append, hr]
  rfl

end Grows

-- The tables are all that these depend on.

/-- A registry with the same tables is as honest. -/
theorem Honest.of_eq (h : r.Honest) (hstrings : r'.strings = r.strings)
    (hindex : r'.index = r.index) : r'.Honest := by
  intro text handle hfound
  rw [find?, hindex] at hfound
  exact (Grows.of_eq hstrings hindex).resolve (h text handle hfound)

/-- A registry with the same tables has them agree as well. -/
theorem Agrees.of_eq (h : r.Agrees) (hstrings : r'.strings = r.strings)
    (hindex : r'.index = r.index) : r'.Agrees := by
  refine fun text handle => ⟨h.honest.of_eq hstrings hindex text handle, fun hresolve => ?_⟩
  rw [find?, hindex]
  exact (h text handle).2 ((Grows.of_eq hstrings.symm hindex.symm).resolve hresolve)

-- ============================================================ taking in

/-- The registry with the text in both tables, at their end unless it is
found. -/
def take (r : Registry) (text : String) : Registry :=
  if r.contains text then r
  else { r with
    strings := r.strings ++ [text]
    index := r.index ++ [(text, ⟨r.strings.length⟩)] }

/-- A text that is found is not put in again. -/
theorem take_of_contains (h : r.contains text = true) : r.take text = r := if_pos h

/-- A new text stands last in the list, and in the index under the length
that the list had. -/
theorem take_of_not_contains (h : ¬ r.contains text = true) : r.take text = { r with
    strings := r.strings ++ [text], index := r.index ++ [(text, ⟨r.strings.length⟩)] } :=
  if_neg h

/-- Taking a text in moves nothing that was there. -/
theorem grows_take (r : Registry) (text : String) : Grows r (r.take text) := by
  by_cases h : r.contains text = true
  · rw [take_of_contains h]
    exact .refl r
  · rw [take_of_not_contains h]
    exact ⟨List.prefix_append _ _, List.prefix_append _ _⟩

/-- What is looked up behind a text that was taken in is the new handle, or
what was found before. -/
theorem find?_take (h : ¬ r.contains text = true) {other : String} :
    (r.take text).find? other = some handle
      ↔ r.find? other = some handle
        ∨ other = text ∧ handle = ⟨r.strings.length⟩ := by
  have hnew := not_contains_iff.1 h
  rw [take_of_not_contains h]
  show (r.index ++ [(text, _)]).lookup other = some handle ↔ _
  rw [List.lookup_append, List.lookup_cons, List.lookup_nil, ← find?]
  -- The index is searched from its front, so the new entry counts only for the new text.
  by_cases hother : other = text
  · rw [hother, hnew, beq_self_eq_true]
    constructor
    · intro hsame
      exact .inr ⟨rfl, (Option.some_inj.1 hsame).symm⟩
    · rintro (hfound | ⟨-, rfl⟩)
      · cases hfound
      · rfl
  · rw [beq_false_of_ne hother]
    simp [hother]

/-- What resolves behind a text that was taken in is what resolved before,
or the new handle to the new text. -/
theorem resolve_take (h : ¬ r.contains text = true) {other : String} :
    (r.take text).resolve handle = .ok other
      ↔ r.resolve handle = .ok other ∨ other = text ∧ handle = ⟨r.strings.length⟩ := by
  constructor
  · intro hresolve
    obtain ⟨i, hi, hget⟩ := resolve_eq_ok_iff.1 hresolve
    rw [take_of_not_contains h] at hget
    rcases Nat.lt_or_ge i r.strings.length with hlt | hge
    · rw [List.getElem?_append_left hlt] at hget
      exact .inl (resolve_eq_ok_iff.2 ⟨i, hi, hget⟩)
    · rw [List.getElem?_append_right hge, List.getElem?_singleton] at hget
      split at hget
      · next hzero =>
          have hlast : i = r.strings.length := by omega
          refine .inr ⟨(Option.some_inj.1 hget).symm, ?_⟩
          rw [← hlast, ← hi]
      · cases hget
  · rintro (hresolve | ⟨rfl, rfl⟩)
    · exact (grows_take r text).resolve hresolve
    · rw [take_of_not_contains h]
      exact resolve_eq_ok_iff.2 ⟨r.strings.length, rfl, List.getElem?_concat_length⟩

/-- A text that is taken in leaves the index honest, whether or not the
tables agreed. -/
theorem honest_take (h : r.Honest) (text : String) : (r.take text).Honest := by
  by_cases hfound : r.contains text = true
  · rwa [take_of_contains hfound]
  · intro other handle hlookup
    rw [resolve_take hfound]
    exact ((find?_take hfound).1 hlookup).imp_left (h other handle)

/-- The step lemma of the two tables: a text that is taken in leaves them
each other's inverse. -/
theorem agrees_take (h : r.Agrees) (text : String) : (r.take text).Agrees := by
  by_cases hfound : r.contains text = true
  · rwa [take_of_contains hfound]
  · intro other handle
    rw [find?_take hfound, resolve_take hfound, h other handle]

/-- Where the tables agree, the list grows by the text unless it stands
there. -/
theorem strings_take (h : r.Agrees) (text : String) :
    (r.take text).strings = takeIn r.strings text := by
  by_cases hfound : r.contains text = true
  · rw [take_of_contains hfound, takeIn_of_mem (h.contains_iff.1 hfound)]
  · rw [take_of_not_contains hfound, takeIn_of_not_mem fun hmem => hfound (h.contains_iff.2 hmem)]

/-- Taking in pays no attention to anything but the tables. -/
theorem take_congr {s : Registry} (hstrings : r.strings = s.strings) (hindex : r.index = s.index)
    (text : String) : (r.take text).strings = (s.take text).strings
      ∧ (r.take text).index = (s.take text).index := by
  unfold take contains find?
  rw [hindex, hstrings]
  split
  · exact ⟨hstrings, hindex⟩
  · exact ⟨rfl, rfl⟩

/-- Nor do several texts, one after another. -/
theorem foldl_take_congr {s : Registry} (hstrings : r.strings = s.strings)
    (hindex : r.index = s.index) (texts : List String) :
    (texts.foldl take r).strings = (texts.foldl take s).strings
      ∧ (texts.foldl take r).index = (texts.foldl take s).index := by
  induction texts generalizing r s with
  | nil => exact ⟨hstrings, hindex⟩
  | cons text texts ih =>
      obtain ⟨hstrings, hindex⟩ := take_congr hstrings hindex text
      exact ih hstrings hindex

/-- Where all texts are found nothing is added. -/
theorem foldl_take_of_contains {texts : List String}
    (h : ∀ text ∈ texts, r.contains text = true) : texts.foldl take r = r := by
  induction texts with
  | nil => rfl
  | cons text texts ih =>
      rw [List.forall_mem_cons] at h
      rw [List.foldl_cons, take_of_contains h.1]
      exact ih h.2

/-- Several texts move nothing that was there either. -/
theorem grows_foldl_take (r : Registry) (texts : List String) :
    Grows r (texts.foldl take r) := by
  induction texts generalizing r with
  | nil => exact .refl r
  | cons text texts ih => exact (grows_take r text).trans (ih _)

/-- The index stays honest under any number of texts. -/
theorem honest_foldl_take (h : r.Honest) (texts : List String) : (texts.foldl take r).Honest := by
  induction texts generalizing r with
  | nil => exact h
  | cons text texts ih => exact ih (honest_take h text)

/-- The run lemma of the two tables: they are each other's inverse after any
number of texts. -/
theorem agrees_foldl_take (h : r.Agrees) (texts : List String) :
    (texts.foldl take r).Agrees := by
  induction texts generalizing r with
  | nil => exact h
  | cons text texts ih => exact ih (agrees_take h text)

/-- Where the tables agree, the list grows by the texts that are new, each
once. -/
theorem strings_foldl_take (h : r.Agrees) (texts : List String) :
    (texts.foldl take r).strings = texts.foldl takeIn r.strings := by
  induction texts generalizing r with
  | nil => rfl
  | cons text texts ih =>
      rw [List.foldl_cons, ih (agrees_take h text), strings_take h, List.foldl_cons]

/-- The texts that the registry does not hold, each where it comes first. -/
def newTexts (r : Registry) (texts : List String) : List String :=
  unique (texts.filter (· ∉ r.strings))

/-- The registry has taken in the texts, one after another, and would not
have done so if it was frozen and one of them was new. -/
structure Took (r : Registry) (texts : List String) (r' : Registry) : Prop where
  strings : r'.strings = (texts.foldl take r).strings
  index : r'.index = (texts.foldl take r).index
  frozen : r'.frozen = r.frozen
  stored : r.frozen = true → ∀ text ∈ texts, r.contains text = true

namespace Took

variable {texts more : List String}

theorem refl (r : Registry) : Took r [] r :=
  ⟨rfl, rfl, rfl, fun _ _ htext => absurd htext List.not_mem_nil⟩

/-- What is done beside the tables makes no difference. -/
theorem of_eq (hstrings : r'.strings = r.strings) (hindex : r'.index = r.index)
    (hfrozen : r'.frozen = r.frozen) : Took r [] r' :=
  ⟨hstrings, hindex, hfrozen, fun _ _ htext => absurd htext List.not_mem_nil⟩

/-- Texts that are all found are taken in without more ado. -/
theorem of_contains (h : ∀ text ∈ texts, r.contains text = true) : Took r texts r := by
  refine ⟨?_, ?_, rfl, fun _ => h⟩
  · rw [foldl_take_of_contains h]
  · rw [foldl_take_of_contains h]

/-- All that was held is held still, under the same handles. -/
theorem grows (h : Took r texts r') : Grows r r' := by
  have hgrows := grows_foldl_take r texts
  exact ⟨h.strings ▸ hgrows.strings, h.index ▸ hgrows.index⟩

/-- The invariant of the index outlasts the taking in. -/
theorem honest (h : Took r texts r') (hr : r.Honest) : r'.Honest :=
  (honest_foldl_take hr texts).of_eq h.strings h.index

/-- So does the invariant of both tables. -/
theorem agrees (h : Took r texts r') (hr : r.Agrees) : r'.Agrees :=
  (agrees_foldl_take hr texts).of_eq h.strings h.index

/-- The texts that were taken in stand behind those that were there, each
once. -/
theorem strings_eq_append (h : Took r texts r') (hr : r.Agrees) :
    r'.strings = r.strings ++ r.newTexts texts := by
  rw [h.strings, strings_foldl_take hr, foldl_takeIn_eq]
  rfl

/-- What is held then was held before or is one of the texts. -/
theorem mem_iff (h : Took r texts r') (hr : r.Agrees) :
    text ∈ r'.strings ↔ text ∈ r.strings ∨ text ∈ texts := by
  rw [h.strings_eq_append hr, newTexts, List.mem_append, mem_unique, List.mem_filter]
  by_cases hmem : text ∈ r.strings <;> simp [hmem]

/-- A registry that is frozen has nothing new to take in. -/
theorem same (h : Took r texts r') (hr : r.frozen = true) :
    r'.strings = r.strings ∧ r'.index = r.index := by
  have hnothing := foldl_take_of_contains (h.stored hr)
  exact ⟨h.strings.trans (congrArg Registry.strings hnothing),
    h.index.trans (congrArg Registry.index hnothing)⟩

/-- A frozen registry answers as before for every text. -/
theorem contains_eq (h : Took r texts r') (hr : r.frozen = true) (text : String) :
    r'.contains text = r.contains text := by
  rw [contains, find?, (h.same hr).2]
  rfl

/-- What is taken in behind other texts is taken in with them. -/
theorem trans (h : Took r texts r') (h' : Took r' more r'') : Took r (texts ++ more) r'' := by
  obtain ⟨hstrings, hindex⟩ := foldl_take_congr h.strings h.index more
  refine ⟨?_, ?_, h'.frozen.trans h.frozen, fun hr => List.forall_mem_append.2
    ⟨h.stored hr, fun text htext => ?_⟩⟩
  · rw [List.foldl_append, h'.strings, hstrings]
  · rw [List.foldl_append, h'.index, hindex]
  · rw [← h.contains_eq hr]
    exact h'.stored (h.frozen.trans hr) text htext

end Took

-- ============================================================ one text

/-- A text that is found is given its handle, and nothing changes. -/
theorem intern_of_find? (h : r.find? text = some handle) :
    intern text r = (.ok handle, r) := by
  refine bind_ok_iff.2 ⟨r, r, rfl, ?_⟩
  rw [h]
  rfl

/-- A new text is refused by a frozen registry, and nothing changes. -/
theorem intern_of_frozen (h : ¬ r.contains text = true) (hr : r.frozen = true) :
    intern text r = (.error (.frozen text), r) := by
  refine bind_error_iff.2 (.inr ⟨r, r, rfl, ?_⟩)
  rw [not_contains_iff.1 h, hr]
  rfl

/-- Else it is put at the end of both tables. -/
theorem intern_of_new (h : ¬ r.contains text = true) (hr : r.frozen = false) :
    intern text r = (.ok ⟨r.strings.length⟩, r.take text) := by
  -- The registry has to be taken apart for the update to compute.
  cases r
  cases hr
  refine bind_ok_iff.2 ⟨_, _, rfl, ?_⟩
  rw [not_contains_iff.1 h, take_of_not_contains h]
  rfl

/-- All that taking a text in can do: the text is found, or the registry is
frozen and refuses it, or it is new and put at the end of both tables. -/
theorem intern_cases (r : Registry) (text : String) :
    (∃ handle, r.find? text = some handle ∧ intern text r = (.ok handle, r))
      ∨ (¬ r.contains text = true ∧ r.frozen = true
        ∧ intern text r = (.error (.frozen text), r))
      ∨ (¬ r.contains text = true ∧ r.frozen = false
        ∧ intern text r = (.ok ⟨r.strings.length⟩, r.take text)) := by
  by_cases hnew : r.contains text = true
  · obtain ⟨handle, hfound⟩ := contains_iff.1 hnew
    exact .inl ⟨handle, hfound, intern_of_find? hfound⟩
  · rcases Bool.eq_false_or_eq_true r.frozen with hr | hr
    · exact .inr (.inl ⟨hnew, hr, intern_of_frozen hnew hr⟩)
    · exact .inr (.inr ⟨hnew, hr, intern_of_new hnew hr⟩)

/-- A registry that is frozen refuses the first of the texts that it does not
hold. -/
def Refuses (r : Registry) (texts : List String) (e : ProvenanceError) : Prop :=
  r.frozen = true ∧ ∃ pre text post, texts = pre ++ text :: post
    ∧ (∀ earlier ∈ pre, r.contains earlier = true) ∧ ¬ r.contains text = true ∧ e = .frozen text

/-- What comes behind is not reached. -/
theorem Refuses.append {texts : List String} {e : ProvenanceError} (h : r.Refuses texts e)
    (more : List String) : r.Refuses (texts ++ more) e := by
  obtain ⟨hr, pre, text, post, rfl, hrefused⟩ := h
  exact ⟨hr, pre, text, post ++ more, List.append_assoc _ _ _, hrefused⟩

/-- What comes before was there. -/
theorem Took.refuses {texts more : List String} {e : ProvenanceError} (h : Took r texts r')
    (h' : r'.Refuses more e) : r.Refuses (texts ++ more) e := by
  obtain ⟨hr', pre, text, post, rfl, hpre, hnew, he⟩ := h'
  have hr : r.frozen = true := h.frozen.symm.trans hr'
  simp only [h.contains_eq hr] at hpre hnew
  exact ⟨hr, texts ++ pre, text, post, (List.append_assoc _ _ _).symm,
    List.forall_mem_append.2 ⟨h.stored hr, hpre⟩, hnew, he⟩

/-- The registry can take in the texts: it is not frozen, or it holds them
all. -/
def Welcomes (r : Registry) (texts : List String) : Prop :=
  r.frozen = true → ∀ text ∈ texts, r.contains text = true

/-- A registry that is not frozen can take in any texts. -/
theorem welcomes_of_not_frozen {texts : List String} (hr : r.frozen = false) : r.Welcomes texts :=
  fun hfrozen => nomatch hr.symm.trans hfrozen

/-- Texts that can be taken in are not refused. -/
theorem Welcomes.not_refuses {texts : List String} {e : ProvenanceError} (h : r.Welcomes texts) :
    ¬ r.Refuses texts e := by
  rintro ⟨hr, pre, text, post, rfl, -, hnew, -⟩
  exact hnew (h hr text (List.mem_append_right pre List.mem_cons_self))

/-- What a text leaves that was taken in. -/
structure Interned (r : Registry) (text : String) (handle : Handle) (r' : Registry) : Prop where
  took : Took r [text] r'
  found : r'.find? text = some handle
  canonicals : r'.canonicals = r.canonicals

/-- A text that was taken in is found under the handle given for it. -/
theorem interned_of_intern (h : intern text r = (.ok handle, r')) : Interned r text handle r' := by
  rcases intern_cases r text with ⟨found, hfound, hrun⟩ | ⟨-, -, hrun⟩ | ⟨hnew, hr, hrun⟩
  · cases h.symm.trans hrun
    have hcontains := contains_iff.2 ⟨handle, hfound⟩
    exact ⟨.of_contains (List.forall_mem_singleton.2 hcontains), hfound, rfl⟩
  · cases h.symm.trans hrun
  · cases h.symm.trans hrun
    refine ⟨⟨rfl, rfl, ?_, fun hfrozen => nomatch hr.symm.trans hfrozen⟩, ?_, ?_⟩
    · rw [take_of_not_contains hnew]
    · exact (find?_take hnew).2 (.inr ⟨rfl, rfl⟩)
    · rw [take_of_not_contains hnew]

/-- A text that a frozen registry takes in changes nothing. -/
theorem Interned.eq_of_frozen (h : Interned r text handle r') (hr : r.frozen = true) :
    r' = r := by
  obtain ⟨hstrings, hindex⟩ := h.took.same hr
  have hfrozen := h.took.frozen
  have hcanonicals := h.canonicals
  cases r
  cases r'
  cases hstrings
  cases hindex
  cases hfrozen
  cases hcanonicals
  rfl

/-- A text that is refused has changed nothing. -/
theorem refuses_of_intern {e : ProvenanceError} (h : intern text r = (.error e, r')) :
    r' = r ∧ r.Refuses [text] e := by
  rcases intern_cases r text with ⟨found, -, hrun⟩ | ⟨hnew, hr, hrun⟩ | ⟨-, -, hrun⟩
  · cases h.symm.trans hrun
  · cases h.symm.trans hrun
    exact ⟨rfl, hr, [], text, [], rfl, fun _ hmem => absurd hmem List.not_mem_nil, hnew, rfl⟩
  · cases h.symm.trans hrun

/-- What was taken in resolves to the text, then and later. -/
theorem Interned.resolve (h : Interned r text handle r') (hr : r.Honest) (hlater : Grows r' r'') :
    r''.resolve handle = .ok text :=
  hlater.resolve (h.took.honest hr text handle h.found)

-- ==================================================== one text or none

/-- What a text leaves that was taken in if it was there. -/
structure InternedOption (r : Registry) (text : Option String) (handle : Option Handle)
    (r' : Registry) : Prop where
  took : Took r text.toList r'
  found : text.mapM r'.find? = some handle
  canonicals : r'.canonicals = r.canonicals

/-- The same of a text that may be absent: none is taken in then, and none
found. -/
theorem interned_of_internOption {text : Option String} {handle : Option Handle}
    (h : text.mapM intern r = (.ok handle, r')) : InternedOption r text handle r' := by
  cases text with
  | none =>
      cases h
      exact ⟨.refl r, rfl, rfl⟩
  | some text =>
      obtain ⟨handle, hintern, rfl⟩ := map_ok_iff.1 h
      have hinterned := interned_of_intern hintern
      refine ⟨hinterned.took, ?_, hinterned.canonicals⟩
      rw [Option.mapM_some, hinterned.found]
      rfl

/-- A refusal of a text that may be absent is one of the text, and changes
nothing. -/
theorem refuses_of_internOption {text : Option String} {e : ProvenanceError}
    (h : text.mapM intern r = (.error e, r')) : r' = r ∧ r.Refuses text.toList e := by
  cases text with
  | none => cases h
  | some text => exact refuses_of_intern (map_error_iff.1 h)

/-- What is found for a text that may be absent resolves to it, then and
later. -/
theorem resolve_of_findOption (hr : r.Honest) {text : Option String} {handle : Option Handle}
    (h : text.mapM r.find? = some handle) (hlater : Grows r r') :
    handle.mapM r'.resolve = .ok text := by
  cases text with
  | none =>
      cases h
      rfl
  | some text =>
      obtain ⟨found, hfound, rfl⟩ := Option.map_eq_some_iff.1 h
      rw [Option.mapM_some, hlater.resolve (hr text found hfound)]
      rfl

-- ==================================================== canonical values

/-- The registry with the value recorded, at the end unless it is there. -/
def record (r : Registry) (value : Canonical Handle) : Registry :=
  { r with canonicals := takeIn r.canonicals value }

/-- A value is recorded beside the tables, and its number leads to it. -/
theorem number_eq (r : Registry) (value : Canonical Handle) :
    ∃ k, number value r = (.ok k, r.record value)
      ∧ (r.record value).canonicals[k]? = some value := by
  cases hfound : r.canonicals.idxOf? value with
  | some i =>
      obtain ⟨hlt, hget, -⟩ := List.idxOf?_eq_some_iff.1 hfound
      have hsame : r.record value = r := by
        rw [record, takeIn_of_mem (hget ▸ List.getElem_mem hlt)]
      rw [hsame]
      refine ⟨i, bind_ok_iff.2 ⟨r, r, rfl, ?_⟩, by rw [List.getElem?_eq_getElem hlt, hget]⟩
      rw [hfound]
      rfl
  | none =>
      have hnew : (r.record value).canonicals = r.canonicals ++ [value] :=
        takeIn_of_not_mem (List.idxOf?_eq_none_iff.1 hfound)
      refine ⟨r.canonicals.length, bind_ok_iff.2 ⟨r, r, rfl, ?_⟩, ?_⟩
      · rw [hfound, record, takeIn_of_not_mem (List.idxOf?_eq_none_iff.1 hfound)]
        rfl
      · rw [hnew]
        exact List.getElem?_concat_length

/-- Recording a value takes in no text. -/
theorem took_record (r : Registry) (value : Canonical Handle) : Took r [] (r.record value) :=
  .of_eq rfl rfl rfl

section Canonicals

variable {k : Nat} {name description : String} {amount : Option String}
  {seasonings : List (Ingredient Handle)}

/-- What an ingredient leaves that was made: its texts taken in, and its value
recorded behind them. -/
structure MadeIngredient (r : Registry) (name : String) (amount : Option String)
    (value : Ingredient Handle) (k : Nat) (r' : Registry) : Prop where
  took : Took r (name :: amount.toList) r'
  name : r'.find? name = some value.name
  amount : amount.mapM r'.find? = some value.amount
  canonicals : r'.canonicals = takeIn r.canonicals (.ingredient value)
  numbered : r'.canonicals[k]? = some (.ingredient value)

/-- An ingredient that was made has taken in its name and then its amount,
and its value stands among the canonical ones. -/
theorem made_of_ingredient {value : Ingredient Handle}
    (h : ingredient name amount r = (.ok (value, k), r')) :
    MadeIngredient r name amount value k r' := by
  obtain ⟨hname, r₁, hintern, h⟩ := bind_ok_iff.1 h
  obtain ⟨hamount, r₂, hoption, h⟩ := bind_ok_iff.1 h
  obtain ⟨k', r₃, hnumber, h⟩ := bind_ok_iff.1 h
  cases h
  obtain ⟨k', hrun, hget⟩ := number_eq r₂ (.ingredient ⟨hname, hamount⟩)
  cases hnumber.symm.trans hrun
  -- Name and amount are taken in one after the other; what follows them touches no table.
  have hfirst := interned_of_intern hintern
  have hsecond := interned_of_internOption hoption
  refine ⟨?_, ?_, ?_, ?_, hget⟩
  · have hall :=
      (hfirst.took.trans hsecond.took).trans (took_record r₂ (.ingredient ⟨hname, hamount⟩))
    rwa [List.append_nil] at hall
  · exact hsecond.took.grows.find? hfirst.found
  · exact hsecond.found
  · rw [record, hsecond.canonicals, hfirst.canonicals]

/-- An ingredient that is refused has changed nothing: only a frozen registry
refuses, and there the texts before were found. -/
theorem refuses_of_ingredient {e : ProvenanceError}
    (h : ingredient name amount r = (.error e, r')) :
    r' = r ∧ r.Refuses (name :: amount.toList) e := by
  rcases bind_error_iff.1 h with hfirst | ⟨hname, r₁, hintern, h⟩
  · obtain ⟨hsame, hrefuses⟩ := refuses_of_intern hfirst
    exact ⟨hsame, hrefuses.append amount.toList⟩
  -- The amount is refused: the registry is frozen then, so the name has changed nothing.
  · have hinterned := interned_of_intern hintern
    rcases bind_error_iff.1 h with hsecond | ⟨hamount, r₂, hoption, h⟩
    · obtain ⟨rfl, hrefuses⟩ := refuses_of_internOption hsecond
      have hboth := hinterned.took.refuses hrefuses
      exact ⟨hinterned.eq_of_frozen hboth.1, hboth⟩
    · obtain ⟨k, hrun, -⟩ := number_eq r₂ (.ingredient ⟨hname, hamount⟩)
      rcases bind_error_iff.1 h with hnumber | ⟨k', r₃, hnumber, h⟩
      · cases hnumber.symm.trans hrun
      · cases h

/-- The handles of an ingredient resolve to its texts, then and later. -/
theorem MadeIngredient.resolve {value : Ingredient Handle}
    (h : MadeIngredient r name amount value k r') (hr : r.Honest) (hlater : Grows r' r'') :
    r''.resolve value.name = .ok name ∧ value.amount.mapM r''.resolve = .ok amount :=
  ⟨hlater.resolve (h.took.honest hr name value.name h.name),
    resolve_of_findOption (h.took.honest hr) h.amount hlater⟩

/-- What an action leaves that was made: its description taken in, and its
value recorded behind it. -/
structure MadeAction (r : Registry) (description : String)
    (seasonings : List (Ingredient Handle)) (value : Action Handle) (k : Nat) (r' : Registry) :
    Prop where
  took : Took r [description] r'
  description : r'.find? description = some value.description
  seasonings : value.seasonings = unique seasonings
  canonicals : r'.canonicals = takeIn r.canonicals (.action value)
  numbered : r'.canonicals[k]? = some (.action value)

/-- An action that was made has taken in its description alone: its
seasonings were made before, or come from elsewhere. -/
theorem made_of_action {value : Action Handle}
    (h : action description seasonings r = (.ok (value, k), r')) :
    MadeAction r description seasonings value k r' := by
  obtain ⟨handle, r₁, hintern, h⟩ := bind_ok_iff.1 h
  obtain ⟨k', r₂, hnumber, h⟩ := bind_ok_iff.1 h
  cases h
  obtain ⟨k', hrun, hget⟩ := number_eq r₁ (.action (.ofSeasonings handle seasonings))
  cases hnumber.symm.trans hrun
  have hinterned := interned_of_intern hintern
  refine ⟨?_, hinterned.found, rfl, ?_, hget⟩
  · have hall := hinterned.took.trans (took_record r₁ (.action (.ofSeasonings handle seasonings)))
    rwa [List.append_nil] at hall
  · rw [record, hinterned.canonicals]

/-- An action that is refused has changed nothing. -/
theorem refuses_of_action {e : ProvenanceError}
    (h : action description seasonings r = (.error e, r')) :
    r' = r ∧ r.Refuses [description] e := by
  rcases bind_error_iff.1 h with hintern | ⟨handle, r₁, -, h⟩
  · exact refuses_of_intern hintern
  · obtain ⟨k, hrun, -⟩ := number_eq r₁ (.action (.ofSeasonings handle seasonings))
    rcases bind_error_iff.1 h with hnumber | ⟨k', r₂, -, h⟩
    · cases hnumber.symm.trans hrun
    · cases h

/-- The handle of an action resolves to its description, then and later. -/
theorem MadeAction.resolve {value : Action Handle}
    (h : MadeAction r description seasonings value k r') (hr : r.Honest) (hlater : Grows r' r'') :
    r''.resolve value.description = .ok description :=
  hlater.resolve (h.took.honest hr description value.description h.description)

end Canonicals

end RecipeChart.Registry
