/-
Sessions with a registry, from the empty one on. What a step does to the
texts is said once: an operation that succeeds takes in its texts, each at
the end unless it is there, and a frozen registry lets it succeed only if
all of them are there. An operation that fails has done nothing, though it
may have several texts to take in: it is a frozen registry that refuses,
and what it let pass before it held. From this the law of a whole session
follows by induction on its operations: the index and the list of the
texts stay each other's inverse, so no text is ever stored twice and a
text has one handle for good, and what is stored is what some operation
took in.

An operation may hand out handles inside a value: those of an ingredient
and that of the description of an action.
-/
import RecipeChart.Proofs.Registry.Growth
import RecipeChart.Registry.Session

namespace RecipeChart.Registry

variable {r r' : Registry} {text : String} {handle : Handle} {op : Op} {ops : List Op}
  {answer : Answer}

-- ================================================================ steps

/-- The texts that the operation takes in. -/
def Op.texts : Op → List String
  | .intern text => [text]
  | .ingredient name amount => name :: amount.toList
  | .action description _ => [description]
  | .resolve _ | .contains _ | .freeze | .unique _ | .print _ => []

/-- An operation that succeeds, with its answer and the registry it
leaves: it freezes, it only looks something up, or it takes something in. -/
inductive Does (r : Registry) : Op → Answer → Registry → Prop where
  | freeze : Does r .freeze (.truth true) r.freeze
  | look {op : Op} {answer : Answer} (hop : op.texts = []) (hne : op ≠ .freeze) : Does r op answer r
  | intern {text : String} {handle : Handle} {r' : Registry}
      (h : intern text r = (.ok handle, r')) : Does r (.intern text) (.handle handle) r'
  | ingredient {name : String} {amount : Option String} {value : Ingredient Handle} {k : Nat}
      {r' : Registry} (h : ingredient name amount r = (.ok (value, k), r')) :
      Does r (.ingredient name amount) (.ingredient value k) r'
  | action {description : String} {items : List Item} {value : Action Handle} {k : Nat}
      {r' : Registry} (h : action description (items.filterMap r.item?) r = (.ok (value, k), r')) :
      Does r (.action description items) (.action value k) r'

/-- What is only asked of the registry as it stands leaves it so. -/
theorem lifted_iff {β γ : Type} {x : Except ProvenanceError β} {f : β → γ}
    {res : Except ProvenanceError γ} :
    (do return f (← (x : Task ProvenanceError β)) : Task ProvenanceError γ) r = (res, r')
      ↔ res = f <$> x ∧ r' = r := by
  cases x with
  | error e => exact ⟨fun h => by cases h; exact ⟨rfl, rfl⟩, fun ⟨h, h'⟩ => by rw [h, h']; rfl⟩
  | ok b => exact ⟨fun h => by cases h; exact ⟨rfl, rfl⟩, fun ⟨h, h'⟩ => by rw [h, h']; rfl⟩

/-- All that an operation can do, if it succeeds. -/
theorem does_of_answer (h : Registry.answer op r = (.ok answer, r')) : Does r op answer r' := by
  cases op with
  | intern text =>
      obtain ⟨handle, r₁, hintern, h⟩ := bind_ok_iff.1 h
      cases h
      exact .intern hintern
  | resolve reference =>
      -- To look something up leaves the registry, and so do all operations below that
      -- only look.
      obtain ⟨-, rfl⟩ := lifted_iff.1 h
      exact .look rfl nofun
  | contains text =>
      cases h
      exact .look rfl nofun
  | freeze =>
      cases h
      exact .freeze
  | ingredient name amount =>
      obtain ⟨⟨value, k⟩, r₁, hingredient, h⟩ := bind_ok_iff.1 h
      cases h
      exact .ingredient hingredient
  | action description seasonings =>
      obtain ⟨⟨value, k⟩, r₁, haction, h⟩ := bind_ok_iff.1 (get_bind_iff.1 h)
      cases h
      exact .action haction
  | unique items =>
      cases h
      exact .look rfl nofun
  | print k =>
      replace h := get_bind_iff.1 h
      cases hvalue : r.canonicals[k]? with
      | none =>
          rw [hvalue] at h
          cases h
          exact .look rfl nofun
      | some value =>
          rw [hvalue] at h
          obtain ⟨-, rfl⟩ := lifted_iff.1 h
          exact .look rfl nofun

/-- An operation that fails leaves the registry as it was, whatever it had
done before: what can fail in the middle fails for a frozen registry, and
there it had taken nothing in. -/
theorem eq_of_answer_error {e : ProvenanceError} (h : Registry.answer op r = (.error e, r')) :
    r' = r := by
  cases op with
  | intern text =>
      rcases bind_error_iff.1 h with hintern | ⟨_, _, -, h⟩
      · exact (refuses_of_intern hintern).1
      · cases h
  | resolve reference => exact (lifted_iff.1 h).2
  | contains text => cases h
  | freeze => cases h
  | ingredient name amount =>
      rcases bind_error_iff.1 h with hingredient | ⟨_, _, -, h⟩
      · exact (refuses_of_ingredient hingredient).1
      · cases h
  | action description seasonings =>
      rcases bind_error_iff.1 (get_bind_iff.1 h) with haction | ⟨_, _, -, h⟩
      · exact (refuses_of_action haction).1
      · cases h
  | unique items => cases h
  | print k =>
      replace h := get_bind_iff.1 h
      cases hvalue : r.canonicals[k]? with
      | none =>
          rw [hvalue] at h
          cases h
      | some value =>
          rw [hvalue] at h
          exact (lifted_iff.1 h).2

/-- All that an operation can do to the texts, if it succeeds. -/
theorem answer_cases (h : Registry.answer op r = (.ok answer, r')) :
    (op = .freeze ∧ r' = r.freeze) ∨ (op ≠ .freeze ∧ Took r op.texts r') := by
  cases does_of_answer h with
  | freeze => exact .inl ⟨rfl, rfl⟩
  | look hop hne =>
      rw [hop]
      exact .inr ⟨hne, .refl r⟩
  | intern h => exact .inr ⟨nofun, (interned_of_intern h).took⟩
  | ingredient h => exact .inr ⟨nofun, (made_of_ingredient h).took⟩
  | action h => exact .inr ⟨nofun, (made_of_action h).took⟩

/-- An operation that fails leaves the registry it was asked of. -/
theorem step_of_error {e : ProvenanceError} (h : (r.step op).1 = .error e) :
    (r.step op).2 = r :=
  eq_of_answer_error (Prod.ext h rfl)

/-- An operation that succeeds leaves what its task leaves. -/
theorem step_of_ok (h : (r.step op).1 = .ok answer) :
    Registry.answer op r = (.ok answer, (r.step op).2) :=
  Prod.ext h rfl

/-- All that a step can do to the texts: it fails and does nothing, it
freezes, or it takes in the texts of its operation. -/
theorem step_cases (r : Registry) (op : Op) :
    (∃ e, (r.step op).1 = .error e ∧ (r.step op).2 = r)
      ∨ (op = .freeze ∧ (r.step op).2 = r.freeze)
      ∨ (∃ answer, (r.step op).1 = .ok answer ∧ op ≠ .freeze ∧ Took r op.texts (r.step op).2) := by
  cases h : (r.step op).1 with
  | error e => exact .inl ⟨e, rfl, step_of_error h⟩
  | ok answer =>
      rcases answer_cases (step_of_ok h) with hfreeze | htook
      · exact .inr (.inl hfreeze)
      · exact .inr (.inr ⟨answer, rfl, htook⟩)

/-- No operation moves a text or a handle. -/
theorem grows_step (r : Registry) (op : Op) : Grows r (r.step op).2 := by
  rcases step_cases r op with ⟨-, -, h⟩ | ⟨-, h⟩ | ⟨-, -, -, htook⟩
  · rw [h]
    exact .refl r
  · rw [h]
    exact .of_eq rfl rfl
  · exact htook.grows

/-- The step lemma of a session: an operation, whether or not it succeeds,
leaves the two tables each other's inverse. -/
theorem agrees_step (hr : r.Agrees) (op : Op) : (r.step op).2.Agrees := by
  rcases step_cases r op with ⟨-, -, h⟩ | ⟨-, h⟩ | ⟨-, -, -, htook⟩
  · rwa [h]
  · rw [h]
    exact hr.of_eq rfl rfl
  · exact htook.agrees hr

/-- A registry is frozen by the one operation, and for good. -/
theorem frozen_step (r : Registry) (op : Op) :
    (r.step op).2.frozen = true ↔ r.frozen = true ∨ op = .freeze := by
  rcases step_cases r op with ⟨e, herror, h⟩ | ⟨hop, h⟩ | ⟨-, -, hop, htook⟩
  · rw [h]
    refine ⟨.inl, fun hor => hor.elim id fun hop => ?_⟩
    rw [hop] at herror
    cases herror
  · rw [h]
    exact ⟨fun _ => .inr hop, fun _ => rfl⟩
  · rw [htook.frozen]
    exact ⟨.inl, fun hor => hor.elim id fun heq => absurd heq hop⟩

/-- A frozen registry keeps both tables through a step. -/
theorem same_step (hr : r.frozen = true) (op : Op) :
    (r.step op).2.strings = r.strings ∧ (r.step op).2.index = r.index := by
  rcases step_cases r op with ⟨-, -, h⟩ | ⟨-, h⟩ | ⟨-, -, -, htook⟩
  · rw [h]
    exact ⟨rfl, rfl⟩
  · rw [h]
    exact ⟨rfl, rfl⟩
  · exact htook.same hr

/-- The texts after a step are those before it and, if the operation
succeeds, the ones that it takes in. -/
theorem mem_step_iff (hr : r.Agrees) (op : Op) :
    text ∈ (r.step op).2.strings
      ↔ text ∈ r.strings ∨ (∃ answer, (r.step op).1 = .ok answer) ∧ text ∈ op.texts := by
  rcases step_cases r op with ⟨e, herror, h⟩ | ⟨hop, h⟩ | ⟨answer, hok, -, htook⟩
  · rw [h]
    refine ⟨.inl, fun hor => hor.elim id fun htaken => ?_⟩
    obtain ⟨⟨answer, hok⟩, -⟩ := htaken
    cases herror.symm.trans hok
  · rw [h, hop]
    exact ⟨.inl, fun hor => hor.elim id fun htaken => absurd htaken.2 List.not_mem_nil⟩
  · rw [htook.mem_iff hr]
    exact or_congr_right ⟨fun htext => ⟨⟨answer, hok⟩, htext⟩, And.right⟩

/-- Does the answer to the operation hand out the handle of the text? -/
inductive HandsOut : Op → Answer → String → Handle → Prop where
  | intern (text : String) (handle : Handle) : HandsOut (.intern text) (.handle handle) text handle
  | name (name : String) (amount : Option String) (value : Ingredient Handle) (k : Nat) :
      HandsOut (.ingredient name amount) (.ingredient value k) name value.name
  | amount (name text : String) (handle h : Handle) (k : Nat) :
      HandsOut (.ingredient name (some text)) (.ingredient ⟨h, some handle⟩ k) text handle
  | description (text : String) (seasonings : List Item) (value : Action Handle) (k : Nat) :
      HandsOut (.action text seasonings) (.action value k) text value.description

/-- A handle that is handed out for a text resolves to it. -/
theorem resolve_of_answer (h : Registry.answer op r = (.ok answer, r')) (hr : r.Honest)
    (hhands : HandsOut op answer text handle) : r'.resolve handle = .ok text := by
  cases does_of_answer h with
  | freeze => cases hhands
  | look hop =>
      cases hhands with
      | intern | name | amount | description => cases hop
  | intern h =>
      cases hhands
      exact (interned_of_intern h).resolve hr (.refl r')
  | ingredient h =>
      obtain ⟨hname, hamount⟩ := (made_of_ingredient h).resolve hr (.refl r')
      cases hhands with
      | name => exact hname
      | amount =>
          rw [Option.mapM_some] at hamount
          obtain ⟨text', htext, hsome⟩ := map_eq_ok_iff.1 hamount
          cases hsome
          exact htext
  | action h =>
      cases hhands
      exact (made_of_action h).resolve hr (.refl r')

-- ============================================================= sessions

/-- The registry that a session leaves: the one beside its last answer. -/
def after (r : Registry) (ops : List Op) : Registry :=
  ((r.session ops).getLast?.map Prod.snd).getD r

@[simp]
theorem after_nil (r : Registry) : r.after [] = r := rfl

/-- A session goes on from what its first operation leaves. -/
@[simp]
theorem after_cons (r : Registry) (op : Op) (ops : List Op) :
    r.after (op :: ops) = (r.step op).2.after ops := by
  rw [after, after, session]
  cases hrest : (r.step op).2.session ops with
  | nil => rfl
  | cons first rest =>
      rw [List.getLast?_cons_cons]
      cases hlast : (first :: rest).getLast? with
      | none => cases List.getLast?_eq_none_iff.1 hlast
      | some last => rfl

/-- A session can be cut in two anywhere. -/
theorem after_append (r : Registry) (ops later : List Op) :
    r.after (ops ++ later) = (r.after ops).after later := by
  induction ops generalizing r with
  | nil => rfl
  | cons op ops ih => simp [ih]

/-- Was the operation part of the session, and did it succeed with this
answer? -/
def Answered (r : Registry) (ops : List Op) (op : Op) (answer : Answer) : Prop :=
  ∃ left, (op, .ok answer, left) ∈ ops.zip (r.session ops)

/-- An operation is answered in a session at its beginning or in what
follows it. -/
theorem answered_cons_iff {first : Op} :
    Answered r (first :: ops) op answer
      ↔ (op = first ∧ (r.step first).1 = .ok answer) ∨ Answered (r.step first).2 ops op answer := by
  unfold Answered
  rw [session, List.zip_cons_cons]
  constructor
  · intro ⟨left, hmem⟩
    rcases List.mem_cons.1 hmem with heq | hmem
    · injection heq with hop hstep
      exact .inl ⟨hop, (congrArg Prod.fst hstep).symm⟩
    · exact .inr ⟨left, hmem⟩
  · intro hor
    rcases hor with ⟨rfl, hok⟩ | ⟨left, hmem⟩
    · exact ⟨(r.step op).2, List.mem_cons.2 (.inl (by rw [← hok]))⟩
    · exact ⟨left, List.mem_cons_of_mem _ hmem⟩

/-- No session moves a text or a handle. -/
theorem grows_after (r : Registry) (ops : List Op) : Grows r (r.after ops) := by
  induction ops generalizing r with
  | nil => exact .refl r
  | cons op ops ih =>
      rw [after_cons]
      exact (grows_step r op).trans (ih _)

/-- The run lemma of a session: the tables stay each other's inverse. -/
theorem agrees_after (hr : r.Agrees) (ops : List Op) : (r.after ops).Agrees := by
  induction ops generalizing r with
  | nil => exact hr
  | cons op ops ih =>
      rw [after_cons]
      exact ih (agrees_step hr op)

/-- A registry is frozen after a session that begins so or freezes it. -/
theorem frozen_after (r : Registry) (ops : List Op) :
    (r.after ops).frozen = true ↔ r.frozen = true ∨ .freeze ∈ ops := by
  induction ops generalizing r with
  | nil => simp
  | cons op ops ih => simp [ih, frozen_step, or_assoc, @eq_comm _ op]

/-- A session with a frozen registry leaves both tables as they are. -/
theorem same_after (hr : r.frozen = true) (ops : List Op) :
    (r.after ops).strings = r.strings ∧ (r.after ops).index = r.index := by
  induction ops generalizing r with
  | nil => exact ⟨rfl, rfl⟩
  | cons op ops ih =>
      obtain ⟨hstrings, hindex⟩ := same_step hr op
      obtain ⟨hstrings', hindex'⟩ := ih ((frozen_step r op).2 (.inl hr))
      rw [after_cons]
      exact ⟨hstrings'.trans hstrings, hindex'.trans hindex⟩

/-- What a session stores is what its operations took in. -/
theorem mem_after_iff (hr : r.Agrees) (ops : List Op) :
    text ∈ (r.after ops).strings
      ↔ text ∈ r.strings ∨ ∃ op answer, Answered r ops op answer ∧ text ∈ op.texts := by
  induction ops generalizing r with
  | nil =>
      refine ⟨.inl, fun hor => hor.elim id fun htaken => ?_⟩
      obtain ⟨op, answer, ⟨left, hmem⟩, -⟩ := htaken
      cases hmem
  | cons first ops ih =>
      rw [after_cons, ih (agrees_step hr first), mem_step_iff hr, or_assoc]
      refine or_congr_right ?_
      simp only [answered_cons_iff]
      constructor
      · intro hor
        rcases hor with ⟨⟨answer, hok⟩, htext⟩ | ⟨op, answer, hanswered, htext⟩
        · exact ⟨first, answer, .inl ⟨rfl, hok⟩, htext⟩
        · exact ⟨op, answer, .inr hanswered, htext⟩
      · intro ⟨op, answer, hanswered, htext⟩
        rcases hanswered with ⟨rfl, hok⟩ | hanswered
        · exact .inl ⟨⟨answer, hok⟩, htext⟩
        · exact .inr ⟨op, answer, hanswered, htext⟩

/-- What is handed out in a session resolves to its text in the end. -/
theorem resolve_of_answered (hr : r.Agrees) (h : Answered r ops op answer)
    (hhands : HandsOut op answer text handle) : (r.after ops).resolve handle = .ok text := by
  induction ops generalizing r with
  | nil =>
      obtain ⟨left, hmem⟩ := h
      cases hmem
  | cons first ops ih =>
      rw [after_cons]
      rcases answered_cons_iff.1 h with ⟨rfl, hok⟩ | h
      · exact (grows_after _ ops).resolve (resolve_of_answer (step_of_ok hok) hr.honest hhands)
      · exact ih (agrees_step hr first) h

-- ============================================================== the law

/-- A frozen registry takes in what it holds, and nothing else. -/
theorem intern_succeeds_iff (hr : r.frozen = true) :
    (∃ handle r', intern text r = (.ok handle, r')) ↔ r.contains text = true := by
  constructor
  · intro ⟨handle, r', hintern⟩
    exact (interned_of_intern hintern).took.stored hr text List.mem_cons_self
  · intro hcontains
    obtain ⟨handle, hfound⟩ := contains_iff.1 hcontains
    exact ⟨handle, r, intern_of_find? hfound⟩

/-- A frozen registry makes exactly the ingredients whose texts it holds. -/
theorem ingredient_succeeds_iff (hr : r.frozen = true) {name : String} {amount : Option String} :
    (∃ value k r', ingredient name amount r = (.ok (value, k), r'))
      ↔ r.contains name = true ∧ ∀ text ∈ amount, r.contains text = true := by
  constructor
  · intro ⟨value, k, r', hingredient⟩
    have hstored := (made_of_ingredient hingredient).took.stored hr
    rw [List.forall_mem_cons] at hstored
    exact ⟨hstored.1, fun text htext => hstored.2 text (Option.mem_toList.2 htext)⟩
  · intro ⟨hname, hamount⟩
    have hwelcome : r.Welcomes (name :: amount.toList) := fun _ =>
      List.forall_mem_cons.2 ⟨hname, fun text htext => hamount text (Option.mem_toList.1 htext)⟩
    rcases hrun : ingredient name amount r with ⟨e | ⟨value, k⟩, r'⟩
    · exact absurd (refuses_of_ingredient hrun).2 hwelcome.not_refuses
    · exact ⟨value, k, r', rfl⟩

/-- A registry resolves the handles with the numbers of its texts, and
nothing else. -/
theorem resolveReference_succeeds_iff {reference : Reference} :
    (∃ text, r.resolveReference reference = .ok text)
      ↔ ∃ i : Nat, i < r.strings.length ∧ reference = .handle ⟨i⟩ := by
  cases reference with
  | other datum =>
      constructor
      · intro ⟨text, h⟩
        cases h
      · intro ⟨i, _, h⟩
        cases h
  | handle handle =>
      constructor
      · intro ⟨text, h⟩
        obtain ⟨i, hi, hget⟩ := resolve_eq_ok_iff.1 h
        refine ⟨i, (List.getElem?_eq_some_iff.1 hget).1, ?_⟩
        rw [← hi]
      · intro ⟨i, hlt, h⟩
        cases h
        exact ⟨r.strings[i], resolve_eq_ok_iff.2 ⟨i, rfl, List.getElem?_eq_getElem hlt⟩⟩

/-- The law of a session, and of any way in which it may go on. The index of
the handles by their texts and the list of the texts by their handles are
each other's inverse, so no text is stored twice; the handle of a number
resolves to the text of that number, and only the handles of stored texts
resolve. Stored is what some operation took in. What was handed out for a
text resolves to it ever after, and two texts were given one handle exactly
if they are equal. An operation that fails leaves everything as it was, even
if it had gone some way before. A registry is frozen if it was told so; then
both tables stay as they are, a text or an ingredient is taken in exactly if
all of it is stored, and to take in a text, or to fail to, changes
nothing. -/
theorem session_law (ops later : List Op) :
    (∀ text handle, (empty.after ops).find? text = some handle
        ↔ (empty.after ops).resolve handle = .ok text)
      ∧ (empty.after ops).strings.Nodup
      ∧ (∀ (i : Nat) text, (empty.after ops).strings[i]? = some text →
          (empty.after ops).resolve ⟨i⟩ = .ok text)
      ∧ (∀ reference, (∃ text, (empty.after ops).resolveReference reference = .ok text)
          ↔ ∃ i : Nat, i < (empty.after ops).strings.length ∧ reference = .handle ⟨i⟩)
      ∧ (∀ text, (empty.after ops).contains text = true
          ↔ ∃ op answer, Answered empty ops op answer ∧ text ∈ op.texts)
      ∧ (∀ op answer text handle, Answered empty ops op answer →
          HandsOut op answer text handle → (empty.after (ops ++ later)).resolve handle = .ok text)
      ∧ (∀ op answer text handle op' answer' text' handle', Answered empty ops op answer →
          HandsOut op answer text handle → Answered empty ops op' answer' →
          HandsOut op' answer' text' handle' → (handle = handle' ↔ text = text'))
      ∧ (∀ op e left, (empty.after ops).step op = (.error e, left) → left = empty.after ops)
      ∧ ((empty.after ops).frozen = true ↔ .freeze ∈ ops)
      ∧ (.freeze ∈ ops →
          ((empty.after (ops ++ later)).strings = (empty.after ops).strings
            ∧ (empty.after (ops ++ later)).index = (empty.after ops).index)
          ∧ (∀ text, (∃ handle left, intern text (empty.after ops) = (.ok handle, left))
            ↔ (empty.after ops).contains text = true)
          ∧ (∀ name amount,
            (∃ value k left, ingredient name amount (empty.after ops) = (.ok (value, k), left))
            ↔ (empty.after ops).contains name = true
              ∧ ∀ text ∈ amount, (empty.after ops).contains text = true)
          ∧ ∀ text, (intern text (empty.after ops)).2 = empty.after ops) := by
  have hagrees : (empty.after ops).Agrees := agrees_after agrees_empty ops
  have hfrozen : (empty.after ops).frozen = true ↔ .freeze ∈ ops := by
    rw [frozen_after]
    exact ⟨fun h => h.resolve_left Bool.false_ne_true, .inr⟩
  refine ⟨hagrees, hagrees.nodup, fun i text hget => resolve_eq_ok_iff.2 ⟨i, rfl, hget⟩,
    fun reference => resolveReference_succeeds_iff, fun text => ?_,
    fun op answer text handle hanswered hhands => ?_,
    fun op answer text handle op' answer' text' handle' ha hh ha' hh' => ?_,
    fun op e left herror => eq_of_answer_error herror, hfrozen, fun hfreeze => ?_⟩
  · rw [hagrees.contains_iff, mem_after_iff agrees_empty]
    exact ⟨fun h => h.resolve_left List.not_mem_nil, .inr⟩
  · rw [after_append]
    exact (grows_after _ later).resolve (resolve_of_answered agrees_empty hanswered hhands)
  · have hresolve := resolve_of_answered agrees_empty ha hh
    have hresolve' := resolve_of_answered agrees_empty ha' hh'
    constructor
    · intro heq
      rw [heq] at hresolve
      exact Except.ok.inj (hresolve.symm.trans hresolve')
    · intro heq
      rw [heq] at hresolve
      exact resolve_injective hagrees.nodup hresolve hresolve'
  · have hr := hfrozen.2 hfreeze
    refine ⟨?_, fun text => intern_succeeds_iff hr, fun name amount => ingredient_succeeds_iff hr,
      fun text => ?_⟩
    · rw [after_append]
      exact same_after hr later
    · rcases hrun : intern text (empty.after ops) with ⟨e | handle, left⟩
      · exact (refuses_of_intern hrun).1
      · exact (interned_of_intern hrun).eq_of_frozen hr

/-- A text is taken in twice, and once as a name; a handle is tried that was
not handed out; then no new text is welcome, and a new amount is refused. -/
def kitchen : List Op :=
  [.intern "egg", .resolve (.handle ⟨7⟩), .ingredient "egg" (some "2"), .freeze,
    .ingredient "egg" (some "3"), .intern "2"]

/-- In the kitchen eggs keep their handle whatever comes later, another
text has another one, milk is refused, and the new amount has left all as
it was, its name being there. -/
theorem session_law_kitchen :
    (empty.after (kitchen ++ [.intern "milk", .intern "egg"])).resolve ⟨0⟩ = .ok "egg"
      ∧ ((⟨0⟩ : Handle) = ⟨1⟩ ↔ "egg" = "2")
      ∧ (empty.after (kitchen ++ [.intern "milk", .intern "egg"])).strings = ["egg", "2"]
      ∧ (¬ ∃ handle left, intern "milk" (empty.after kitchen) = (.ok handle, left))
      ∧ ((empty.after kitchen).step (.ingredient "egg" (some "3"))).2 = empty.after kitchen := by
  have hegg : Answered empty kitchen (.ingredient "egg" (some "2"))
      (.ingredient ⟨⟨0⟩, some ⟨1⟩⟩ 0) :=
    ⟨{ strings := ["egg", "2"], canonicals := [.ingredient ⟨⟨0⟩, some ⟨1⟩⟩] }, by decide⟩
  obtain ⟨-, -, -, -, -, hresolve, hsame, hfailed, -, hfrozen⟩ :=
    session_law kitchen [.intern "milk", .intern "egg"]
  obtain ⟨⟨hstrings, -⟩, hintern, -, -⟩ := hfrozen (by decide)
  refine ⟨hresolve _ _ _ _ hegg (.name _ _ _ _), ?_, hstrings, fun hmilk => ?_, ?_⟩
  · exact hsame _ _ _ _ _ _ _ _ hegg (.name _ _ _ _) hegg (.amount _ _ _ _ _)
  · exact absurd ((hintern "milk").1 hmilk) (by decide)
  · exact hfailed (.ingredient "egg" (some "3")) (.frozen "3") _ (Prod.ext (by decide) rfl)

end RecipeChart.Registry
