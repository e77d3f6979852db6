/-
First offences. A source that is no sentence is refused at the first place
that can be blamed: what was cut before it begins a recipe, and nothing that
can be cut off there goes on with it. A source that only ends too soon is
refused at its last token. This is where the reading halts, said without the
machine.

A sentence may still misplace a `<>`. In the source that is a `<>` with no
semicolon behind it, as the semicolon stands behind the last action of a
rule. The first of these is found along the derivation (`stray?`): part by
part, the tokens have such a `<>` exactly where the rule has one that is not
its last action.
-/
import RecipeChart.Proofs.Recipe.Halting
import RecipeChart.Proofs.Recipe.Sharing

namespace RecipeChart

-- ========================================================= no sentence

/-- The source cannot be read on at the place, or it ends too soon and the
place is that of its last token. -/
inductive FirstOffence (source : List Char) (place : Place) : Prop where
  | unreadable {ls : List Lexeme}
      (hcut : CutsTo Place.start source ls place (source.drop place.offset))
      (hrest : source.drop place.offset ≠ [])
      (hgap : ∀ front back, source.drop place.offset = front ++ back →
        ¬ Piece.Cuttable .gap front back)
      (hbegins : Begins (ls.map (·.token)))
      (htoken : ∀ t front back, source.drop place.offset = front ++ back →
        Piece.Cuttable (.token t) front back → ¬ Begins (ls.map (·.token) ++ [t]))
  | unfinished {ls : List Lexeme} (hcuts : Cuts Place.start source ls)
      (hbegins : Begins (ls.map (·.token)))
      (hwrites : ∀ written, ¬ RecipeSource.WrittenBy written (ls.map (·.token)))
      (hplace : place = (ls.getLast?.map (·.place)).getD Place.start)

open Situation

/-- Where the reading halts is a first offence. -/
theorem firstOffence_of_halts {source : List Char} {ls : List Lexeme} {s : Situation}
    {place : Place} {c : Char} {rest : List Char}
    (hcut : CutsTo Place.start source ls place (c :: rest)) (hrun : atName.run ls = .ok s)
    (hhalts : s.Halts place c rest) : FirstOffence source place := by
  obtain ⟨before, hsource, hplace⟩ := hcut.exists_before
  have hdrop : source.drop place.offset = c :: rest := by
    rw [hplace, ← Place.after, Place.offset_after, hsource, List.drop_left]
  -- whatever can be cut off is of the kind that is refused
  have hcuttable : ∀ piece front back, source.drop place.offset = front ++ back →
      Piece.Cuttable piece front back →
      ∃ t, piece.kind = .token t.kind ∧ s.next? ⟨t, place⟩ = none := by
    intro piece front back hfront hpiece
    obtain ⟨c', tail, piece', n, rfl, hread, -, -⟩ := hpiece.read?
    rw [hdrop] at hfront
    cases hfront
    obtain ⟨t, rfl, hnext⟩ := hhalts piece' n hread
    exact ⟨t, (hpiece.kind_eq hread).symm, hnext⟩
  refine .unreadable (hdrop ▸ hcut) (hdrop ▸ List.cons_ne_nil c rest) ?_ (begins_iff.2 ⟨s, hrun⟩) ?_
  · intro front back hfront hpiece
    obtain ⟨t, hkind, -⟩ := hcuttable _ front back hfront hpiece
    cases hkind
  · intro t front back hfront hpiece
    obtain ⟨t', hkind, hnext⟩ := hcuttable _ front back hfront hpiece
    refine not_begins_append hrun ?_
    rw [Phase.next?_eq_of_kind (Piece.token.inj hkind), ← map_phase_next? s ⟨t', place⟩, hnext]
    rfl

/-- A source that is refused is refused at its first offence. -/
theorem RecipeSource.firstOffence_of_read {source : List Char} {place : Place}
    (h : RecipeSource.read source = .error place) : FirstOffence source place := by
  have hscanned : Scanned Place.start source (Scan.ofSource source) := scanned_go _ source
  have hcuts := @cuts_iff source (Scan.ofSource source).lexemes
  unfold RecipeSource.read at h
  generalize Scan.ofSource source = scan at *
  obtain ⟨ls, stuck⟩ := scan
  dsimp only at h hcuts hscanned
  -- A sentence fails at a token that has no place, at a text that is no token, or at its
  -- end.
  cases hrun : atName.run ls with
  | error offence =>
      rw [hrun] at h
      cases h
      obtain ⟨ls, s, c, rest, hcut, hls, hhalts⟩ := hscanned.exists_halts hrun
      exact firstOffence_of_halts hcut hls hhalts
  | ok s =>
      rw [hrun] at h
      cases stuck with
      | some stuck =>
          cases h
          obtain ⟨c, rest, hcut, hread⟩ := hscanned.cutsTo_stuck rfl
          refine firstOffence_of_halts hcut hrun fun piece n hsome => ?_
          cases hread.symm.trans hsome
      | none =>
          have hopen : ∀ recipe, s ≠ .closed recipe := by
            rintro recipe rfl
            cases h
          have hplace : place = (ls.getLast?.map (·.place)).getD Place.start := by
            cases s
            case closed recipe => exact absurd rfl (hopen recipe)
            all_goals exact (Except.error.inj h).symm
          exact .unfinished (hcuts.2 rfl) (begins_iff.2 ⟨s, hrun⟩) (not_writtenBy hrun hopen) hplace

/-- The place of a first offence is one of the source. -/
theorem FirstOffence.span_eq {source : List Char} {place : Place} (h : FirstOffence source place) :
    place.span = spanAt source place.offset := by
  cases h with
  | unreadable hcut _ _ _ _ =>
      obtain ⟨before, hsource, hplace⟩ := hcut.exists_before
      rw [hplace]
      exact Place.span_after hsource
  | @unfinished ls hcuts _ _ hplace =>
      rw [hplace]
      cases hlast : ls.getLast? with
      | none => exact @Place.span_after source [] source rfl
      | some l =>
          obtain ⟨before, rest, hsource, hl⟩ := hcuts.exists_before (List.mem_of_getLast? hlast)
          rw [Option.map_some, Option.getD_some, hl]
          exact Place.span_after hsource

-- ====================================================== misplaced `<>`

/-- What the derivation says of the place: there stands a `<>` that is not
the last action of its rule, and there is none like it before, neither among
the tokens nor among the rules. -/
structure FirstMisplaced (ls : List Lexeme) (written : RecipeSource) (place : Place) : Prop where
  /-- Every earlier `<>` has a semicolon behind it, this one has none. -/
  token : ∃ pre post, ls = pre ++ ⟨.done, place⟩ :: post
    ∧ post.head?.map (·.token) ≠ some .semicolon
    ∧ ∀ pre' place' post', pre = pre' ++ ⟨.done, place'⟩ :: post' →
      post'.head?.map (·.token) = some .semicolon
  /-- Every earlier rule has `<>` at its end only, this one has it before. -/
  action : ∃ pre rule post before after, written.rules = pre ++ rule :: post
    ∧ (∀ earlier ∈ pre, earlier.DoneIsLast)
    ∧ rule.actions = before ++ .done place.span :: after ∧ after ≠ []
    ∧ ∀ span, RuleAction.done span ∉ before

/-- The place of the first `<>` with no semicolon behind it. -/
def stray? : List Lexeme → Option Place
  | [] => none
  | l :: rest =>
    if l.token = .done ∧ rest.head?.map (·.token) ≠ some .semicolon then some l.place
    else stray? rest

theorem exists_of_stray? {ls : List Lexeme} {place : Place} (h : stray? ls = some place) :
    ∃ pre post, ls = pre ++ ⟨.done, place⟩ :: post
      ∧ post.head?.map (·.token) ≠ some .semicolon
      ∧ ∀ pre' place' post', pre = pre' ++ ⟨.done, place'⟩ :: post' →
        post'.head?.map (·.token) = some .semicolon := by
  induction ls with
  | nil => cases h
  | cons l rest ih =>
      rw [stray?] at h
      split at h
      · next hstray =>
          obtain ⟨t, p⟩ := l
          cases h
          obtain ⟨rfl, hpost⟩ := hstray
          exact ⟨[], rest, rfl, hpost, fun pre' _ _ hpre => absurd hpre.symm (by simp)⟩
      · next hsound =>
          obtain ⟨pre, post, rfl, hpost, hall⟩ := ih h
          refine ⟨l :: pre, post, rfl, hpost, fun pre' place' post' hpre => ?_⟩
          cases pre' with
          | nil =>
              cases hpre
              -- behind a `<>` that is no stray stands a semicolon
              rw [not_and, not_not] at hsound
              have hsemicolon := hsound rfl
              cases pre with
              | nil => cases hsemicolon
              | cons next pre => exact hsemicolon
          | cons first pre' =>
              cases hpre
              exact hall pre' place' post' rfl

-- ======================================================= along the rules

/-- Is there no `<>` among the tokens? -/
def Doneless (ls : List Lexeme) : Prop := ∀ l ∈ ls, l.token ≠ .done

theorem Doneless.stray?_append {ls : List Lexeme} (h : Doneless ls) (rest : List Lexeme) :
    stray? (ls ++ rest) = stray? rest := by
  induction ls with
  | nil => rfl
  | cons l ls ih =>
      rw [Doneless, List.forall_mem_cons] at h
      rw [List.cons_append, stray?, if_neg fun hdone => h.1 hdone.1]
      exact ih h.2

theorem WritesIngredient.doneless {ls : List Lexeme} {i : Ingredient String × Span}
    (h : WritesIngredient ls i) : Doneless ls := by
  cases h <;> simp [Doneless]

theorem WritesItems.doneless {ls : List Lexeme} {items : Items} (h : WritesItems ls items) :
    Doneless ls := by
  induction h with
  | one hi => exact hi.doneless
  | more p _ hi ih =>
      rw [Doneless, List.forall_mem_append, List.forall_mem_cons]
      exact ⟨ih, nofun, hi.doneless⟩

theorem WritesStart.doneless {ls : List Lexeme} {start : Start String} (h : WritesStart ls start) :
    Doneless ls := by
  cases h with
  | group hitems => exact hitems.doneless
  | join name p => simp [Doneless]

/-- The tokens of an action are a `<>` or have none among them. -/
theorem WritesAction.stray?_append {ls : List Lexeme} {a : RuleAction String}
    (h : WritesAction ls a) :
    (∀ p rest, (stray? (ls ++ ⟨.arrow, p⟩ :: rest)).map Place.span
        = a.done?.or ((stray? rest).map Place.span))
      ∧ ∀ p rest, stray? (ls ++ ⟨.semicolon, p⟩ :: rest) = stray? rest := by
  have hdoneless : ∀ {ls}, Doneless ls → a.done? = none →
      (∀ p rest, (stray? (ls ++ ⟨.arrow, p⟩ :: rest)).map Place.span
          = a.done?.or ((stray? rest).map Place.span))
        ∧ ∀ p rest, stray? (ls ++ ⟨.semicolon, p⟩ :: rest) = stray? rest := by
    intro ls hls hdone
    refine ⟨fun p rest => ?_, fun p rest => hls.stray?_append _⟩
    rw [hls.stray?_append, hdone]
    rfl
  cases h with
  | step w p => exact hdoneless (by simp [Doneless]) rfl
  | seasoned w p q hitems =>
      refine hdoneless ?_ rfl
      rw [Doneless, List.forall_mem_cons, List.forall_mem_cons]
      exact ⟨nofun, nofun, hitems.doneless⟩
  | join name p => exact hdoneless (by simp [Doneless]) rfl
  | done p => exact ⟨fun q rest => rfl, fun q rest => rfl⟩

/-- The tokens of a rule have a stray where the rule misplaces a `<>`: with
an arrow behind it, any of its actions may be one. -/
theorem WritesRule.stray?_append {ls : List Lexeme} {rule : Rule String} (h : WritesRule ls rule) :
    (∀ p rest, (stray? (ls ++ ⟨.arrow, p⟩ :: rest)).map Place.span
        = (rule.actions.findSome? RuleAction.done?).or ((stray? rest).map Place.span))
      ∧ ∀ p rest, (stray? (ls ++ ⟨.semicolon, p⟩ :: rest)).map Place.span
        = rule.misplaced?.or ((stray? rest).map Place.span) := by
  induction h with
  | start hstart =>
      refine ⟨fun p rest => ?_, fun p rest => ?_⟩
      all_goals
        rw [hstart.doneless.stray?_append]
        rfl
  | @action ls ls' rule a p _ ha ih =>
      obtain ⟨harrow, hsemicolon⟩ := ha.stray?_append
      refine ⟨fun q rest => ?_, fun q rest => ?_⟩
      · rw [List.append_assoc, List.cons_append, ih.1, harrow, Rule.push, List.findSome?_append,
          List.findSome?_singleton, Option.or_assoc]
      · rw [List.append_assoc, List.cons_append, ih.1, hsemicolon, Rule.misplaced?, Rule.push,
          List.dropLast_concat]

/-- A sentence has a stray exactly where it misplaces a `<>`. -/
theorem WritesRules.stray?_append {ls : List Lexeme} {recipe : RecipeSource}
    (h : WritesRules ls recipe) (rest : List Lexeme) : (stray? (ls ++ rest)).map Place.span
      = (recipe.rules.findSome? Rule.misplaced?).or ((stray? rest).map Place.span) := by
  induction h generalizing rest with
  | name w p q => rfl
  | @rule ls ls' recipe rule p _ hrule ih =>
      rw [List.append_assoc, ih, List.append_assoc, List.singleton_append, hrule.stray?_append.2,
        RecipeSource.push, List.findSome?_append, List.findSome?_singleton, Option.or_assoc]

theorem WritesRecipe.map_stray? {ls : List Lexeme} {recipe : RecipeSource}
    (h : WritesRecipe ls recipe) :
    (stray? ls).map Place.span = recipe.rules.findSome? Rule.misplaced? := by
  cases h with
  | close p hrules =>
      rw [hrules.stray?_append]
      exact Option.or_none

theorem exists_action_of_misplaced? {rule : Rule String} {span : Span}
    (h : rule.misplaced? = some span) :
    ∃ before after, rule.actions = before ++ .done span :: after ∧ after ≠ []
      ∧ ∀ earlier, RuleAction.done earlier ∉ before := by
  obtain ⟨before, a, after, hactions, ha, hbefore⟩ := List.findSome?_eq_some_iff.1 h
  cases a with
  | step s => cases ha
  | join j => cases ha
  | done first =>
      cases ha
      have hne : rule.actions ≠ [] := by
        rintro hnil
        rw [hnil] at hactions
        exact absurd hactions.symm (by simp)
      refine ⟨before, after ++ [rule.actions.getLast hne], ?_, by simp, fun earlier hmem => ?_⟩
      · rw [← List.cons_append, ← List.append_assoc, ← hactions, List.dropLast_concat_getLast]
      · cases hbefore _ hmem

/-- The first rule that misplaces a `<>`, and the first `<>` with no semicolon
behind it, are at one place. -/
theorem WritesRecipe.exists_firstMisplaced {ls : List Lexeme} {written : RecipeSource}
    (h : WritesRecipe ls written) (hdone : ¬ ∀ rule ∈ written.rules, rule.DoneIsLast) :
    ∃ place, FirstMisplaced ls written place
      ∧ written.rules.findSome? Rule.misplaced? = some place.span := by
  have hstray := h.map_stray?
  cases hplace : stray? ls with
  | none =>
      rw [hplace, Option.map_none, eq_comm, List.findSome?_eq_none_iff] at hstray
      exact absurd (fun rule hrule => Rule.doneIsLast_iff.2 (hstray rule hrule)) hdone
  | some place =>
      rw [hplace, Option.map_some, eq_comm] at hstray
      refine ⟨place, ⟨exists_of_stray? hplace, ?_⟩, hstray⟩
      obtain ⟨pre, rule, post, hrules, hspan, hpre⟩ := List.findSome?_eq_some_iff.1 hstray
      obtain ⟨before, after, hactions⟩ := exists_action_of_misplaced? hspan
      exact ⟨pre, rule, post, before, after, hrules,
        fun earlier hmem => Rule.doneIsLast_iff.2 (hpre earlier hmem), hactions⟩

-- ============================================================= reading

namespace Recipe

/-- A source that is no sentence is refused, by every registry, at its first
offence. A sentence that misplaces a `<>` is refused, by every registry that
welcomes its texts, at the first `<>` that is not the last action of its
rule. Either way the error names the line and the column of the place. -/
theorem read_first_offence (source : List Char) :
    ((¬ ∃ ls written, Cuts Place.start source ls ∧ WritesRecipe ls written) →
      ∃ place, FirstOffence source place ∧ place.span = spanAt source place.offset
        ∧ ∀ r, Recipe.read source r = (.error (.offence (.unexpected place)), r))
    ∧ ∀ ls written, Cuts Place.start source ls → WritesRecipe ls written →
      (¬ ∀ rule ∈ written.rules, rule.DoneIsLast) →
      ∃ place, FirstMisplaced ls written place ∧ place.span = spanAt source place.offset
        ∧ ∀ r : Registry, r.Welcomes written.texts → ∃ r',
          Recipe.read source r = (.error (.offence (.misplacedDone place.span)), r') := by
  constructor
  · intro hnone
    cases hread : RecipeSource.read source with
    | ok written =>
        obtain ⟨ls, hwrites⟩ := RecipeSource.read_iff_writes.1 hread
        exact absurd ⟨ls, written, hwrites⟩ hnone
    | error place =>
        have hfirst := RecipeSource.firstOffence_of_read hread
        refine ⟨place, hfirst, hfirst.span_eq, fun r => ?_⟩
        rw [Recipe.read, hread]
        rfl
  · intro ls written hcuts hwrites hdone
    obtain ⟨place, hfirst, hspan⟩ := hwrites.exists_firstMisplaced hdone
    have hread := RecipeSource.read_iff_writes.2 ⟨ls, hcuts, hwrites⟩
    have hplace : place.span = spanAt source place.offset := by
      obtain ⟨pre, post, rfl, -⟩ := hfirst.token
      obtain ⟨before, rest, hsource, hl⟩ :=
        hcuts.exists_before (List.mem_append_right pre List.mem_cons_self)
      dsimp only at hl
      rw [hl]
      exact Place.span_after hsource
    refine ⟨place, hfirst, hplace, fun r hr => ⟨(Recipe.read source r).2, ?_⟩⟩
    -- A registry that welcomes the texts stops at nothing but the offence.
    have hends : Ends r source (Recipe.read source r).1 (Recipe.read source r).2 := ends_of_read rfl
    have hwelcome : ∀ read, RecipeSource.read source = .ok read → r.Welcomes read.texts := by
      intro read hok
      cases hread.symm.trans hok
      exact hr
    refine Prod.ext ((hends.error_iff_of_welcomes hwelcome).2
      ⟨.misplacedDone place.span, ?_, rfl⟩) rfl
    rw [RecipeSource.offence?, hread]
    show (written.rules.findSome? Rule.misplaced?).map _ = _
    rw [hspan]
    rfl

/-- Eggs that are put into a bowl without a name. -/
def namelessBowl : List Char := "fried \x7b\n  egg -> $;\n\x7d".toList

/-- Eggs that are fried when they are done. -/
def doneTooSoon : List Char := "fried \x7b egg -> <>; egg -> <> -> fry; \x7d".toList

theorem read_first_offence_eggs :
    ((¬ ∃ ls written, Cuts Place.start namelessBowl ls ∧ WritesRecipe ls written)
      ∧ ∃ place, FirstOffence namelessBowl place ∧ place.span = ⟨2, 10⟩
        ∧ Recipe.read namelessBowl .empty = (.error (.offence (.unexpected place)), .empty))
    ∧ ∃ ls written place, Cuts Place.start doneTooSoon ls ∧ WritesRecipe ls written
      ∧ (¬ ∀ rule ∈ written.rules, rule.DoneIsLast) ∧ FirstMisplaced ls written place
      ∧ place.span = ⟨1, 27⟩ := by
  constructor
  · have hread : RecipeSource.read namelessBowl = .error ⟨17, 2, 10⟩ := by decide +kernel
    have hnone : ¬ ∃ ls written, Cuts Place.start namelessBowl ls ∧ WritesRecipe ls written := by
      intro ⟨ls, written, hwrites⟩
      cases hread.symm.trans (RecipeSource.read_iff_writes.2 ⟨ls, hwrites⟩)
    obtain ⟨place, hfirst, -, hrefused⟩ := (read_first_offence namelessBowl).1 hnone
    refine ⟨hnone, place, hfirst, ?_, hrefused .empty⟩
    have hplace := hrefused .empty
    rw [Recipe.read, hread] at hplace
    cases hplace
    rfl
  · have hspan : (RecipeSource.read doneTooSoon).toOption.bind
        (·.rules.findSome? Rule.misplaced?) = some ⟨1, 27⟩ := by decide +kernel
    have hresult : (Recipe.read doneTooSoon .empty).1
        = .error (.offence (.misplacedDone ⟨1, 27⟩)) := by decide +kernel
    cases hread : RecipeSource.read doneTooSoon with
    | error place =>
        rw [hread] at hspan
        cases hspan
    | ok written =>
        rw [hread] at hspan
        obtain ⟨ls, hcuts, hwrites⟩ := RecipeSource.read_iff_writes.1 hread
        have hdone : ¬ ∀ rule ∈ written.rules, rule.DoneIsLast := by
          intro hdone
          have hnone : written.rules.findSome? Rule.misplaced? = none :=
            List.findSome?_eq_none_iff.2 fun rule hrule => Rule.doneIsLast_iff.1 (hdone rule hrule)
          cases hnone.symm.trans hspan
        obtain ⟨place, hfirst, -, hrefused⟩ :=
          (read_first_offence doneTooSoon).2 ls written hcuts hwrites hdone
        obtain ⟨r', hplace⟩ := hrefused .empty (Registry.welcomes_of_not_frozen rfl)
        rw [hplace] at hresult
        exact ⟨ls, written, place, hcuts, hwrites, hdone, hfirst,
          SyntaxError.misplacedDone.inj (ReadError.offence.inj (Except.error.inj hresult))⟩

end Recipe

end RecipeChart
