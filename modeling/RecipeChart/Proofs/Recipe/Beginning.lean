/-
Beginnings of recipes. Tokens begin a recipe if tokens can be put behind
them so that all of them write a recipe. The machine reads exactly such
tokens without an offence: nothing that it has read so far was too much,
and nothing that it refuses could have been made good later.

Which tokens can stand in a situation does not depend on its drafts. What is
left without them is one of twelve phases (`Phase`), and the machine runs
through the phases by the kinds of its tokens alone. From each phase there
is a way to the closing brace.
-/
import RecipeChart.Proofs.Recipe.Layout

namespace RecipeChart

-- =============================================================== tokens

/-- The kind of a token: the token without what it spells. -/
def Token.kind : Token → Token
  | .word _ => .word []
  | .join _ => .join []
  | t => t

/-- More tokens can be put behind these so that a recipe is written. -/
def Begins (ts : List Token) : Prop :=
  ∃ more written, (∀ t ∈ more, t.isProper = true) ∧ RecipeSource.WrittenBy written (ts ++ more)

-- =============================================================== phases

/-- A situation without its drafts. -/
inductive Phase where
  | atName
  | atBrace
  | atRule
  | atIngredient
  | atAmount
  | atBracket
  | atIngredientName
  | afterIngredient
  | atAction
  | afterDescription
  | afterAction
  | closed
  deriving Repr, DecidableEq

def Situation.phase : Situation → Phase
  | atName => .atName
  | atBrace _ => .atBrace
  | atRule _ => .atRule
  | atIngredient _ _ _ => .atIngredient
  | atAmount _ _ _ => .atAmount
  | atBracket _ _ _ _ _ => .atBracket
  | atIngredientName _ _ _ _ _ => .atIngredientName
  | afterIngredient _ _ _ => .afterIngredient
  | atAction _ _ => .atAction
  | afterDescription _ _ _ _ => .afterDescription
  | afterAction _ _ => .afterAction
  | closed _ => .closed

namespace Phase

/-- The phase after one more token, if the token can stand there. -/
def next? : Phase → Token → Option Phase
  | atName, .word _ => some atBrace
  | atBrace, .openBrace => some atRule
  | atRule, .closeBrace => some closed
  | atRule, .join _ => some afterAction
  | atRule, .openBracket => some atAmount
  | atRule, .word _ => some afterIngredient
  | atIngredient, .openBracket => some atAmount
  | atIngredient, .word _ => some afterIngredient
  | atAmount, .word _ => some atBracket
  | atBracket, .closeBracket => some atIngredientName
  | atIngredientName, .word _ => some afterIngredient
  | afterIngredient, .plus => some atIngredient
  | afterIngredient, .arrow => some atAction
  | afterIngredient, .semicolon => some atRule
  | atAction, .word _ => some afterDescription
  | atAction, .join _ => some afterAction
  | atAction, .done => some afterAction
  | afterDescription, .ampersand => some atIngredient
  | afterDescription, .arrow => some atAction
  | afterDescription, .semicolon => some atRule
  | afterAction, .arrow => some atAction
  | afterAction, .semicolon => some atRule
  | _, _ => none

/-- The phase after all the tokens, if each can stand where it stands. -/
def run (phase : Phase) (ts : List Token) : Option Phase := ts.foldlM next? phase

theorem run_append (phase : Phase) (ts more : List Token) :
    phase.run (ts ++ more) = (phase.run ts).bind fun next => next.run more :=
  List.foldlM_append

/-- The kind of a token tells what it does. -/
theorem next?_eq_of_kind {t t' : Token} (h : t.kind = t'.kind) (phase : Phase) :
    phase.next? t = phase.next? t' := by
  cases t <;> cases t' <;> first | cases h; rfl | (cases phase <;> rfl) | cases h

/-- Tokens that lead from the phase to the end of the recipe. -/
def completion : Phase → List Token
  | atName => [.word ['x'], .openBrace, .closeBrace]
  | atBrace => [.openBrace, .closeBrace]
  | atRule => [.closeBrace]
  | atIngredient => [.word ['x'], .semicolon, .closeBrace]
  | atAmount => [.word ['x'], .closeBracket, .word ['x'], .semicolon, .closeBrace]
  | atBracket => [.closeBracket, .word ['x'], .semicolon, .closeBrace]
  | atIngredientName => [.word ['x'], .semicolon, .closeBrace]
  | afterIngredient => [.semicolon, .closeBrace]
  | atAction => [.done, .semicolon, .closeBrace]
  | afterDescription => [.semicolon, .closeBrace]
  | afterAction => [.semicolon, .closeBrace]
  | closed => []

theorem run_completion (phase : Phase) : phase.run phase.completion = some closed := by
  cases phase <;> rfl

theorem isProper_completion (phase : Phase) : ∀ t ∈ phase.completion, t.isProper = true := by
  cases phase <;> decide

end Phase

-- ========================================================== situations

namespace Situation

theorem map_phase_next? (s : Situation) (l : Lexeme) :
    (s.next? l).map phase = s.phase.next? l.token := by
  obtain ⟨t, p⟩ := l
  cases s <;> cases t <;> rfl

/-- The machine runs through the phases. -/
theorem map_phase_run (s : Situation) (ls : List Lexeme) :
    (s.run ls).toOption.map phase = s.phase.run (ls.map (·.token)) := by
  induction ls generalizing s with
  | nil => rfl
  | cons l ls ih =>
      rw [run, List.map_cons, Phase.run, List.foldlM_cons, ← map_phase_next?]
      cases s.next? l with
      | none => rfl
      | some s' => exact ih s'

theorem phase_run_of_ok {ls : List Lexeme} {s : Situation} (h : atName.run ls = .ok s) :
    Phase.atName.run (ls.map (·.token)) = some s.phase := by
  have hphase := map_phase_run atName ls
  rw [h] at hphase
  exact hphase.symm

theorem phase_run_of_error {ls : List Lexeme} {place : Place} (h : atName.run ls = .error place) :
    Phase.atName.run (ls.map (·.token)) = none := by
  have hphase := map_phase_run atName ls
  rw [h] at hphase
  exact hphase.symm

theorem eq_closed_of_phase {s : Situation} (h : s.phase = .closed) :
    ∃ written, s = .closed written := by
  cases s
  case closed written => exact ⟨written, rfl⟩
  all_goals cases h

-- =========================================================== beginnings

/-- Tokens write a recipe exactly when their phases come to its end. -/
theorem exists_writtenBy_iff {ts : List Token} :
    (∃ written, RecipeSource.WrittenBy written ts) ↔ Phase.atName.run ts = some .closed := by
  constructor
  · intro ⟨written, ls, hls, hwrites⟩
    exact hls ▸ phase_run_of_ok hwrites.run_eq
  · intro h
    let ls : List Lexeme := ts.map (⟨·, Place.start⟩)
    have hls : ls.map (·.token) = ts := by
      rw [List.map_map]
      exact List.map_id' ts
    cases hrun : atName.run ls with
    | error place =>
        have hnone := phase_run_of_error hrun
        rw [hls, h] at hnone
        cases hnone
    | ok s =>
        have hsome := phase_run_of_ok hrun
        rw [hls, h] at hsome
        obtain ⟨written, rfl⟩ := eq_closed_of_phase (Option.some.inj hsome).symm
        exact ⟨written, ls, hls, run_eq_ok_closed_iff.1 hrun⟩

/-- Tokens begin a recipe exactly when the machine reads them without an
offence. -/
theorem begins_iff {ls : List Lexeme} :
    Begins (ls.map (·.token)) ↔ ∃ s, atName.run ls = .ok s := by
  constructor
  · intro ⟨more, written, _, hwritten⟩
    have hall := exists_writtenBy_iff.1 ⟨written, hwritten⟩
    rw [Phase.run_append] at hall
    cases hrun : atName.run ls with
    | ok s => exact ⟨s, rfl⟩
    | error place =>
        rw [phase_run_of_error hrun] at hall
        cases hall
  · intro ⟨s, hs⟩
    have hall : Phase.atName.run (ls.map (·.token) ++ s.phase.completion) = some .closed := by
      rw [Phase.run_append, phase_run_of_ok hs]
      exact s.phase.run_completion
    obtain ⟨written, hwritten⟩ := exists_writtenBy_iff.2 hall
    exact ⟨s.phase.completion, written, s.phase.isProper_completion, hwritten⟩

/-- What the machine refuses cannot be made good. -/
theorem not_begins_append {ls : List Lexeme} {s : Situation} {t : Token}
    (hrun : atName.run ls = .ok s) (h : s.phase.next? t = none) :
    ¬ Begins (ls.map (·.token) ++ [t]) := by
  intro ⟨more, written, _, hwritten⟩
  have hall := exists_writtenBy_iff.1 ⟨written, hwritten⟩
  rw [List.append_assoc, Phase.run_append, phase_run_of_ok hrun] at hall
  replace hall : (s.phase.next? t).bind (fun next => next.run more) = some .closed := hall
  rw [h] at hall
  cases hall

/-- Tokens on which the machine comes to no end write no recipe. -/
theorem not_writtenBy {ls : List Lexeme} {s : Situation} (hrun : atName.run ls = .ok s)
    (h : ∀ recipe, s ≠ .closed recipe) (written : RecipeSource) :
    ¬ written.WrittenBy (ls.map (·.token)) := by
  intro hwritten
  have hall := exists_writtenBy_iff.1 ⟨written, hwritten⟩
  rw [phase_run_of_ok hrun] at hall
  obtain ⟨recipe, hs⟩ := eq_closed_of_phase (Option.some.inj hall)
  exact h recipe hs

end Situation

end RecipeChart
