/-
Layouts of a recipe. A source is laid out from tokens by writing a gap
before each of them and one behind the last: nothing, or a mix of gap
characters and comments that starts with a gap character. Whichever gaps
are taken, the scan finds those tokens again, and so the same recipe is
read.

A sign is found whatever stands behind it. A word or a join is not, as it
goes on as far as it can; there the grammar helps. Behind a word or a join
only a sign can come that no word runs over (`Separated`), which is told
from the situations of the machine, one token after the other. A gap in
between changes nothing: a word runs on over its blanks up to a line feed,
a comment or that sign, and the blanks are trimmed off again. A comment
right behind a word would do no harm either, were it not that the word may
end in a slash; behind a blank it is safe.
-/
import RecipeChart.Proofs.Recipe.Respelling

namespace RecipeChart

-- ================================================================= gaps

/-- A part of a gap: a gap character, or a comment up to the line feed that
ends it. -/
inductive GapPart where
  | blank (c : Char) (hblank : Text.isGap c = true)
  | comment (line : List Char) (hline : '\n' ∉ line)

namespace GapPart

def text : GapPart → List Char
  | blank c _ => [c]
  | comment line _ => '/' :: '/' :: (line ++ ['\n'])

def isBlank : GapPart → Bool
  | blank _ _ => true
  | comment _ _ => false

end GapPart

/-- What may be written between two tokens: any mix of gap characters and
comments in which every comment has a gap character somewhere before it. -/
structure Gap where
  parts : List GapPart
  opened : ∀ pre part post, parts = pre ++ part :: post → part.isBlank = false →
    ∃ earlier ∈ pre, earlier.isBlank = true

namespace Gap

def text (g : Gap) : List Char := g.parts.flatMap GapPart.text

/-- Nothing at all. -/
def none : Gap := ⟨[], fun pre _ _ h => absurd h.symm (by simp)⟩

/-- A gap character and any mix behind it. -/
def opening (c : Char) (hblank : Text.isGap c = true) (parts : List GapPart) : Gap where
  parts := .blank c hblank :: parts
  opened pre part post h hpart := by
    cases pre with
    | nil =>
        cases h
        cases hpart
    | cons first pre =>
        cases h
        exact ⟨.blank c hblank, List.mem_cons_self, rfl⟩

/-- A gap that is not empty starts with a gap character. -/
theorem isBlank_of_head (g : Gap) {part : GapPart} {rest : List GapPart}
    (h : g.parts = part :: rest) : part.isBlank = true := by
  rw [← Bool.not_eq_false]
  intro hpart
  obtain ⟨earlier, hearlier, -⟩ := g.opened [] part rest h hpart
  exact absurd hearlier List.not_mem_nil

end Gap

-- ============================================================== layouts

/-- The characters that a token is written with. -/
def Token.spelling : Token → List Char
  | .word spelling => spelling
  | .join name => '$' :: name
  | t => t.sign?.getD []

/-- Has the token a text that can be written, a word without blanks at its
end? -/
def Token.isWritable : Token → Bool
  | .word spelling => isPlain spelling
  | .join name => isJoinName name
  | _ => true

/-- Tokens with a gap before each of them and one behind the last. -/
structure Layout where
  parts : List (Gap × Token)
  last : Gap

namespace Layout

def tokens (l : Layout) : List Token := l.parts.map (·.2)

/-- The source that is laid out so. -/
def text (l : Layout) : List Char :=
  l.parts.flatMap (fun part => part.1.text ++ part.2.spelling) ++ l.last.text

end Layout

/-- The tokens write the recipe where they stand at some places, and so
they do, spans apart, wherever they stand. -/
def RecipeSource.WrittenBy (written : RecipeSource) (ts : List Token) : Prop :=
  ∃ ls, ls.map (·.token) = ts ∧ WritesRecipe ls written

-- ====================================================== what comes next

/-- Has the text of the token no end of its own? -/
def Token.isOpenEnded : Token → Bool
  | .word _ => true
  | .join _ => true
  | _ => false

/-- Is the token a sign that ends the text before it? -/
def Token.endsText : Token → Bool
  | .arrow => true
  | .closeBracket => true
  | .openBrace => true
  | .semicolon => true
  | .ampersand => true
  | .plus => true
  | _ => false

/-- Behind each text stands a sign that ends it. -/
def Separated : List Token → Prop
  | [] => True
  | t :: ts => (t.isOpenEnded = true → ∃ sign ∈ ts.head?, sign.endsText = true) ∧ Separated ts

namespace Situation

/-- May a text have been read last? -/
def isAfterText : Situation → Bool
  | .atBrace _ => true
  | .atBracket _ _ _ _ _ => true
  | .afterIngredient _ _ _ => true
  | .afterDescription _ _ _ _ => true
  | .afterAction _ _ => true
  | _ => false

variable {s s' : Situation} {l : Lexeme}

/-- A text that has no end of its own leads to where a text may have been
read last. -/
theorem isAfterText_of_next? (h : s.next? l = some s') (hl : l.token.isOpenEnded = true) :
    s'.isAfterText = true := by
  obtain ⟨t, p⟩ := l
  cases t
  case word | join => cases s <;> cases h <;> rfl
  all_goals cases hl

/-- Only a sign that ends it can stand behind a text. -/
theorem endsText_of_next? (hs : s.isAfterText = true) (h : s.next? l = some s') :
    l.token.endsText = true := by
  obtain ⟨t, p⟩ := l
  cases s
  case atBrace | atBracket | afterIngredient | afterDescription | afterAction =>
    cases t <;> first | rfl | cases h
  all_goals cases hs

/-- Tokens that are read to the end of a recipe are separated. -/
theorem separated_of_run {recipe : RecipeSource} {ls : List Lexeme}
    (h : s.run ls = .ok (.closed recipe)) : Separated (ls.map (·.token)) := by
  induction ls generalizing s with
  | nil => trivial
  | cons l ls ih =>
      rw [run] at h
      split at h
      · cases h
      · rename_i s' hnext
        refine ⟨fun hl => ?_, ih h⟩
        have hafter := isAfterText_of_next? hnext hl
        cases ls with
        | nil =>
            -- behind a text the recipe is not closed yet
            cases h
            cases hafter
        | cons l' ls =>
            rw [run] at h
            split at h
            · cases h
            · rename_i s'' hnext'
              exact ⟨l'.token, rfl, endsText_of_next? hafter hnext'⟩

end Situation

/-- Tokens that write a recipe have a sign behind each text that ends it. -/
theorem RecipeSource.WrittenBy.separated {ts : List Token} {written : RecipeSource}
    (h : written.WrittenBy ts) : Separated ts := by
  obtain ⟨ls, rfl, hwrites⟩ := h
  exact Situation.separated_of_run (Situation.run_eq_ok_closed_iff.2 hwrites)

-- ============================================================= scanning

/-- A comment is passed over up to the line feed that ends it. -/
theorem Scans.comment {line : List Char} (hline : '\n' ∉ line) (rest : List Char) :
    Scans ('/' :: '/' :: line) [] ('\n' :: rest) := by
  have hall : ∀ c ∈ '/' :: line, decide (c ≠ '\n') = true := by
    intro c hc
    rcases List.mem_cons.1 hc with rfl | hc
    · rfl
    · exact decide_eq_true fun h => hline (h ▸ hc)
  have htake : ('/' :: line ++ '\n' :: rest).takeWhile (· ≠ '\n') = '/' :: line := by
    rw [List.takeWhile_append_of_pos hall, List.takeWhile_cons_of_neg (by decide),
      List.append_nil]
  have hread : Piece.read? '/' ('/' :: line ++ '\n' :: rest)
      = some (.gap, ('/' :: line ++ '\n' :: rest).takeWhile (· ≠ '\n') |>.length) := rfl
  intro here
  refine ⟨[], rfl, ?_⟩
  rw [List.cons_append, Scan.go, hread, htake]
  exact Scan.go_length (here.next '/') ('/' :: line) ('\n' :: rest)

/-- A part of a gap is scanned as nothing. -/
theorem GapPart.scans (part : GapPart) (rest : List Char) : Scans part.text [] rest := by
  cases part with
  | blank c hblank => exact Scans.gap hblank rest
  | comment line hline => exact (Scans.comment hline rest).append (Scans.gap rfl rest)

/-- So are several. -/
theorem scans_gapParts (parts : List GapPart) (rest : List Char) :
    Scans (parts.flatMap GapPart.text) [] rest := by
  induction parts with
  | nil => exact Scans.nil rest
  | cons part parts ih => exact (part.scans _).append ih

theorem Gap.scans (g : Gap) (rest : List Char) : Scans g.text [] rest :=
  scans_gapParts g.parts rest

/-- A token is found where what follows ends its text, if it has no end of
its own. -/
theorem Token.scans {t : Token} (ht : t.isWritable = true) {rest : List Char}
    (hrest : t.isOpenEnded = true → Closes rest) : Scans t.spelling [t] rest := by
  cases t with
  | word spelling => exact Scans.word ht (hrest rfl)
  | join name => exact Scans.join ht (hrest rfl)
  | done => exact @Scans.token rest '<' ['>'] .done rfl
  | arrow => exact @Scans.token rest '-' ['>'] .arrow rfl
  | openBracket => exact @Scans.single '[' .openBracket (fun _ => rfl) rest
  | closeBracket => exact @Scans.single ']' .closeBracket (fun _ => rfl) rest
  | openBrace => exact @Scans.single '{' .openBrace (fun _ => rfl) rest
  | closeBrace => exact @Scans.single '}' .closeBrace (fun _ => rfl) rest
  | semicolon => exact @Scans.single ';' .semicolon (fun _ => rfl) rest
  | ampersand => exact @Scans.single '&' .ampersand (fun _ => rfl) rest
  | plus => exact @Scans.single '+' .plus (fun _ => rfl) rest

-- ========================================================== end of text

/-- A sign that ends a text closes the word before it, whatever follows. -/
theorem Token.closes {t : Token} (ht : t.endsText = true) (rest : List Char) :
    Closes (t.spelling ++ rest) := by
  cases t
  case arrow | closeBracket | openBrace | semicolon | ampersand | plus =>
    refine ⟨rfl, fun c hc => ?_⟩
    cases hc
    decide
  all_goals cases ht

/-- A word that runs into a gap runs over gap characters only, if that is
so behind the gap. -/
theorem all_wordTail_gapParts {parts : List GapPart} {rest : List Char}
    (h : (wordTail rest).all Text.isGap = true) :
    (wordTail (parts.flatMap GapPart.text ++ rest)).all Text.isGap = true := by
  induction parts with
  | nil => exact h
  | cons part parts ih =>
      rw [List.flatMap_cons, List.append_assoc]
      cases part with
      | comment line hline => rfl
      | blank c hblank =>
          rw [GapPart.text, List.singleton_append, wordTail]
          split
          · rfl
          · rw [List.all_cons, hblank, ih]
            rfl

/-- A character of a gap goes on with no name, and completes no other
sign. -/
theorem isNameChar_of_isGap {c : Char} (h : Text.isGap c = true) :
    isNameChar c = false ∧ c ≠ '>' ∧ c ≠ '/' := by
  simp only [Text.isGap, Bool.or_eq_true, decide_eq_true_eq] at h
  rcases h with (((rfl | rfl) | rfl) | rfl) | rfl <;> decide

/-- A gap in front of it takes nothing from a sign that ends a text. -/
theorem Gap.closes (g : Gap) {rest : List Char} (h : Closes rest) : Closes (g.text ++ rest) := by
  refine ⟨all_wordTail_gapParts h.gap, ?_⟩
  rw [Gap.text]
  cases hparts : g.parts with
  | nil => exact h.head
  | cons part parts =>
      have hfirst := g.isBlank_of_head hparts
      cases part with
      | comment line hline => cases hfirst
      | blank c hblank =>
          intro d hd
          cases hd
          exact isNameChar_of_isGap hblank

-- =========================================================== the tokens

/-- However they are laid out, separated tokens are scanned one after
another. -/
theorem scans_layout {parts : List (Gap × Token)} (last : Gap)
    (hseparated : Separated (parts.map (·.2)))
    (hwritable : ∀ t ∈ parts.map (·.2), t.isWritable = true) :
    Scans (parts.flatMap (fun part => part.1.text ++ part.2.spelling) ++ last.text)
      (parts.map (·.2)) [] := by
  induction parts with
  | nil => exact last.scans []
  | cons part parts ih =>
      obtain ⟨hend, hseparated⟩ := hseparated
      rw [List.map_cons, List.forall_mem_cons] at hwritable
      rw [List.flatMap_cons, List.append_assoc, List.append_assoc]
      refine (part.1.scans _).append (Scans.append (Token.scans hwritable.1 fun ht => ?_)
        (ih hseparated hwritable.2))
      obtain ⟨sign, hsign, hcloses⟩ := hend ht
      cases parts with
      | nil => cases hsign
      | cons next parts =>
          cases hsign
          rw [List.flatMap_cons]
          simp only [List.append_assoc]
          exact next.1.closes (Token.closes hcloses _)

/-- Trimming leaves a token that can be written as it is. -/
theorem Token.trimmed_eq_self {t : Token} (ht : t.isWritable = true) : t.trimmed = t := by
  cases t with
  | word spelling =>
      have htrim : Text.trim (spelling ++ []) = spelling := trim_append_blanks ht rfl
      rw [List.append_nil] at htrim
      exact congrArg Token.word htrim
  | _ => rfl

namespace Layout

variable {l : Layout} {written : RecipeSource}

/-- The source that is laid out is scanned to its end, and the tokens are
found again. -/
theorem scan_text (hwritten : written.WrittenBy l.tokens)
    (hwritable : ∀ t ∈ l.tokens, t.isWritable = true) :
    ∃ ls, Scan.ofSource l.text = ⟨ls, none⟩ ∧ Spells ls l.tokens := by
  obtain ⟨ls, hls, hgo⟩ := scans_layout l.last hwritten.separated hwritable Place.start
  rw [List.append_nil, Scan.go] at hgo
  refine ⟨ls, ?_, hls⟩
  rw [Scan.ofSource, Layout.text, hgo, Scan.after, List.append_nil]

/-- The source writes what the tokens write, spans apart. -/
theorem read_text (hwritten : written.WrittenBy l.tokens)
    (hwritable : ∀ t ∈ l.tokens, t.isWritable = true) :
    ∃ written', RecipeSource.read l.text = .ok written' ∧ written.Alike written' := by
  obtain ⟨ls', hscan, hspells⟩ := scan_text hwritten hwritable
  obtain ⟨ls, hls, hwrites⟩ := hwritten
  have htrim : ls.map (·.token.trimmed) = l.tokens := by
    rw [← hls]
    refine List.map_congr_left fun x hx => Token.trimmed_eq_self (hwritable x.token ?_)
    rw [← hls]
    exact List.mem_map_of_mem hx
  have hrespells : Respells ls ls' := by
    rw [Respells, htrim]
    exact hspells
  obtain ⟨written', hwrites', halike⟩ := hwrites.respell hrespells
  refine ⟨written', RecipeSource.read_eq_ok_iff.2 ?_, halike⟩
  rw [hscan]
  exact ⟨rfl, hwrites'⟩

end Layout

/-- How the tokens of a recipe are laid out makes no difference. If `<>` only
ever ends a rule, then the recipe is read in every layout, as the same but
for the spans, and leaves the same registry behind; else a misplaced `<>`
keeps it from being read in any. -/
theorem Recipe.read_layout {l l' : Layout} {written : RecipeSource}
    (hsame : l'.tokens = l.tokens) (hwritten : written.WrittenBy l.tokens)
    (hwritable : ∀ t ∈ l.tokens, t.isWritable = true) :
    ((∀ rule ∈ written.rules, rule.DoneIsLast)
        ∧ ∃ found found' r, Recipe.read l.text .empty = (.ok found, r)
          ∧ Recipe.read l'.text .empty = (.ok found', r) ∧ found'.unplaced = found.unplaced)
      ∨ ((¬ ∀ rule ∈ written.rules, rule.DoneIsLast)
        ∧ ∃ span span' r r',
          Recipe.read l.text .empty = (.error (.offence (.misplacedDone span)), r)
            ∧ Recipe.read l'.text .empty = (.error (.offence (.misplacedDone span')), r')) := by
  obtain ⟨w, hw, halike⟩ := Layout.read_text hwritten hwritable
  obtain ⟨w', hw', halike'⟩ := Layout.read_text (hsame ▸ hwritten) (hsame ▸ hwritable)
  rcases read_of_written hw (r := .empty) rfl with
    ⟨hdone, found, r, hread⟩ | ⟨hmisplaced, span, r, hread⟩
  · obtain ⟨found', hread', hfound⟩ := read_of_alike hw hw' (halike.symm.trans halike') hread
    exact .inl ⟨halike.symm.doneIsLast hdone, found, found', r, hread, hread', hfound⟩
  · have hmisplaced' : ¬ ∀ rule ∈ written.rules, rule.DoneIsLast :=
      fun hdone => hmisplaced (halike.doneIsLast hdone)
    rcases read_of_written hw' (r := .empty) rfl with ⟨hdone, -⟩ | ⟨-, span', r', hread'⟩
    · exact absurd (halike'.symm.doneIsLast hdone) hmisplaced'
    · exact .inr ⟨hmisplaced', span, span', r, r', hread, hread'⟩

namespace Recipe

/-- The tokens of the eggs. -/
def eggsTokens : List Token :=
  [.word "eggs-/".toList, .openBrace, .openBracket, .word "1/2".toList, .closeBracket,
    .word "b-".toList, .arrow, .word "c/".toList, .ampersand, .word "b".toList, .plus,
    .word "b".toList, .arrow, .join "x".toList, .semicolon, .join "x".toList, .arrow,
    .word "d-".toList, .semicolon, .closeBrace]

/-- The eggs as they were written at first. -/
def eggsLayout : Layout where
  parts := eggsTokens.mapIdx fun i t =>
    (match i with
      | 1 | 6 => .opening ' ' rfl []
      | 2 => .opening ' ' rfl
          [.comment " two".toList (by decide), .blank ' ' rfl]
      | _ => .none, t)
  last := .none

/-- The eggs without gaps but for the last, which is a comment. -/
def tightEggs : Layout where
  parts := eggsTokens.map fun t => (.none, t)
  last := .opening '\t' rfl [.comment "// eggs".toList (by decide)]

theorem read_layout_eggs : eggsLayout.text = eggsSource
    ∧ tightEggs.text
      = "eggs-/\x7b[1/2]b-->c/&b+b->$x;$x->d-;\x7d\t//// eggs\n".toList
    ∧ ∃ found, Recipe.read tightEggs.text .empty = (.ok found, eggsRegistry)
      ∧ found.unplaced = eggs.unplaced := by
  have htext : eggsLayout.text = eggsSource := by decide +kernel
  have hwritten : RecipeSource.WrittenBy _ eggsLayout.tokens :=
    ⟨eggsTokens.map (⟨·, Place.start⟩), by decide +kernel, Situation.run_eq_ok_closed_iff.1 rfl⟩
  refine ⟨htext, by decide +kernel, ?_⟩
  have hsame : tightEggs.tokens = eggsLayout.tokens := by decide +kernel
  have hread := read_layout hsame hwritten (by decide +kernel)
  rw [htext, read_eggs] at hread
  rcases hread with ⟨-, found, found', r, hok, hread, hfound⟩ | ⟨-, _, _, _, _, herror, -⟩
  · cases hok
    exact ⟨found', hread, hfound⟩
  · cases herror

end Recipe

end RecipeChart
