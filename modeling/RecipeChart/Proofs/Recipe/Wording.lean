/-
Words from end to end. A word token is the longest stretch that can be
read as a word, so what can be said of it is that its first character
opens a word and that the others run on. A text of a recipe is such a
stretch without the blanks behind it: it is plain. A plain text is read
back from any place where something follows that no word runs over, save
for the blanks in front of it, which are trimmed off again.
-/
import RecipeChart.Recipe.Token

namespace RecipeChart

-- ========================================================== whole words

/-- Do the characters all run on as the inside of a word that ends with
them? -/
def runsOn : List Char → Bool
  | [] => true
  | c :: rest => !endsWord c && !breaksWord c rest && runsOn rest

/-- Are the characters a word from end to end? -/
def isWord : List Char → Bool
  | [] => false
  | c :: tail => opensWord c && runsOn tail

/-- Are they a word without a blank at its end? -/
def isPlain (cs : List Char) : Bool := isWord cs && cs.getLast?.all (!Text.isBlank ·)

/-- Are they the name of a join point from end to end? -/
def isJoinName (cs : List Char) : Bool := cs ≠ [] && cs.all isNameChar

/-- Nothing that could follow a hyphen or a slash makes it break a word
where nothing follows at all. -/
theorem breaksWord_nil (c : Char) : breaksWord c [] = false := by
  simp [breaksWord]

/-- Only the next character decides whether a word breaks. -/
theorem breaksWord_cons (c d : Char) (rest : List Char) :
    breaksWord c (d :: rest) = breaksWord c [d] := rfl

/-- A word breaks only before the second half of an arrow or comment. -/
theorem breaksWord_eq_false {c : Char} {rest : List Char}
    (h : ∀ d ∈ rest.head?, d ≠ '>' ∧ d ≠ '/') : breaksWord c rest = false := by
  cases rest with
  | nil => exact breaksWord_nil c
  | cons d rest =>
      obtain ⟨harrow, hslash⟩ := h d rfl
      simp [breaksWord, harrow, hslash]

-- ======================================================== continuations

/-- The longest continuation runs on. -/
theorem runsOn_wordTail (cs : List Char) : runsOn (wordTail cs) = true := by
  induction cs with
  | nil => rfl
  | cons c rest ih =>
      rw [wordTail]
      split
      · rfl
      · rename_i hgo
        rw [Bool.or_eq_true, not_or, Bool.not_eq_true, Bool.not_eq_true] at hgo
        obtain ⟨hends, hbreaks⟩ := hgo
        -- cutting the rest short takes no arrow or comment apart
        have hcut : breaksWord c (wordTail rest) = false := by
          cases rest with
          | nil => exact breaksWord_nil c
          | cons d rest =>
              rw [wordTail]
              split
              · exact breaksWord_nil c
              · rw [breaksWord_cons] at hbreaks ⊢
                exact hbreaks
        rw [runsOn, hends, hcut, ih]
        rfl

theorem wordTail_prefix (cs : List Char) : wordTail cs <+: cs := by
  induction cs with
  | nil => exact List.prefix_refl []
  | cons c rest ih =>
      rw [wordTail]
      split
      · exact List.nil_prefix
      · exact List.cons_prefix_cons.2 ⟨rfl, ih⟩

/-- A continuation is read in full, and then on, where what follows it
does not turn its last character into an arrow or comment. -/
theorem wordTail_append {tail rest : List Char} (htail : runsOn tail = true)
    (hrest : ∀ d ∈ rest.head?, d ≠ '>' ∧ d ≠ '/') :
    wordTail (tail ++ rest) = tail ++ wordTail rest := by
  induction tail with
  | nil => rfl
  | cons c tail ih =>
      rw [runsOn, Bool.and_eq_true, Bool.and_eq_true, Bool.not_eq_true', Bool.not_eq_true']
        at htail
      obtain ⟨⟨hends, hbreaks⟩, htail⟩ := htail
      have hgo : breaksWord c (tail ++ rest) = false := by
        cases tail with
        | nil => exact breaksWord_eq_false hrest
        | cons d tail =>
            rw [breaksWord_cons] at hbreaks
            rw [List.cons_append, breaksWord_cons]
            exact hbreaks
      rw [List.cons_append, wordTail, hends, hgo, ih htail]
      rfl

theorem runsOn_of_append {front back : List Char} (h : runsOn (front ++ back) = true) :
    runsOn front = true := by
  induction front with
  | nil => rfl
  | cons c front ih =>
      rw [List.cons_append, runsOn, Bool.and_eq_true, Bool.and_eq_true, Bool.not_eq_true',
        Bool.not_eq_true'] at h
      obtain ⟨⟨hends, hbreaks⟩, h⟩ := h
      have hcut : breaksWord c front = false := by
        cases front with
        | nil => exact breaksWord_nil c
        | cons d front => exact hbreaks
      rw [runsOn, hends, hcut, ih h]
      rfl

-- =========================================================== word tokens

theorem isWord_cons_wordTail {c : Char} (h : opensWord c = true) (rest : List Char) :
    isWord (c :: wordTail rest) = true := by
  rw [isWord, h, runsOn_wordTail]
  rfl

theorem isBlank_of_opensWord {c : Char} (h : opensWord c = true) : Text.isBlank c = false := by
  simp only [opensWord, Bool.and_eq_true, Bool.not_eq_true'] at h
  exact h.1.1.1

/-- A plain text has a first character, which opens a word. -/
theorem exists_of_isPlain {cs : List Char} (h : isPlain cs = true) :
    ∃ c tail, cs = c :: tail ∧ opensWord c = true ∧ runsOn tail = true := by
  cases cs with
  | nil => cases h
  | cons c tail =>
      rw [isPlain, isWord, Bool.and_eq_true, Bool.and_eq_true] at h
      exact ⟨c, tail, rfl, h.1.1, h.1.2⟩

-- ============================================================= trimming

/-- Trimming takes blanks from the end only, where the first character is
none. -/
theorem trim_cons {c : Char} (h : Text.isBlank c = false) (tail : List Char) :
    Text.trim (c :: tail) = Text.trimEnd (c :: tail) := by
  rw [Text.trim, List.dropWhile_cons_of_neg (by rw [h]; exact Bool.false_ne_true)]

/-- What is left of a text without the blanks at its end, and the blanks. -/
theorem exists_blanks_of_trimEnd (cs : List Char) :
    ∃ blanks, cs = Text.trimEnd cs ++ blanks ∧ blanks.all Text.isBlank = true := by
  refine ⟨(cs.reverse.takeWhile Text.isBlank).reverse, ?_, ?_⟩
  · rw [Text.trimEnd, ← List.reverse_append, List.takeWhile_append_dropWhile,
      List.reverse_reverse]
  · rw [List.all_reverse]
    exact List.all_takeWhile

theorem getLast?_trimEnd (cs : List Char) :
    (Text.trimEnd cs).getLast?.all (!Text.isBlank ·) = true := by
  rw [Text.trimEnd, List.getLast?_reverse]
  have h := List.head?_dropWhile_not Text.isBlank cs.reverse
  cases hhead : (cs.reverse.dropWhile Text.isBlank).head? with
  | none => rfl
  | some c =>
      rw [hhead] at h
      rw [Option.all_some, h]
      rfl

/-- A trimmed word is plain. -/
theorem isPlain_trim {cs : List Char} (h : isWord cs = true) : isPlain (Text.trim cs) = true := by
  cases cs with
  | nil => cases h
  | cons c tail =>
      rw [isWord, Bool.and_eq_true] at h
      obtain ⟨hopens, htail⟩ := h
      have hblank := isBlank_of_opensWord hopens
      obtain ⟨blanks, hcut, hblanks⟩ := exists_blanks_of_trimEnd (c :: tail)
      rw [trim_cons hblank, isPlain, getLast?_trimEnd, Bool.and_true]
      cases hleft : Text.trimEnd (c :: tail) with
      | nil =>
          -- then the first character were a blank
          rw [hleft, List.nil_append] at hcut
          rw [← hcut, List.all_cons, hblank] at hblanks
          cases hblanks
      | cons d front =>
          rw [hleft, List.cons_append, List.cons.injEq] at hcut
          obtain ⟨rfl, rfl⟩ := hcut
          rw [isWord, hopens, runsOn_of_append htail]
          rfl

/-- Blanks behind a plain text are trimmed off. -/
theorem trim_append_blanks {cs blanks : List Char} (h : isPlain cs = true)
    (hblanks : blanks.all Text.isBlank = true) : Text.trim (cs ++ blanks) = cs := by
  obtain ⟨c, tail, rfl, hopens, -⟩ := exists_of_isPlain h
  rw [isPlain, Bool.and_eq_true] at h
  have hlast := h.2
  rw [List.cons_append, trim_cons (isBlank_of_opensWord hopens), ← List.cons_append, Text.trimEnd,
    List.reverse_append]
  have hall : ∀ d ∈ blanks.reverse, Text.isBlank d = true := fun d hd =>
    List.all_eq_true.1 hblanks d (List.mem_reverse.1 hd)
  rw [List.dropWhile_append_of_pos hall]
  rw [← List.head?_reverse] at hlast
  cases hback : (c :: tail).reverse with
  | nil => exact absurd hback (by simp)
  | cons d back =>
      rw [hback, List.head?_cons, Option.all_some, Bool.not_eq_true'] at hlast
      rw [List.dropWhile_cons_of_neg (by rw [hlast]; exact Bool.false_ne_true), ← hback,
        List.reverse_reverse]

end RecipeChart
