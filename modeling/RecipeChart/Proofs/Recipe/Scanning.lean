/-
What the scan makes of a source that is put together from pieces. The
scan of a gap followed by anything is the scan of what follows, and the
scan of a token's text followed by anything is the token and then the
scan of what follows, so the scan of a text is found piece by piece. One
token looks past its own text: a word runs over the gap behind it. The
gap is then part of the spelling, where trimming removes it, and the scan
goes on as if it stood at the end of the word.

In the other direction, whatever the source is, a word among its tokens
is a word from end to end and a join carries a proper name.
-/
import RecipeChart.Proofs.Recipe.Wording
import RecipeChart.Proofs.Traversal

namespace RecipeChart

-- =============================================================== tokens

/-- The token with its spelling trimmed, which is all that is made of it
later. -/
def Token.trimmed : Token → Token
  | .word spelling => .word (Text.trim spelling)
  | t => t

/-- Is the spelling in the token one that can be scanned? -/
def Token.isProper : Token → Bool
  | .word spelling => isWord spelling
  | .join name => isJoinName name
  | _ => true

/-- The characters run over the gap behind a word and over nothing else,
and the name of a join ends before them. -/
structure Closes (rest : List Char) : Prop where
  gap : (wordTail rest).all Text.isGap = true
  head : ∀ c ∈ rest.head?, isNameChar c = false ∧ c ≠ '>' ∧ c ≠ '/'

-- =============================================================== pieces

/-- A gap character starts the longest gap there is. -/
theorem Piece.read?_of_isGap {c : Char} (h : Text.isGap c = true) (rest : List Char) :
    Piece.read? c rest = some (.gap, (rest.takeWhile Text.isGap).length) := by
  unfold Piece.read?
  rw [if_pos h]

/-- A character that opens a word starts the longest word there is. -/
theorem Piece.read?_of_opensWord {c : Char} (h : opensWord c = true) (rest : List Char) :
    Piece.read? c rest = some (.token (.word (c :: wordTail rest)), (wordTail rest).length) := by
  have hgap : ¬ Text.isGap c = true := by
    intro hgap
    have hblank := Text.isBlank_of_isGap hgap
    rw [isBlank_of_opensWord h] at hblank
    cases hblank
  unfold Piece.read?
  rw [if_neg hgap]
  split
  -- the characters with a piece of their own open no word
  case h_12 => rw [if_pos h]
  all_goals exact absurd h (by decide)

/-- A mark starts a join of the longest name there is. -/
theorem Piece.read?_join {name rest : List Char} (hname : isJoinName name = true)
    (hrest : ∀ c ∈ rest.head?, isNameChar c = false) :
    Piece.read? '$' (name ++ rest) = some (.token (.join name), name.length) := by
  rw [isJoinName, Bool.and_eq_true, decide_eq_true_eq] at hname
  obtain ⟨hne, hall⟩ := hname
  have htake : (name ++ rest).takeWhile isNameChar = name :=
    takeWhile_append_of_head (List.all_eq_true.1 hall) hrest
  have hgap : ¬ Text.isGap '$' = true := by decide
  unfold Piece.read?
  rw [if_neg hgap]
  simp only [htake, if_neg hne]

/-- A token that is read is one that can be scanned. -/
theorem Piece.isProper_of_read? {c : Char} {rest : List Char} {t : Token} {n : Nat}
    (h : Piece.read? c rest = some (.token t, n)) : t.isProper = true := by
  unfold Piece.read? at h
  split at h
  · cases h
  · split at h
    case h_8 =>
      dsimp only at h
      split at h
      · cases h
      · rename_i hne
        cases h
        rw [Token.isProper, isJoinName, List.all_takeWhile, Bool.and_true, decide_eq_true_eq]
        exact hne
    case h_12 =>
      split at h
      · rename_i hopens
        cases h
        exact isWord_cons_wordTail hopens rest
      · cases h
    all_goals first | (split at h <;> cases h <;> rfl) | (cases h; rfl)

-- ================================================================= scan

namespace Scan

/-- The scan with these tokens in front of it. -/
def after (ls : List Lexeme) (s : Scan) : Scan := ⟨ls ++ s.lexemes, s.stuck⟩

theorem after_append (ls ls' : List Lexeme) (s : Scan) :
    s.after (ls ++ ls') = (s.after ls').after ls := by
  rw [after, after, after, List.append_assoc]

/-- Characters of a piece that was read are passed over. -/
theorem go_length (here : Place) (front rest : List Char) :
    go here front.length (front ++ rest) = go (front.foldl Place.next here) 0 rest := by
  induction front generalizing here with
  | nil => rfl
  | cons c front ih =>
      rw [List.length_cons, List.cons_append, go, ih]
      rfl

theorem go_gap {c : Char} (h : Text.isGap c = true) (here : Place) (rest : List Char) :
    go here 0 (c :: rest) = go (here.next c) 0 rest := by
  rw [go, Piece.read?_of_isGap h]
  cases rest with
  | nil => rfl
  | cons d rest =>
      -- the gap that goes on is the gap that starts with the next character
      by_cases hd : Text.isGap d = true
      · rw [List.takeWhile_cons_of_pos hd, List.length_cons]
        simp only [go, Piece.read?_of_isGap hd]
      · rw [List.takeWhile_cons_of_neg hd]
        rfl

/-- Where a piece goes on over a gap, the scan might as well start over. -/
theorem go_gaps {front : List Char} (h : front.all Text.isGap = true) (here : Place)
    (rest : List Char) :
    go here 0 (front ++ rest) = go here front.length (front ++ rest) := by
  induction front generalizing here with
  | nil => rfl
  | cons c front ih =>
      rw [List.all_cons, Bool.and_eq_true] at h
      rw [List.length_cons, List.cons_append, go_gap h.1, ih h.2, go]

/-- So it might where a gap ends the piece. -/
theorem go_length_gaps {front : List Char} (h : front.all Text.isGap = true) (here : Place)
    (tail back : List Char) :
    go here (tail ++ front).length (tail ++ (front ++ back))
      = go (tail.foldl Place.next here) 0 (front ++ back) := by
  rw [go_gaps h, go_length, ← List.append_assoc, go_length, List.foldl_append]

/-- A token is put in front of the scan of what follows it. -/
theorem go_token {c : Char} {rest : List Char} {t : Token} {n : Nat}
    (h : Piece.read? c rest = some (.token t, n)) (here : Place) :
    go here 0 (c :: rest) = (go (here.next c) n rest).after [⟨t, here⟩] := by
  rw [go, h]
  rfl

theorem isProper_of_mem {here : Place} {skip : Nat} {source : List Char} {l : Lexeme}
    (hl : l ∈ (go here skip source).lexemes) : l.token.isProper = true := by
  induction source generalizing here skip with
  | nil => cases skip <;> cases hl
  | cons c rest ih =>
      cases skip with
      | succ skip =>
          rw [go] at hl
          exact ih hl
      | zero =>
          rw [go] at hl
          split at hl
          · cases hl
          · exact ih hl
          · rename_i t n hread
            rcases List.mem_cons.1 hl with rfl | hl
            · exact Piece.isProper_of_read? hread
            · exact ih hl

end Scan

-- ================================================================ texts

/-- The text is scanned as these tokens, up to blanks around words, where
such a rest follows. -/
def Scans (text : List Char) (ts : List Token) (rest : List Char) : Prop :=
  ∀ here, ∃ ls : List Lexeme, ls.map (·.token.trimmed) = ts
    ∧ Scan.go here 0 (text ++ rest)
        = (Scan.go (text.foldl Place.next here) 0 rest).after ls

namespace Scans

variable {text text' rest : List Char} {ts ts' : List Token}

theorem nil (rest : List Char) : Scans [] [] rest :=
  fun _ => ⟨[], rfl, rfl⟩

theorem append (h : Scans text ts (text' ++ rest)) (h' : Scans text' ts' rest) :
    Scans (text ++ text') (ts ++ ts') rest := by
  intro here
  obtain ⟨ls, hls, hgo⟩ := h here
  obtain ⟨ls', hls', hgo'⟩ := h' (text.foldl Place.next here)
  refine ⟨ls ++ ls', ?_, ?_⟩
  · rw [List.map_append, hls, hls']
  · rw [List.append_assoc, hgo, hgo', ← Scan.after_append, List.foldl_append]

theorem gap {c : Char} (h : Text.isGap c = true) (rest : List Char) : Scans [c] [] rest :=
  fun here => ⟨[], rfl, Scan.go_gap h here rest⟩

/-- A token that is read in full. -/
theorem token {c : Char} {tail : List Char} {t : Token}
    (h : Piece.read? c (tail ++ rest) = some (.token t, tail.length)) :
    Scans (c :: tail) [t.trimmed] rest := by
  intro here
  refine ⟨[⟨t, here⟩], rfl, ?_⟩
  rw [List.cons_append, Scan.go_token h, Scan.go_length, List.foldl_cons]

/-- A plain text is scanned as a word where what follows closes it. -/
theorem word (htext : isPlain text = true) (hrest : Closes rest) :
    Scans text [.word text] rest := by
  obtain ⟨c, tail, rfl, hopens, htail⟩ := exists_of_isPlain htext
  intro here
  have hread := Piece.read?_of_opensWord hopens (tail ++ rest)
  have hrun : wordTail (tail ++ rest) = tail ++ wordTail rest :=
    wordTail_append htail fun d hd => (hrest.head d hd).2
  rw [hrun] at hread
  refine ⟨[⟨.word (c :: (tail ++ wordTail rest)), here⟩], ?_, ?_⟩
  · -- the gap is trimmed off the spelling
    have hblanks : (wordTail rest).all Text.isBlank = true :=
      List.all_eq_true.2 fun d hd => Text.isBlank_of_isGap (List.all_eq_true.1 hrest.gap d hd)
    have htrim := trim_append_blanks htext hblanks
    rw [List.cons_append] at htrim
    rw [List.map_singleton, Token.trimmed, htrim]
  · obtain ⟨back, hback⟩ := wordTail_prefix rest
    have hskip := Scan.go_length_gaps hrest.gap (here.next c) tail back
    rw [hback] at hskip
    rw [List.cons_append, Scan.go_token hread, hskip, List.foldl_cons]

/-- A name after its mark is scanned as a join. -/
theorem join (htext : isJoinName text = true) (hrest : Closes rest) :
    Scans ('$' :: text) [.join text] rest :=
  token (t := .join text) (Piece.read?_join htext fun c hc => (hrest.head c hc).1)

end Scans

end RecipeChart
