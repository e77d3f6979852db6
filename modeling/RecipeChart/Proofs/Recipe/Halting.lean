/-
Where the reading of a source halts. The scan and the machine go through a
source side by side, piece by piece (`Scanned`), so the reading either comes
to the end of the source or halts at a place behind a part that was cut
(`CutsTo`), with tokens that the machine has read: there is no piece to be
cut off there, or the token there cannot stand there.

That this is so whichever token one would cut off there, the longest or a
shorter one, rests on the kinds of pieces: what a text starts with is of one
kind only. The line and the column of a place are told from the text before
it.
-/
import Mathlib.Data.List.Induction
import RecipeChart.Proofs.Recipe.Beginning

namespace RecipeChart

-- =============================================================== places

/-- The line and the column of an offset: one more than the line feeds
before it, and one more than the characters since the last of them. -/
def spanAt (source : List Char) (offset : Nat) : Span where
  line := 1 + (source.take offset).count '\n'
  column := ((source.take offset).reverse.takeWhile (· ≠ '\n')).length + 1

namespace Place

theorem line_after (before : List Char) : (after before).line = 1 + before.count '\n' := by
  induction before using List.reverseRecOn with
  | nil => rfl
  | append_singleton before c ih =>
      rw [after_concat, next, List.count_append]
      split
      · next hc =>
          rw [hc, List.count_singleton_self, ih]
          rfl
      · next hc =>
          rw [List.count_singleton, if_neg (by simpa using hc), ih]
          rfl

theorem column_after (before : List Char) :
    (after before).column = (before.reverse.takeWhile (· ≠ '\n')).length + 1 := by
  induction before using List.reverseRecOn with
  | nil => rfl
  | append_singleton before c ih =>
      rw [after_concat, next, List.reverse_concat]
      split
      · next hc => rw [List.takeWhile_cons_of_neg (by simpa using hc), List.length_nil]
      · next hc =>
          have hgoes : decide (c ≠ '\n') = true := decide_eq_true hc
          rw [List.takeWhile_cons, hgoes]
          exact congrArg (· + 1) ih

/-- The span of a place is the one of its offset. -/
theorem span_after {source before rest : List Char} (h : source = before ++ rest) :
    (after before).span = spanAt source (after before).offset := by
  rw [span, spanAt, offset_after, h, List.take_left, line_after, column_after]
  rfl

end Place

-- ================================================================ kinds

namespace Piece

/-- The kind of a piece: the piece without what it spells. -/
def kind : Piece → Piece
  | .gap => .gap
  | .token t => .token t.kind

/-- What a text starts with is of one kind only. -/
theorem Cuttable.kind_eq {piece piece' : Piece} {c : Char} {tail back : List Char} {n : Nat}
    (h : Cuttable piece (c :: tail) back)
    (hread : Piece.read? c (tail ++ back) = some (piece', n)) :
    piece'.kind = piece.kind := by
  cases h with
  | blanks hne hgaps =>
      rw [read?_of_isGap (hgaps c List.mem_cons_self)] at hread
      cases hread
      rfl
  | comment hline =>
      cases hread
      rfl
  | word hopens htail =>
      rw [read?_of_opensWord hopens] at hread
      cases hread
      rfl
  | join hne hname =>
      replace hread : (if (tail ++ back).takeWhile isNameChar = [] then none
          else some (Piece.token (.join ((tail ++ back).takeWhile isNameChar)),
            ((tail ++ back).takeWhile isNameChar).length)) = some (piece', n) := hread
      split at hread
      · cases hread
      · cases hread
        rfl
  | @sign t _ _ hsign =>
      cases t <;> cases hsign <;> cases hread <;> rfl

end Piece

-- ============================================================== cutting

/-- From the first place on, the source is cut into gaps and these tokens up
to the second place, where the rest begins. -/
inductive CutsTo : Place → List Char → List Lexeme → Place → List Char → Prop where
  | here {p : Place} {source : List Char} : CutsTo p source [] p source
  | gap {p there : Place} {front back rest : List Char} {ls : List Lexeme}
      (hpiece : Piece.Longest .gap front back)
      (hrest : CutsTo (front.foldl Place.next p) back ls there rest) :
      CutsTo p (front ++ back) ls there rest
  | token {p there : Place} {t : Token} {front back rest : List Char} {ls : List Lexeme}
      (hpiece : Piece.Longest (.token t) front back)
      (hrest : CutsTo (front.foldl Place.next p) back ls there rest) :
      CutsTo p (front ++ back) (⟨t, p⟩ :: ls) there rest

/-- The second place is the first one carried on over what was cut. -/
theorem CutsTo.exists_before {p there : Place} {source rest : List Char} {ls : List Lexeme}
    (h : CutsTo p source ls there rest) :
    ∃ before, source = before ++ rest ∧ there = before.foldl Place.next p := by
  induction h with
  | here => exact ⟨[], rfl, rfl⟩
  | @gap p there front back rest ls _ _ ih =>
      obtain ⟨before, hback, hthere⟩ := ih
      exact ⟨front ++ before, by rw [hback, List.append_assoc], by rw [hthere, List.foldl_append]⟩
  | @token p there t front back rest ls _ _ ih =>
      obtain ⟨before, hback, hthere⟩ := ih
      exact ⟨front ++ before, by rw [hback, List.append_assoc], by rw [hthere, List.foldl_append]⟩

/-- So is the place of a token, where the token is the longest piece. -/
theorem Cuts.exists_longest {p : Place} {source : List Char} {ls : List Lexeme}
    (h : Cuts p source ls) {l : Lexeme} (hl : l ∈ ls) :
    ∃ before front back, source = before ++ (front ++ back)
      ∧ l.place = before.foldl Place.next p ∧ Piece.Longest (.token l.token) front back := by
  induction h with
  | nil => cases hl
  | @gap p front back ls _ _ ih =>
      obtain ⟨before, token, rest, hback, hplace, hlongest⟩ := ih hl
      exact ⟨front ++ before, token, rest, by rw [hback, List.append_assoc],
        by rw [hplace, List.foldl_append], hlongest⟩
  | @token p t front back ls hpiece _ ih =>
      rcases List.mem_cons.1 hl with rfl | hl
      · exact ⟨[], front, back, rfl, rfl, hpiece⟩
      · obtain ⟨before, token, rest, hback, hplace, hlongest⟩ := ih hl
        exact ⟨front ++ before, token, rest, by rw [hback, List.append_assoc],
          by rw [hplace, List.foldl_append], hlongest⟩

theorem Cuts.exists_before {p : Place} {source : List Char} {ls : List Lexeme}
    (h : Cuts p source ls) {l : Lexeme} (hl : l ∈ ls) :
    ∃ before rest, source = before ++ rest ∧ l.place = before.foldl Place.next p := by
  obtain ⟨before, front, back, hsource, hplace, -⟩ := h.exists_longest hl
  exact ⟨before, front ++ back, hsource, hplace⟩

-- ============================================================== halting

open Situation

/-- There is nothing to be cut off, or a token that cannot stand in the
situation. -/
def Situation.Halts (s : Situation) (place : Place) (c : Char) (rest : List Char) : Prop :=
  ∀ piece n, Piece.read? c rest = some (piece, n) →
    ∃ t, piece = .token t ∧ s.next? ⟨t, place⟩ = none

/-- If the machine finds an offence, the reading halts where it stands. -/
theorem Scanned.exists_halts {here place : Place} {source : List Char} {scan : Scan}
    (h : Scanned here source scan) {s : Situation} (hrun : s.run scan.lexemes = .error place) :
    ∃ ls s' c rest, CutsTo here source ls place (c :: rest) ∧ s.run ls = .ok s'
      ∧ s'.Halts place c rest := by
  induction h generalizing s with
  | done => cases hrun
  | stuck hread => cases hrun
  | gap hpiece _ ih =>
      obtain ⟨ls, s', c, rest, hcut, hls, hhalts⟩ := ih hrun
      exact ⟨ls, s', c, rest, .gap hpiece hcut, hls, hhalts⟩
  | @token here t front back scan hpiece _ ih =>
      rw [Scan.after, List.singleton_append, run] at hrun
      cases hnext : s.next? ⟨t, here⟩ with
      | none =>
          rw [hnext] at hrun
          cases hrun
          obtain ⟨c, tail, -, -, rfl, -, -, -⟩ := hpiece.cuttable.read?
          refine ⟨[], s, c, tail ++ back, .here, rfl, fun piece n hread => ⟨t, ?_, hnext⟩⟩
          rw [Piece.longest_iff_read?.1 hpiece] at hread
          cases hread
          rfl
      | some next =>
          rw [hnext] at hrun
          obtain ⟨ls, s', c, rest, hcut, hls, hhalts⟩ := ih hrun
          exact ⟨⟨t, here⟩ :: ls, s', c, rest, .token hpiece hcut, (run_cons hnext ls).trans hls,
            hhalts⟩

/-- If the scan is stuck, the reading halts there. -/
theorem Scanned.cutsTo_stuck {here place : Place} {source : List Char} {scan : Scan}
    (h : Scanned here source scan) (hstuck : scan.stuck = some place) :
    ∃ c rest, CutsTo here source scan.lexemes place (c :: rest) ∧ Piece.read? c rest = none := by
  induction h with
  | done => cases hstuck
  | @stuck here c rest hread =>
      cases hstuck
      exact ⟨c, rest, .here, hread⟩
  | gap hpiece _ ih =>
      obtain ⟨c, rest, hcut, hread⟩ := ih hstuck
      exact ⟨c, rest, .gap hpiece hcut, hread⟩
  | token hpiece _ ih =>
      obtain ⟨c, rest, hcut, hread⟩ := ih hstuck
      exact ⟨c, rest, .token hpiece hcut, hread⟩

end RecipeChart
