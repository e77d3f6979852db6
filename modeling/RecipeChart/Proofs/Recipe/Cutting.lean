/-
How a source is cut. A piece is a run of gap characters, a comment, a
word, a join or a sign, and says what it is by its characters alone,
except that a word looks one character ahead: a hyphen in it must not
begin an arrow, nor a slash a comment. The source is cut from left to
right, each piece as long as any piece could be there.

The scan does not compare candidates. It tells the kind of a piece from
its first character and reads on as far as it can. That this is the
longest piece has two halves. Whatever could be cut off at a place begins
what is read there, so nothing longer is missed; and what is read could be
cut off, so a longest piece is no shorter.
-/
import RecipeChart.Proofs.Recipe.Scanning

namespace RecipeChart

-- =============================================================== pieces

/-- The characters of a token that is always written the same. -/
def Token.sign? : Token → Option (List Char)
  | .word _ => none
  | .join _ => none
  | .done => some ['<', '>']
  | .arrow => some ['-', '>']
  | .openBracket => some ['[']
  | .closeBracket => some [']']
  | .openBrace => some ['{']
  | .closeBrace => some ['}']
  | .semicolon => some [';']
  | .ampersand => some ['&']
  | .plus => some ['+']

/-- The characters run on as the inside of a word, before what stands
behind them. -/
inductive RunsInside : List Char → List Char → Prop where
  | nil {back : List Char} : RunsInside [] back
  | hyphen {front back : List Char} (hnext : (front ++ back).head? ≠ some '>')
      (hrest : RunsInside front back) : RunsInside ('-' :: front) back
  | slash {front back : List Char} (hnext : (front ++ back).head? ≠ some '/')
      (hrest : RunsInside front back) : RunsInside ('/' :: front) back
  | other {c : Char} {front back : List Char} (hends : endsWord c = false) (hhyphen : c ≠ '-')
      (hslash : c ≠ '/') (hrest : RunsInside front back) : RunsInside (c :: front) back

namespace Piece

/-- The first characters of a text are such a piece, before the others. -/
inductive Cuttable : Piece → List Char → List Char → Prop where
  | blanks {front back : List Char} (hne : front ≠ []) (hgaps : ∀ c ∈ front, Text.isGap c = true) :
      Cuttable .gap front back
  | comment {line back : List Char} (hline : ∀ c ∈ line, c ≠ '\n') :
      Cuttable .gap ('/' :: '/' :: line) back
  | word {c : Char} {tail back : List Char} (hopens : opensWord c = true)
      (htail : RunsInside tail back) : Cuttable (.token (.word (c :: tail))) (c :: tail) back
  | join {name back : List Char} (hne : name ≠ []) (hname : ∀ c ∈ name, isNameChar c = true) :
      Cuttable (.token (.join name)) ('$' :: name) back
  | sign {t : Token} {front back : List Char} (hsign : t.sign? = some front) :
      Cuttable (.token t) front back

/-- The piece can be cut off, and no longer one of any kind. -/
structure Longest (piece : Piece) (front back : List Char) : Prop where
  cuttable : Cuttable piece front back
  longest : ∀ piece' front' back', front' ++ back' = front ++ back →
    Cuttable piece' front' back' → front'.length ≤ front.length

end Piece

/-- From the place on, the source is cut into gaps and these tokens. -/
inductive Cuts : Place → List Char → List Lexeme → Prop where
  | nil {here : Place} : Cuts here [] []
  | gap {here : Place} {front back : List Char} {ls : List Lexeme}
      (hpiece : Piece.Longest .gap front back)
      (hrest : Cuts (front.foldl Place.next here) back ls) : Cuts here (front ++ back) ls
  | token {here : Place} {t : Token} {front back : List Char} {ls : List Lexeme}
      (hpiece : Piece.Longest (.token t) front back)
      (hrest : Cuts (front.foldl Place.next here) back ls) :
      Cuts here (front ++ back) (⟨t, here⟩ :: ls)

-- ================================================================ words

/-- What runs on inside a word is read in full. -/
theorem RunsInside.wordTail_append {front back : List Char} (h : RunsInside front back) :
    wordTail (front ++ back) = front ++ wordTail back := by
  induction h with
  | nil => rfl
  | @hyphen front back hnext _ ih =>
      have hgo : breaksWord '-' (front ++ back) = false := by
        simp only [breaksWord, decide_eq_false hnext]
        rfl
      rw [List.cons_append, wordTail, hgo, ih]
      rfl
  | @slash front back hnext _ ih =>
      have hgo : breaksWord '/' (front ++ back) = false := by
        simp only [breaksWord, decide_eq_false hnext]
        rfl
      rw [List.cons_append, wordTail, hgo, ih]
      rfl
  | @other c front back hends hhyphen hslash _ ih =>
      have hgo : breaksWord c (front ++ back) = false := by
        simp [breaksWord, hhyphen, hslash]
      rw [List.cons_append, wordTail, hends, hgo, ih]
      rfl

/-- What is read as the inside of a word runs on as one. -/
theorem runsInside_wordTail {source back : List Char} (h : source = wordTail source ++ back) :
    RunsInside (wordTail source) back := by
  induction source with
  | nil => exact .nil
  | cons c rest ih =>
      rw [wordTail] at h ⊢
      split at h
      · rename_i hstop
        rw [if_pos hstop]
        exact .nil
      · rename_i hgo
        rw [if_neg hgo]
        rw [List.cons_append] at h
        injection h with _ hrest
        rw [Bool.or_eq_true, not_or, Bool.not_eq_true, Bool.not_eq_true] at hgo
        obtain ⟨hends, hbreaks⟩ := hgo
        by_cases hhyphen : c = '-'
        · subst hhyphen
          refine .hyphen (fun hnext => ?_) (ih hrest)
          rw [← hrest] at hnext
          simp [breaksWord, hnext] at hbreaks
        · by_cases hslash : c = '/'
          · subst hslash
            refine .slash (fun hnext => ?_) (ih hrest)
            rw [← hrest] at hnext
            simp [breaksWord, hnext] at hbreaks
          · exact .other hends hhyphen hslash (ih hrest)

-- ============================================================== reading

namespace Piece

/-- What is read can be cut off. -/
theorem cuttable_of_read? {c : Char} {rest : List Char} {piece : Piece} {n : Nat}
    (h : read? c rest = some (piece, n)) :
    ∃ tail back, rest = tail ++ back ∧ tail.length = n ∧ Cuttable piece (c :: tail) back := by
  unfold read? at h
  split at h
  · rename_i hgap
    cases h
    refine ⟨rest.takeWhile Text.isGap, rest.dropWhile Text.isGap,
      List.takeWhile_append_dropWhile.symm, rfl, .blanks (List.cons_ne_nil _ _) ?_⟩
    rw [List.forall_mem_cons]
    exact ⟨hgap, fun d hd => List.all_eq_true.1 List.all_takeWhile d hd⟩
  · split at h
    -- These cases read on: a join, the two signs of two characters, a comment and a word.
    -- All others are signs of one character.
    case h_8 =>
      dsimp only at h
      split at h
      · cases h
      · rename_i hne
        cases h
        refine ⟨rest.takeWhile isNameChar, rest.dropWhile isNameChar,
          List.takeWhile_append_dropWhile.symm, rfl, .join hne fun d hd => ?_⟩
        exact List.all_eq_true.1 List.all_takeWhile d hd
    case h_9 =>
      split at h
      · rename_i hnext
        cases h
        obtain ⟨back, rfl⟩ := List.head?_eq_some_iff.1 hnext
        exact ⟨['>'], back, rfl, rfl, .sign rfl⟩
      · cases h
    case h_10 =>
      split at h
      · rename_i hnext
        cases h
        obtain ⟨back, rfl⟩ := List.head?_eq_some_iff.1 hnext
        exact ⟨['>'], back, rfl, rfl, .sign rfl⟩
      · cases h
    case h_11 =>
      split at h
      · rename_i hnext
        cases h
        obtain ⟨back, rfl⟩ := List.head?_eq_some_iff.1 hnext
        refine ⟨'/' :: back.takeWhile (· ≠ '\n'), back.dropWhile (· ≠ '\n'), ?_, rfl,
          .comment fun d hd => ?_⟩
        · rw [List.cons_append, List.takeWhile_append_dropWhile]
        · exact of_decide_eq_true (List.all_eq_true.1 List.all_takeWhile d hd)
      · cases h
    case h_12 =>
      split at h
      · rename_i hopens
        cases h
        obtain ⟨back, hback⟩ := wordTail_prefix rest
        exact ⟨wordTail rest, back, hback.symm, rfl, .word hopens (runsInside_wordTail hback.symm)⟩
      · cases h
    all_goals
      cases h
      exact ⟨[], rest, rfl, rfl, .sign rfl⟩

theorem length_le_takeWhile {p : Char → Bool} {front : List Char} (h : ∀ c ∈ front, p c = true)
    (back : List Char) : front.length ≤ ((front ++ back).takeWhile p).length := by
  rw [List.takeWhile_append_of_pos h, List.length_append]
  exact Nat.le_add_right _ _

/-- What can be cut off begins what is read, and if it is as long it is
the same piece. -/
theorem Cuttable.read? {piece : Piece} {front back : List Char} (h : Cuttable piece front back) :
    ∃ c tail piece' n, front = c :: tail ∧ Piece.read? c (tail ++ back) = some (piece', n)
      ∧ tail.length ≤ n ∧ (tail.length = n → piece = piece') := by
  cases h with
  | blanks hne hgaps =>
      cases front with
      | nil => exact absurd rfl hne
      | cons c tail =>
          rw [List.forall_mem_cons] at hgaps
          exact ⟨c, tail, .gap, _, rfl, read?_of_isGap hgaps.1 _, length_le_takeWhile hgaps.2 back,
            fun _ => rfl⟩
  | @comment line _ hline =>
      refine ⟨'/', '/' :: line, .gap, _, rfl, rfl, ?_, fun _ => rfl⟩
      refine length_le_takeWhile (fun d hd => ?_) back
      rcases List.mem_cons.1 hd with rfl | hd
      · rfl
      · exact decide_eq_true (hline d hd)
  -- A word and a join may go on behind what can be cut off, and if they do not they are
  -- the same.
  | @word c tail _ hopens htail =>
      refine ⟨c, tail, _, _, rfl, read?_of_opensWord hopens _, ?_, fun hlength => ?_⟩
      · rw [htail.wordTail_append, List.length_append]
        exact Nat.le_add_right _ _
      · rw [htail.wordTail_append] at hlength ⊢
        rw [List.length_append] at hlength
        rw [List.eq_nil_of_length_eq_zero (l := wordTail back) (by omega), List.append_nil]
  | @join name _ hne hname =>
      have hlonger := length_le_takeWhile hname back
      have htake : (name ++ back).takeWhile isNameChar = name ++ back.takeWhile isNameChar :=
        List.takeWhile_append_of_pos hname
      have hne' : (name ++ back).takeWhile isNameChar ≠ [] := by
        rw [htake]
        exact List.append_ne_nil_of_left_ne_nil hne _
      have hread : Piece.read? '$' (name ++ back)
          = some (.token (.join ((name ++ back).takeWhile isNameChar)),
            ((name ++ back).takeWhile isNameChar).length) := by
        have hgap : ¬ Text.isGap '$' = true := by decide
        unfold Piece.read?
        rw [if_neg hgap]
        simp only [if_neg hne']
      refine ⟨'$', name, _, _, rfl, hread, hlonger, fun hlength => ?_⟩
      rw [htake, List.length_append] at hlength
      rw [htake, List.eq_nil_of_length_eq_zero (l := back.takeWhile isNameChar) (by omega),
        List.append_nil]
  | @sign t _ _ hsign =>
      cases t <;> cases hsign
      all_goals exact ⟨_, _, _, _, rfl, rfl, Nat.le_refl _, fun _ => rfl⟩

/-- The longest piece is the one that is read. -/
theorem longest_iff_read? {piece : Piece} {c : Char} {tail back : List Char} :
    Longest piece (c :: tail) back
      ↔ Piece.read? c (tail ++ back) = some (piece, tail.length) := by
  constructor
  · intro h
    obtain ⟨c', tail', piece', n, heq, hread, hle, hsame⟩ := h.cuttable.read?
    cases heq
    obtain ⟨tail', back', hrest, rfl, hcuttable⟩ := cuttable_of_read? hread
    have hlonger := h.longest piece' (c :: tail') back' (by rw [List.cons_append, ← hrest]; rfl)
      hcuttable
    rw [List.length_cons, List.length_cons] at hlonger
    have hlength : tail.length = tail'.length := by omega
    rw [hread, hsame hlength, hlength]
  · intro h
    obtain ⟨tail', back', hrest, hlength, hcuttable⟩ := cuttable_of_read? h
    obtain ⟨rfl, rfl⟩ := List.append_inj hrest hlength.symm
    refine ⟨hcuttable, fun piece' front' back' heq hcuttable' => ?_⟩
    obtain ⟨c', tail', piece'', n, rfl, hread', hle, -⟩ := hcuttable'.read?
    rw [List.cons_append, List.cons_append] at heq
    injection heq with hhead htail
    rw [hhead, htail, h] at hread'
    cases hread'
    rw [List.length_cons, List.length_cons]
    omega

end Piece

-- ============================================================== cutting

/-- A source that is cut is scanned to its end, and the tokens are those
of the cut. -/
theorem Cuts.scan {here : Place} {source : List Char} {ls : List Lexeme}
    (h : Cuts here source ls) : Scan.go here 0 source = ⟨ls, none⟩ := by
  induction h with
  | nil => rfl
  | @gap here front back ls hpiece _ ih =>
      obtain ⟨c, tail, -, -, rfl, -, -, -⟩ := hpiece.cuttable.read?
      rw [List.cons_append, Scan.go, Piece.longest_iff_read?.1 hpiece]
      show Scan.go (here.next c) tail.length (tail ++ back) = _
      rw [Scan.go_length]
      exact ih
  | @token here t front back ls hpiece _ ih =>
      obtain ⟨c, tail, -, -, rfl, -, -, -⟩ := hpiece.cuttable.read?
      rw [List.cons_append, Scan.go_token (Piece.longest_iff_read?.1 hpiece), Scan.go_length]
      rw [List.foldl_cons] at ih
      rw [ih]
      rfl

/-- What the scan of a source finds from the place on, piece by piece. -/
inductive Scanned : Place → List Char → Scan → Prop where
  | done {here : Place} : Scanned here [] ⟨[], none⟩
  | stuck {here : Place} {c : Char} {rest : List Char} (hread : Piece.read? c rest = none) :
      Scanned here (c :: rest) ⟨[], some here⟩
  | gap {here : Place} {front back : List Char} {scan : Scan}
      (hpiece : Piece.Longest .gap front back)
      (hrest : Scanned (front.foldl Place.next here) back scan) : Scanned here (front ++ back) scan
  | token {here : Place} {t : Token} {front back : List Char} {scan : Scan}
      (hpiece : Piece.Longest (.token t) front back)
      (hrest : Scanned (front.foldl Place.next here) back scan) :
      Scanned here (front ++ back) (scan.after [⟨t, here⟩])

theorem scanned_go (here : Place) (source : List Char) :
    Scanned here source (Scan.go here 0 source) := by
  -- a piece and then the rest, which is shorter
  induction hn : source.length using Nat.strongRecOn generalizing here source with
  | _ n ih =>
      cases source with
      | nil => exact .done
      | cons c rest =>
          cases hread : Piece.read? c rest with
          | none =>
              rw [Scan.go, hread]
              exact .stuck hread
          | some found =>
              obtain ⟨piece, k⟩ := found
              obtain ⟨tail, back, rfl, rfl, -⟩ := Piece.cuttable_of_read? hread
              have hpiece := Piece.longest_iff_read?.2 hread
              have hshorter : back.length < n := by
                rw [← hn, List.length_cons, List.length_append]
                omega
              have hrest := ih back.length hshorter (tail.foldl Place.next (here.next c)) back rfl
              cases piece with
              | gap =>
                  rw [Scan.go, hread]
                  show Scanned here (c :: tail ++ back)
                    (Scan.go (here.next c) tail.length (tail ++ back))
                  rw [Scan.go_length]
                  exact .gap hpiece hrest
              | token t =>
                  rw [Scan.go_token hread, Scan.go_length]
                  exact .token hpiece hrest

/-- A source that is scanned to its end is cut into the tokens found. -/
theorem cuts_of_scan {here : Place} {source : List Char} {ls : List Lexeme}
    (h : Scan.go here 0 source = ⟨ls, none⟩) : Cuts here source ls := by
  have hscanned := scanned_go here source
  rw [h] at hscanned
  clear h
  generalize hscan : Scan.mk ls none = scan at hscanned
  induction hscanned generalizing ls with
  | done =>
      cases hscan
      exact .nil
  | stuck hread => cases hscan
  | gap hpiece _ ih => exact .gap hpiece (ih hscan)
  | @token here t front back scan hpiece _ ih =>
      obtain ⟨lexemes, stuck⟩ := scan
      cases hscan
      exact .token hpiece (ih rfl)

/-- The scan of a source to its end and the cuts of the source are the
same. -/
theorem cuts_iff {source : List Char} {ls : List Lexeme} :
    Cuts Place.start source ls ↔ Scan.ofSource source = ⟨ls, none⟩ :=
  ⟨Cuts.scan, cuts_of_scan⟩

end RecipeChart
