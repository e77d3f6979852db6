/-
Where the parts of a recipe stand in its source. A part that carries a span
begins with a token of its own: a join or `<>` with itself, a step with the
word behind its arrow, a group with the first word of its rule. So these
tokens can be told without reading the recipe (`openers`), and the parts
of the recipe, rule by rule from the start to the finish, go with them one
by one. That is carried through the derivation of the recipe, each part of
which contributes the same openers whatever tokens follow.

A token stands where the cutting of the source has come to, so the text
there begins with it, and the places of later tokens are later.
-/
import RecipeChart.Proofs.Recipe.Acceptance
import RecipeChart.Proofs.Recipe.Halting

namespace RecipeChart

-- ================================================================ order

/-- The span is on an earlier line, or on the same line in an earlier
column. -/
def Span.Before (s t : Span) : Prop := s.line < t.line ∨ s.line = t.line ∧ s.column < t.column

theorem Span.Before.trans {s t u : Span} (h : s.Before t) (h' : t.Before u) : s.Before u := by
  unfold Span.Before at *
  omega

/-- A place that is before another is another one. -/
theorem Span.Before.ne {s t : Span} (h : s.Before t) : s ≠ t := by
  rintro rfl
  unfold Span.Before at h
  omega

/-- Every character leads on to a later place. -/
theorem Place.before_next (p : Place) (c : Char) : p.span.Before (p.next c).span := by
  unfold Span.Before next span
  split
  · left
    show (p.line : Int) < ((p.line + 1 : Nat) : Int)
    omega
  · right
    show (p.line : Int) = p.line ∧ (p.column : Int) < ((p.column + 1 : Nat) : Int)
    omega

/-- Whoever reads on comes to a later place. -/
theorem Place.before_foldl (p : Place) {read : List Char} (hne : read ≠ []) :
    p.span.Before (read.foldl next p).span := by
  induction read generalizing p with
  | nil => exact absurd rfl hne
  | cons c read ih =>
      rw [List.foldl_cons]
      cases read with
      | nil => exact p.before_next c
      | cons d read => exact (p.before_next c).trans (ih _ (List.cons_ne_nil d read))

/-- No piece is empty. -/
theorem Piece.Cuttable.ne_nil {piece : Piece} {front back : List Char}
    (h : Cuttable piece front back) : front ≠ [] := by
  obtain ⟨c, tail, -, -, rfl, -⟩ := h.read?
  exact List.cons_ne_nil c tail

/-- The tokens that a source is cut into stand one behind another. -/
theorem Cuts.pairwise_before {p : Place} {source : List Char} {ls : List Lexeme}
    (h : Cuts p source ls) : ls.Pairwise fun l l' => l.place.span.Before l'.place.span := by
  induction h with
  | nil => exact .nil
  | gap _ _ ih => exact ih
  | @token p t front back ls hpiece hrest ih =>
      refine List.pairwise_cons.2 ⟨fun l hl => ?_, ih⟩
      obtain ⟨before, rest, -, hplace⟩ := hrest.exists_before hl
      rw [hplace, ← List.foldl_append]
      exact p.before_foldl (List.append_ne_nil_of_left_ne_nil hpiece.cuttable.ne_nil before)

-- =============================================================== tokens

/-- The characters that a token stands for: a word is trimmed, and a join
has its mark. -/
def Token.text : Token → List Char
  | .word spelling => Text.trim spelling
  | .join name => '$' :: name
  | t => t.sign?.getD []

/-- A token that can be cut off is written as its text, up to blanks at the
end of a word. -/
theorem Piece.Cuttable.text_prefix {t : Token} {front back : List Char}
    (h : Cuttable (.token t) front back) : t.text <+: front := by
  cases h with
  | @word c tail _ hopens =>
      obtain ⟨blanks, hsplit, -⟩ := exists_blanks_of_trimEnd (c :: tail)
      rw [Token.text, trim_cons (isBlank_of_opensWord hopens)]
      exact ⟨blanks, hsplit.symm⟩
  | join => exact List.prefix_rfl
  | sign hsign =>
      cases t <;> cases hsign
      all_goals exact List.prefix_rfl

/-- Where a token stands the source goes on with its text, and its span is
that of the offset. -/
theorem Cuts.located {source : List Char} {ls : List Lexeme} (h : Cuts Place.start source ls)
    {l : Lexeme} (hl : l ∈ ls) :
    l.place.span = spanAt source l.place.offset ∧ l.token.text <+: source.drop l.place.offset := by
  obtain ⟨before, front, back, hsource, hplace, hlongest⟩ := h.exists_longest hl
  replace hplace : l.place = Place.after before := hplace
  rw [hplace]
  refine ⟨Place.span_after hsource, ?_⟩
  rw [Place.offset_after, hsource, List.drop_left]
  exact hlongest.cuttable.text_prefix.trans (List.prefix_append front back)

/-- The tokens that a part of a recipe begins with: every join, every `<>`,
and the first word behind a brace, a semicolon or an arrow. The flag tells
whether no word has come since one of these. -/
def openers : (fresh : Bool) → List Lexeme → List Lexeme
  | _, [] => []
  | fresh, l :: ls =>
    match l.token with
    | .join _ | .done => l :: openers false ls
    | .word _ => if fresh then l :: openers false ls else openers false ls
    | .openBracket => openers fresh ls
    | .openBrace | .semicolon | .arrow => openers true ls
    | _ => openers false ls

/-- The openers are some of the tokens, in their order. -/
theorem openers_sublist (fresh : Bool) (ls : List Lexeme) : (openers fresh ls).Sublist ls := by
  induction ls generalizing fresh with
  | nil => exact .slnil
  | cons l ls ih =>
      rw [openers]
      split
      · exact (ih false).cons_cons l
      · exact (ih false).cons_cons l
      · split
        · exact (ih false).cons_cons l
        · exact (ih false).cons l
      all_goals exact (ih _).cons l

-- ================================================================ marks

/-- A part of a recipe that carries a span. -/
inductive Mark (α : Type) where
  | group (group : Group α)
  | step (step : Step α)
  | join (ref : JoinRef α)
  | done (span : Option Span)

variable {α : Type}

def Mark.span : Mark α → Option Span
  | .group g => g.span
  | .step s => s.span
  | .join r => r.span
  | .done span => span

/-- The part, its texts renamed. -/
def Mark.traverse {m : Type → Type} [Monad m] {β : Type} (f : α → m β) : Mark α → m (Mark β)
  | .group g => .group <$> g.traverse f
  | .step s => .step <$> s.traverse f
  | .join r => .join <$> r.traverse f
  | .done span => return .done span

/-- The characters that the part begins with, a group with the amount or
the name of its first ingredient. -/
def Mark.front : Mark String → List Char
  | .group g => (g.ingredients.head?.map fun i => (i.amount.getD i.name).toList).getD []
  | .step s => s.action.description.toList
  | .join r => '$' :: r.name.toList
  | .done _ => ['<', '>']

def Start.mark : Start α → Mark α
  | .group g => .group g
  | .join r => .join r

def Element.mark : Element α → Mark α
  | .step s => .step s
  | .join r => .join r

def Finish.mark : Finish α → Mark α
  | .join r => .join r
  | .done span => .done span

def RuleAction.mark : RuleAction α → Mark α
  | .step s => .step s
  | .join r => .join r
  | .done span => .done (some span)

/-- The parts of a fragment: its start, its body, its finish. -/
def Fragment.marks (f : Fragment α) : List (Mark α) :=
  f.start.mark :: (f.body.map Element.mark ++ f.finish.toList.map Finish.mark)

/-- The parts of a recipe, rule by rule. -/
def Recipe.marks (r : Recipe α) : List (Mark α) := r.fragments.flatMap Fragment.marks

def Rule.marks (r : Rule α) : List (Mark α) := r.start.mark :: r.actions.map RuleAction.mark

/-- The parts of the fragment of a rule are those of the rule. -/
theorem RuleAction.Splits.marks {actions : List (RuleAction α)} {body : List (Element α)}
    {finish : Option (Finish α)} (h : Splits actions body finish) :
    actions.map RuleAction.mark = body.map Element.mark ++ finish.toList.map Finish.mark := by
  induction h with
  | nil => rfl
  | join r => rfl
  | done span => rfl
  | step s _ ih =>
      rw [List.map_cons, List.map_cons, ih]
      rfl
  | through r _ _ ih =>
      rw [List.map_cons, List.map_cons, ih]
      rfl

/-- Renaming goes part by part. -/
theorem Fragment.marks_traverse {ε β : Type} {f : α → Except ε β} {found : Fragment α}
    {texts : Fragment β} (h : found.traverse f = .ok texts) :
    List.Forall₂ (fun m m' => m.traverse f = .ok m') found.marks texts.marks := by
  obtain ⟨start, hstart, h⟩ := bind_eq_ok_iff.1 h
  obtain ⟨body, hbody, h⟩ := bind_eq_ok_iff.1 h
  obtain ⟨finish, hfinish, h⟩ := bind_eq_ok_iff.1 h
  cases h
  -- The start, the body and the finish, each by its kind.
  refine .cons ?_ (List.rel_append ?_ ?_)
  · revert hstart
    cases found.start with
    | group g =>
        intro hstart
        obtain ⟨g', hg, rfl⟩ := map_eq_ok_iff.1 hstart
        exact map_eq_ok_iff.2 ⟨g', hg, rfl⟩
    | join r =>
        intro hstart
        obtain ⟨r', hr, rfl⟩ := map_eq_ok_iff.1 hstart
        exact map_eq_ok_iff.2 ⟨r', hr, rfl⟩
  · rw [List.forall₂_map_left_iff, List.forall₂_map_right_iff]
    refine (mapM_eq_ok_iff.1 hbody).imp fun e e' he => ?_
    cases e with
    | step s =>
        obtain ⟨s', hs, rfl⟩ := map_eq_ok_iff.1 he
        exact map_eq_ok_iff.2 ⟨s', hs, rfl⟩
    | join r =>
        obtain ⟨r', hr, rfl⟩ := map_eq_ok_iff.1 he
        exact map_eq_ok_iff.2 ⟨r', hr, rfl⟩
  · revert hfinish
    cases found.finish with
    | none =>
        intro hfinish
        cases hfinish
        exact .nil
    | some e =>
        intro hfinish
        obtain ⟨e', he, rfl⟩ := map_eq_ok_iff.1 hfinish
        refine .cons ?_ .nil
        cases e with
        | join r =>
            obtain ⟨r', hr, rfl⟩ := map_eq_ok_iff.1 he
            exact map_eq_ok_iff.2 ⟨r', hr, rfl⟩
        | done span =>
            cases he
            rfl

/-- The parts of a recipe are renamed one by one. -/
theorem Recipe.marks_traverse {ε β : Type} {f : α → Except ε β} {found : Recipe α}
    {texts : Recipe β} (h : found.traverse f = .ok texts) :
    List.Forall₂ (fun m m' => m.traverse f = .ok m') found.marks texts.marks := by
  obtain ⟨name, -, h⟩ := bind_eq_ok_iff.1 h
  obtain ⟨fragments, hfragments, h⟩ := bind_eq_ok_iff.1 h
  cases h
  refine List.rel_flatMap (mapM_eq_ok_iff.1 hfragments) fun f f' hf => ?_
  exact Fragment.marks_traverse hf

/-- Renaming leaves a part where it is. -/
theorem Mark.span_traverse {ε β : Type} {f : α → Except ε β} {m : Mark α} {m' : Mark β}
    (h : m.traverse f = .ok m') : m'.span = m.span := by
  cases m with
  | group g =>
      obtain ⟨g', hg, rfl⟩ := map_eq_ok_iff.1 h
      obtain ⟨ingredients, -, hg⟩ := bind_eq_ok_iff.1 hg
      cases hg
      rfl
  | step s =>
      obtain ⟨s', hs, rfl⟩ := map_eq_ok_iff.1 h
      obtain ⟨action, -, hs⟩ := bind_eq_ok_iff.1 hs
      cases hs
      rfl
  | join r =>
      obtain ⟨r', hr, rfl⟩ := map_eq_ok_iff.1 h
      obtain ⟨name, -, hr⟩ := bind_eq_ok_iff.1 hr
      cases hr
      rfl
  | done span =>
      cases h
      rfl

-- =========================================================== derivation

/-- The part has the span of the token and begins as the token does. -/
structure Mark.OpenedBy (mark : Mark String) (l : Lexeme) : Prop where
  span : mark.span = some l.place.span
  front : mark.front = l.token.text

theorem toList_wordText (spelling : List Char) :
    (wordText spelling).toList = Text.trim spelling := String.toList_ofList

/-- The opener of an ingredient is its first word, if it has one at all. -/
theorem WritesIngredient.openers {ls : List Lexeme} {i : Ingredient String × Span}
    (h : WritesIngredient ls i) :
    (∃ l, l.place.span = i.2 ∧ l.token.text = (i.1.amount.getD i.1.name).toList
        ∧ ∀ rest, openers true (ls ++ rest) = l :: openers false rest)
      ∧ ∀ rest, RecipeChart.openers false (ls ++ rest) = RecipeChart.openers false rest := by
  cases h with
  | bare w p =>
      exact ⟨⟨⟨.word w, p⟩, rfl, (toList_wordText w).symm, fun rest => rfl⟩, fun rest => rfl⟩
  | measured a w before p behind q =>
      exact ⟨⟨⟨.word a, p⟩, rfl, (toList_wordText a).symm, fun rest => rfl⟩, fun rest => rfl⟩

/-- The opener of ingredients is that of the first one. -/
theorem WritesItems.openers {ls : List Lexeme} {items : Items} (h : WritesItems ls items) :
    (∃ l, (Mark.group items.group).OpenedBy l
        ∧ ∀ rest, openers true (ls ++ rest) = l :: openers false rest)
      ∧ ∀ rest, RecipeChart.openers false (ls ++ rest) = RecipeChart.openers false rest := by
  induction h with
  | @one ls i hi =>
      obtain ⟨⟨l, hspan, htext, hfresh⟩, hstale⟩ := hi.openers
      refine ⟨⟨l, ⟨?_, ?_⟩, hfresh⟩, hstale⟩
      · rw [hspan]
        rfl
      · rw [htext]
        rfl
  | @more ls ls' items i p hitems hi ih =>
      obtain ⟨⟨l, hopened, hfresh⟩, hstale⟩ := ih
      obtain ⟨-, hmore⟩ := hi.openers
      obtain ⟨first, items, rfl⟩ := List.exists_cons_of_ne_nil hitems.ne_nil
      refine ⟨⟨l, ⟨hopened.span, ?_⟩, fun rest => ?_⟩, fun rest => ?_⟩
      · have hfront := hopened.front
        simp only [Mark.front, Items.group, List.map_cons, unique_cons, List.cons_append]
          at hfront ⊢
        exact hfront
      · rw [List.append_assoc, hfresh, List.cons_append]
        exact congrArg (l :: ·) (hmore rest)
      · rw [List.append_assoc, hstale, List.cons_append]
        exact hmore rest

/-- A start has one opener. -/
theorem WritesStart.openers {ls : List Lexeme} {s : Start String} (h : WritesStart ls s) :
    ∃ l, s.mark.OpenedBy l
      ∧ ∀ rest, openers true (ls ++ rest) = l :: openers false rest := by
  cases h with
  | group hitems => exact hitems.openers.1
  | join name p =>
      refine ⟨⟨.join name, p⟩, ⟨rfl, ?_⟩, fun rest => rfl⟩
      exact congrArg ('$' :: ·) String.toList_ofList

/-- An action has one opener. -/
theorem WritesAction.openers {ls : List Lexeme} {a : RuleAction String} (h : WritesAction ls a) :
    ∃ l, a.mark.OpenedBy l
      ∧ ∀ rest, openers true (ls ++ rest) = l :: openers false rest := by
  cases h with
  | step w p => exact ⟨⟨.word w, p⟩, ⟨rfl, toList_wordText w⟩, fun rest => rfl⟩
  | seasoned w p q hitems =>
      refine ⟨⟨.word w, p⟩, ⟨rfl, toList_wordText w⟩, fun rest => ?_⟩
      exact congrArg (_ :: ·) (hitems.openers.2 rest)
  | join name p =>
      refine ⟨⟨.join name, p⟩, ⟨rfl, ?_⟩, fun rest => rfl⟩
      exact congrArg ('$' :: ·) String.toList_ofList
  | done p => exact ⟨⟨.done, p⟩, ⟨rfl, rfl⟩, fun rest => rfl⟩

/-- The openers of a rule are those of its parts. -/
theorem WritesRule.openers {ls : List Lexeme} {rule : Rule String} (h : WritesRule ls rule) :
    ∃ heads, List.Forall₂ Mark.OpenedBy rule.marks heads
      ∧ ∀ rest, openers true (ls ++ rest) = heads ++ openers false rest := by
  induction h with
  | start hstart =>
      obtain ⟨l, hopened, hfresh⟩ := hstart.openers
      exact ⟨[l], .cons hopened .nil, hfresh⟩
  | @action ls ls' rule a p _ ha ih =>
      obtain ⟨heads, hheads, hrule⟩ := ih
      obtain ⟨l, hopened, hfresh⟩ := ha.openers
      refine ⟨heads ++ [l], ?_, fun rest => ?_⟩
      · rw [Rule.marks, Rule.push, List.map_append, ← List.cons_append]
        exact List.rel_append hheads (.cons hopened .nil)
      · rw [List.append_assoc, hrule, List.append_assoc, List.cons_append]
        exact congrArg (heads ++ ·) (hfresh rest)

/-- The openers of rules are those of each rule in turn. -/
theorem WritesRules.openers {ls : List Lexeme} {recipe : RecipeSource} (h : WritesRules ls recipe) :
    ∃ heads, List.Forall₂ Mark.OpenedBy (recipe.rules.flatMap Rule.marks) heads
      ∧ ∀ rest, openers false (ls ++ rest) = heads ++ openers true rest := by
  induction h with
  | name w p q => exact ⟨[], .nil, fun rest => rfl⟩
  | @rule ls ls' recipe rule p _ hrule ih =>
      obtain ⟨heads, hheads, hrules⟩ := ih
      obtain ⟨more, hmore, hfresh⟩ := hrule.openers
      refine ⟨heads ++ more, ?_, fun rest => ?_⟩
      · rw [RecipeSource.push, List.flatMap_append, List.flatMap_singleton]
        exact List.rel_append hheads hmore
      · rw [List.append_assoc, hrules, List.append_assoc, hfresh, List.append_assoc]
        rfl

/-- The parts of a recipe go with the openers of its tokens. -/
theorem WritesRecipe.openers {ls : List Lexeme} {recipe : RecipeSource}
    (h : WritesRecipe ls recipe) :
    List.Forall₂ Mark.OpenedBy (recipe.rules.flatMap Rule.marks) (openers false ls) := by
  cases h with
  | close p hrules =>
      obtain ⟨heads, hheads, hall⟩ := hrules.openers
      rw [hall]
      exact (List.append_nil heads).symm ▸ hheads

-- ================================================================ spans

namespace Recipe

/-- What a source writes goes with the openers of its tokens. -/
theorem IsWritten.openers {texts : Recipe String} {source : List Char}
    (h : texts.IsWritten source) :
    Cuts Place.start source (Scan.ofSource source).lexemes
      ∧ List.Forall₂ Mark.OpenedBy texts.marks
        (openers false (Scan.ofSource source).lexemes) := by
  obtain ⟨ls, written, hderives, -, hfragments⟩ := h.derives
  have hmarks : texts.marks = written.rules.flatMap Rule.marks := by
    rw [Recipe.marks, List.flatMap_def, List.flatMap_def]
    refine congrArg List.flatten (map_eq_of_forall₂ hfragments.flip fun f rule hrule => ?_)
    rw [Fragment.marks, Rule.marks, hrule.1, hrule.2.marks]
  rw [hderives.read_eq.1, hmarks]
  exact ⟨hderives.cuts, hderives.writes.openers⟩

/-- Spans identify the source. The parts of a recipe that was read go, rule
by rule and from start to finish, with the openers of the source, one by
one: each has the line and the column of the offset at which its token
stands, and there the source goes on with the description of the step, with
the mark and the name of the join, with `<>`, or with the first text of the
group. In this order the spans increase, so no two parts share one. The
registry may hold anything that its index finds again. -/
theorem spans_exact {source : List Char} {r r' : Registry} {recipe : Recipe Handle}
    (hr : r.Honest) (h : Recipe.read source r = (.ok recipe, r')) :
    List.Forall₂ (fun mark l => ∃ texts, mark.traverse r'.resolve = .ok texts
        ∧ mark.span = some (spanAt source l.place.offset)
        ∧ texts.front = l.token.text ∧ texts.front <+: source.drop l.place.offset)
      recipe.marks (openers false (Scan.ofSource source).lexemes)
    ∧ (∃ spans : List Span,
        recipe.marks.map Mark.span = spans.map some ∧ spans.Pairwise Span.Before)
    ∧ (recipe.marks.map Mark.span).Nodup := by
  obtain ⟨texts, hwritten, hresolve⟩ := exists_of_read hr h
  obtain ⟨hcuts, hopened⟩ := hwritten.openers
  have hsublist := openers_sublist false (Scan.ofSource source).lexemes
  have hmarks := forall₂_comp (marks_traverse hresolve) hopened
  have hspans : recipe.marks.map Mark.span
      = ((openers false (Scan.ofSource source).lexemes).map (·.place.span)).map some := by
    rw [List.map_map]
    refine map_eq_of_forall₂ hmarks fun mark l hmark => ?_
    obtain ⟨found, hfound, hopener⟩ := hmark
    rw [← Mark.span_traverse hfound]
    exact hopener.span
  have hpairwise : ((openers false (Scan.ofSource source).lexemes).map (·.place.span)).Pairwise
      Span.Before := List.pairwise_map.2 (hcuts.pairwise_before.sublist hsublist)
  refine ⟨?_, ⟨_, hspans, hpairwise⟩, ?_⟩
  · refine (forall₂_mem_left hmarks.flip).flip.imp fun mark l hmark => ?_
    obtain ⟨hl, found, hfound, hopener⟩ := hmark
    obtain ⟨hspan, htext⟩ := hcuts.located (hsublist.subset hl)
    refine ⟨found, hfound, ?_, hopener.front, ?_⟩
    · rw [← Mark.span_traverse hfound, hopener.span, hspan]
    · rw [hopener.front]
      exact htext
  · rw [hspans]
    exact (hpairwise.imp Span.Before.ne).map some fun s t hne heq => hne (Option.some_inj.1 heq)

/-- The parts of the eggs: what they start from, a step, a join, and behind
the semicolon the join again and one more step, all in the second line. -/
theorem spans_exact_eggs :
    Recipe.read eggsSource .empty = (.ok eggs, eggsRegistry)
      ∧ eggs.marks.map Mark.span
        = ([⟨2, 3⟩, ⟨2, 12⟩, ⟨2, 20⟩, ⟨2, 23⟩, ⟨2, 27⟩] : List Span).map some
      ∧ ([⟨2, 3⟩, ⟨2, 12⟩, ⟨2, 20⟩, ⟨2, 23⟩, ⟨2, 27⟩] : List Span).Pairwise Span.Before := by
  obtain ⟨-, ⟨spans, hspans, hpairwise⟩, -⟩ := spans_exact Registry.honest_empty read_eggs
  have hthere : eggs.marks.map Mark.span
      = ([⟨2, 3⟩, ⟨2, 12⟩, ⟨2, 20⟩, ⟨2, 23⟩, ⟨2, 27⟩] : List Span).map some := rfl
  have hsame := (List.map_inj_right fun _ _ => Option.some_inj.1).1 (hspans.symm.trans hthere)
  exact ⟨read_eggs, hthere, hsame ▸ hpairwise⟩

end Recipe

end RecipeChart
