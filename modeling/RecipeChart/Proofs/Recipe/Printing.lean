/-
The tokens of a printed recipe. Beside each printed form stands the list
of its tokens, and the scan of the printed form is that list, up to the
blanks that words take along. A part of a recipe is mostly printed next
to something that decides where its last word ends, so what is said of a
part holds where such a thing follows (`IsScanned`), and the separators
of the printed form are such things.
-/
import RecipeChart.Proofs.Recipe.Printable
import RecipeChart.Recipe.Listing

namespace RecipeChart

-- =========================================================== the tokens

def Ingredient.tokens (i : Ingredient String) : List Token :=
  match i.amount with
  | none => [.word i.name.toList]
  | some amount => [.openBracket, .word amount.toList, .closeBracket, .word i.name.toList]

/-- The tokens of ingredients side by side. -/
def ingredientsTokens : List (Ingredient String) → List Token
  | [] => []
  | i :: items => i.tokens ++ items.flatMap (.plus :: ·.tokens)

def Action.tokens (a : Action String) : List Token :=
  match a.seasonings with
  | [] => [.word a.description.toList]
  | items => .word a.description.toList :: .ampersand :: ingredientsTokens items

def Start.tokens : Start String → List Token
  | .group g => ingredientsTokens g.ingredients
  | .join r => [.join r.name.toList]

def Element.tokens : Element String → List Token
  | .step s => s.action.tokens
  | .join r => [.join r.name.toList]

def Finish.tokens : Finish String → List Token
  | .join r => [.join r.name.toList]
  | .done _ => [.done]

/-- The tokens of the rule that writes the fragment, a semicolon last. -/
def Fragment.tokens (f : Fragment String) : List Token :=
  f.start.tokens ++ (f.body.flatMap (.arrow :: ·.tokens)
    ++ (f.finish.toList.flatMap (.arrow :: ·.tokens) ++ [.semicolon]))

def Recipe.tokens (r : Recipe String) : List Token :=
  .word r.name.toList :: .openBrace :: (r.fragments.flatMap Fragment.tokens ++ [.closeBrace])

-- =========================================================== separators

/-- Whatever follows, do these characters close a word before them? -/
def stopsWord : List Char → Bool
  | [] => false
  | ' ' :: c :: rest => endsWord c || breaksWord c rest
  | c :: _ => endsWord c && c ≠ '>'

/-- What ends a word goes on with no name, and begins no comment. -/
theorem isNameChar_of_endsWord {c : Char} (h : endsWord c = true) :
    isNameChar c = false ∧ c ≠ '/' := by
  simp only [endsWord, List.contains_eq_mem, List.mem_cons, List.not_mem_nil, or_false,
    decide_eq_true_eq] at h
  rcases h with rfl | rfl | rfl | rfl | rfl | rfl | rfl | rfl | rfl | rfl | rfl <;> decide

/-- Characters that end a word do so whatever comes behind them. -/
theorem closes_of_stopsWord {sep : List Char} (h : stopsWord sep = true) (rest : List Char) :
    Closes (sep ++ rest) := by
  revert h
  fun_cases stopsWord sep with
  | case1 => exact fun h => (nomatch h)
  | case2 c tail =>
      intro h
      have hstop : (endsWord c || breaksWord c (tail ++ rest)) = true := by
        cases tail with
        | nil =>
            rw [breaksWord_nil, Bool.or_false] at h
            rw [h, Bool.true_or]
        | cons d tail => exact h
      refine ⟨?_, fun d hd => ?_⟩
      · have hgo : (endsWord ' ' || breaksWord ' ' (c :: (tail ++ rest))) = false := rfl
        rw [List.cons_append, List.cons_append, wordTail, hgo, wordTail, hstop]
        rfl
      · cases hd
        decide
  | case3 c tail hspace =>
      intro h
      rw [Bool.and_eq_true, decide_eq_true_eq] at h
      refine ⟨?_, fun d hd => ?_⟩
      · rw [List.cons_append, wordTail, h.1]
        rfl
      · cases hd
        obtain ⟨hname, hslash⟩ := isNameChar_of_endsWord h.1
        exact ⟨hname, h.2, hslash⟩

/-- The text stands between two parts of a printed recipe: it closes what
stands before it, and is scanned as these tokens whatever follows. -/
structure Separates (sep : List Char) (ts : List Token) : Prop where
  closes : ∀ rest, Closes (sep ++ rest)
  scans : ∀ rest, Scans sep ts rest

/-- A token without spelling, a space on either side of it. -/
theorem separates_spaced {c : Char} {tail : List Char} {t : Token}
    (hstops : stopsWord (' ' :: c :: (tail ++ [' '])) = true)
    (hread : ∀ rest, Piece.read? c (tail ++ rest) = some (.token t, tail.length)) :
    Separates (' ' :: c :: (tail ++ [' '])) [t.trimmed] := by
  refine ⟨fun rest => closes_of_stopsWord hstops rest, fun rest => ?_⟩
  exact (Scans.gap rfl _).append (Scans.append (Scans.token (hread _)) (Scans.gap rfl rest))

theorem separates_plus : Separates " + ".toList [.plus] :=
  @separates_spaced '+' [] .plus rfl fun _ => rfl

theorem separates_ampersand : Separates " & ".toList [.ampersand] :=
  @separates_spaced '&' [] .ampersand rfl fun _ => rfl

/-- An arrow between blanks separates, like the other signs. -/
theorem separates_arrow : Separates " -> ".toList [.arrow] :=
  @separates_spaced '-' ['>'] .arrow rfl fun _ => rfl

/-- A token of one character. -/
theorem Scans.single {c : Char} {t : Token}
    (hread : ∀ rest, Piece.read? c rest = some (.token t, 0)) (rest : List Char) :
    Scans [c] [t.trimmed] rest :=
  @Scans.token rest c [] t (hread rest)

theorem separates_closeBracket : Separates "] ".toList [.closeBracket] where
  closes := closes_of_stopsWord rfl
  scans rest := (@Scans.single ']' .closeBracket (fun _ => rfl) _).append (Scans.gap rfl rest)

theorem separates_openBrace : Separates " \x7b".toList [.openBrace] where
  closes := closes_of_stopsWord rfl
  scans rest := (Scans.gap rfl _).append (@Scans.single '{' .openBrace (fun _ => rfl) rest)

theorem separates_semicolon : Separates ";".toList [.semicolon] where
  closes := closes_of_stopsWord rfl
  scans := @Scans.single ';' .semicolon fun _ => rfl

theorem separates_indent : Separates "\n  ".toList [] where
  closes := closes_of_stopsWord rfl
  scans rest := (Scans.gap rfl _).append ((Scans.gap rfl _).append (Scans.gap rfl rest))

theorem separates_closeBrace : Separates "\n\x7d".toList [.closeBrace] where
  closes := closes_of_stopsWord rfl
  scans rest := (Scans.gap rfl _).append (@Scans.single '}' .closeBrace (fun _ => rfl) rest)

-- ======================================================== printed parts

/-- The text is scanned as these tokens where what follows closes its
last word. -/
def IsScanned (text : List Char) (ts : List Token) : Prop :=
  ∀ rest, Closes rest → Scans text ts rest

namespace IsScanned

variable {text text' sep : List Char} {ts ts' tsep : List Token}

/-- A plain text is scanned as one word. -/
theorem word {text : String} (h : isPlain text.toList = true) :
    IsScanned text.toList [.word text.toList] :=
  fun _ => Scans.word h

/-- A join is scanned as one sign that holds its name. -/
theorem join {name : String} (h : isJoinName name.toList = true) :
    IsScanned (joinText name).toList [.join name.toList] := by
  intro rest hrest
  rw [joinText, String.toList_append]
  exact Scans.join h hrest

/-- Behind a separator nothing more is asked of the separator. -/
theorem between (h : IsScanned text ts) (hsep : Separates sep tsep) (h' : IsScanned text' ts') :
    IsScanned (text ++ (sep ++ text')) (ts ++ (tsep ++ ts')) := by
  intro rest hrest
  refine Scans.append (h _ ?_) ((hsep.scans _).append (h' rest hrest))
  rw [List.append_assoc]
  exact hsep.closes _

/-- What ends in a separator asks nothing of what follows. -/
theorem before (h : IsScanned text ts) (hsep : Separates sep tsep) (rest : List Char) :
    Scans (text ++ sep) (ts ++ tsep) rest :=
  Scans.append (h _ (hsep.closes rest)) (hsep.scans rest)

/-- Items behind separators are scanned one after another. -/
theorem list {β : Type} {printed : β → List Char} {tokens : β → List Token}
    (hsep : Separates sep tsep) (h : IsScanned text ts) {items : List β}
    (hitems : ∀ i ∈ items, IsScanned (printed i) (tokens i)) :
    IsScanned (text ++ items.flatMap (sep ++ printed ·))
      (ts ++ items.flatMap (tsep ++ tokens ·)) := by
  induction items generalizing text ts with
  | nil =>
      rw [List.flatMap_nil, List.flatMap_nil, List.append_nil, List.append_nil]
      exact h
  | cons i items ih =>
      rw [List.forall_mem_cons] at hitems
      have hfirst := h.between hsep hitems.1
      have hlist := ih hfirst hitems.2
      simp only [List.flatMap_cons, List.append_assoc] at hlist ⊢
      exact hlist

end IsScanned

/-- A printed ingredient is scanned as its tokens, the amount before the
name. -/
theorem Ingredient.isScanned {i : Ingredient String} (h : i.Printable) :
    IsScanned i.text.toList i.tokens := by
  obtain ⟨name, amount⟩ := i
  cases amount with
  | none => exact IsScanned.word h.name
  | some amount =>
      have hamount := (IsScanned.word (h.amount amount rfl)).between separates_closeBracket
        (IsScanned.word h.name)
      intro rest hrest
      rw [Ingredient.text, String.toList_append, String.toList_append, String.toList_append,
        List.append_assoc, List.append_assoc]
      exact (@Scans.single '[' .openBracket (fun _ => rfl) _).append (hamount rest hrest)

/-- Ingredients, at least one, are printed behind one another. -/
theorem toList_ingredientsText (i : Ingredient String) (items : List (Ingredient String)) :
    (ingredientsText (i :: items)).toList
      = i.text.toList ++ items.flatMap (" + ".toList ++ ·.text.toList) := by
  rw [ingredientsText, String.toList_intercalate, List.map_cons, List.map_cons, intercalate_cons,
    List.map_map, List.flatMap_map]
  rfl

/-- Printed ingredients are scanned one by one, with a plus between them. -/
theorem isScanned_ingredientsText {items : List (Ingredient String)} (hne : items ≠ [])
    (h : IngredientsPrintable items) :
    IsScanned (ingredientsText items).toList (ingredientsTokens items) := by
  cases items with
  | nil => exact absurd rfl hne
  | cons i items =>
      have heach := List.forall_mem_cons.1 h.each
      rw [toList_ingredientsText, ingredientsTokens]
      exact IsScanned.list separates_plus (Ingredient.isScanned heach.1)
        fun j hj => Ingredient.isScanned (heach.2 j hj)

/-- A printed action is scanned as its tokens, the seasonings behind an
ampersand. -/
theorem Action.isScanned {a : Action String} (h : a.Printable) :
    IsScanned a.text.toList a.tokens := by
  obtain ⟨description, seasonings⟩ := a
  cases seasonings with
  | nil => exact IsScanned.word h.description
  | cons i items =>
      have hlist := isScanned_ingredientsText (List.cons_ne_nil i items) h.seasonings
      rw [Action.text, String.toList_append, String.toList_append, List.append_assoc]
      exact (IsScanned.word h.description).between separates_ampersand hlist

/-- A printed start is scanned as its tokens. -/
theorem Start.isScanned {s : Start String} (h : s.Printable) :
    IsScanned s.text.toList s.tokens := by
  cases s with
  | group g => exact isScanned_ingredientsText h.nonempty h.ingredients
  | join r => exact IsScanned.join h

/-- So is a printed element of a body. -/
theorem Element.isScanned {e : Element String} (h : e.Printable) :
    IsScanned e.text.toList e.tokens := by
  cases e with
  | step s => exact Action.isScanned h
  | join r => exact IsScanned.join h

/-- So is a printed end. -/
theorem Finish.isScanned {e : Finish String} (h : e.Printable) :
    IsScanned e.text.toList e.tokens := by
  cases e with
  | join r => exact IsScanned.join h
  | done span =>
      intro rest _
      have hdone : Scans "<>".toList [.done] rest := @Scans.token rest '<' ['>'] .done rfl
      exact hdone

/-- A printed rule is scanned as its tokens whatever follows. -/
theorem Fragment.scans {f : Fragment String} (h : f.Printable) (rest : List Char) :
    Scans f.text.toList f.tokens rest := by
  have hbody : ∀ e ∈ f.body, IsScanned e.text.toList e.tokens :=
    fun e he => Element.isScanned (h.body e he)
  have hfinish : ∀ e ∈ f.finish.toList, IsScanned e.text.toList e.tokens :=
    fun e he => Finish.isScanned (h.finish e (Option.mem_toList.1 he))
  have hrule := (Start.isScanned h.start).list separates_arrow hbody
  have hall := (hrule.list separates_arrow hfinish).before separates_semicolon rest
  have htext : f.text.toList = f.start.text.toList
      ++ f.body.flatMap (" -> ".toList ++ ·.text.toList)
      ++ f.finish.toList.flatMap (" -> ".toList ++ ·.text.toList) ++ ";".toList := by
    rw [Fragment.text, ruleText, String.toList_append, String.toList_intercalate, List.cons_append,
      List.map_cons, intercalate_cons, List.map_append, List.map_map, List.map_map,
      List.flatMap_append, List.flatMap_map, List.flatMap_map, ← List.append_assoc]
    rfl
  rw [htext, Fragment.tokens]
  simp only [List.append_assoc] at hall ⊢
  exact hall

/-- Printed rules are scanned one after another, each on a line of its
own. -/
theorem scans_fragments {fragments : List (Fragment String)}
    (h : ∀ f ∈ fragments, f.Printable) (rest : List Char) :
    Scans (fragments.flatMap ("\n  ".toList ++ ·.text.toList)) (fragments.flatMap Fragment.tokens)
      rest := by
  induction fragments generalizing rest with
  | nil => exact Scans.nil rest
  | cons f fragments ih =>
      rw [List.forall_mem_cons] at h
      exact ((separates_indent.scans _).append (Fragment.scans h.1 _)).append (ih h.2 rest)

/-- A printed recipe is scanned to its end, as its tokens. -/
theorem Recipe.scan_text {r : Recipe String} (h : r.Printable) :
    ∃ ls : List Lexeme, Scan.ofSource r.text.toList = ⟨ls, none⟩
      ∧ ls.map (·.token.trimmed) = r.tokens := by
  have hname := (IsScanned.word h.name).before separates_openBrace
    (r.fragments.flatMap ("\n  ".toList ++ ·.text.toList) ++ "\n\x7d".toList ++ [])
  have hrules := (scans_fragments h.fragments _).append (separates_closeBrace.scans [])
  have hindent : ∀ f : Fragment String,
      "\n".toList ++ ("  " ++ f.text).toList = "\n  ".toList ++ f.text.toList := by
    intro f
    rw [String.toList_append]
    rfl
  have htext : r.text.toList = r.name.toList ++ " \x7b".toList
      ++ (r.fragments.flatMap ("\n  ".toList ++ ·.text.toList) ++ "\n\x7d".toList) := by
    rw [Recipe.text, recipeText, String.toList_intercalate, List.singleton_append, List.cons_append,
      List.map_cons, intercalate_cons, String.toList_append, List.map_append, List.map_map,
      List.map_map, List.flatMap_append, List.flatMap_map]
    simp only [Function.comp_def, hindent]
    rfl
  obtain ⟨ls, hls, hgo⟩ := Scans.append hname hrules Place.start
  rw [← htext, List.append_nil, Scan.go] at hgo
  exact ⟨ls, by rw [Scan.ofSource, hgo, Scan.after, List.append_nil], hls⟩

end RecipeChart
