/-
What the listing of a tree tells of it: its shape and the order of its
paths, the numbers of every node, whether a node has actions and
ingredients, and how these read side by side. More is not told, for the
name of one ingredient may read as the names of two.

Behind the blanks that a line begins with there is a character that says
what the line is about, whatever text follows. It is a hyphen for the first
line of a path, and for no other. So the lines of a node itself end before
the next hyphen; and since the blanks before a hyphen are those of the node
that the path belongs to, the paths of a node end before the next hyphen
that has fewer blanks. The induction goes over a tree and carries along the
lines behind it. All that must be known of them is that they go on with
such a hyphen (`GoesOn`), and they are told as well.

That lines are told from the text needs that no text on them has a line
break. These texts are all from a registry.
-/
import Mathlib.Data.List.Basic
import Mathlib.Tactic.MkIffOfInductiveProp
import RecipeChart.Proofs.Registry.Growth
import RecipeChart.Proofs.StepTree.Fitting
import RecipeChart.StepTree.Listing

namespace RecipeChart

-- ================================================================ lines

namespace Text

/-- How many blanks the line begins with. -/
def margin (line : String) : Nat := (line.toList.takeWhile (· = ' ')).length

/-- The character behind the blanks that the line begins with. -/
def initial (line : String) : Option Char := (line.toList.dropWhile (· = ' ')).head?

/-- Is the text made of blanks alone? -/
def IsMargin (indent : String) : Prop := ∀ c ∈ indent.toList, c = ' '

theorem isMargin_empty : IsMargin "" := fun _ hc => absurd hc List.not_mem_nil

theorem isMargin_two : IsMargin "  " := fun _ hc => List.eq_of_mem_replicate (n := 2) hc

/-- Blanks and more blanks are blanks. -/
theorem IsMargin.append {indent more : String} (h : IsMargin indent) (hmore : IsMargin more) :
    IsMargin (indent ++ more) := by
  unfold IsMargin
  rw [String.toList_append]
  exact List.forall_mem_append.2 ⟨h, hmore⟩

/-- A line that is indented begins with as many blanks more. -/
theorem margin_append {indent : String} (h : IsMargin indent) (s : String) :
    margin (indent ++ s) = indent.length + margin s := by
  unfold margin
  rw [String.toList_append, List.takeWhile_append_of_pos fun c hc => decide_eq_true (h c hc),
    List.length_append, String.length_toList]

/-- A line that is indented has the same character behind its blanks. -/
theorem initial_append {indent : String} (h : IsMargin indent) (s : String) :
    initial (indent ++ s) = initial s := by
  unfold initial
  rw [String.toList_append, List.dropWhile_append_of_pos fun c hc => decide_eq_true (h c hc)]

/-- Of a label with a text, the label says what the line is about. -/
theorem initial_label {label : String} {c : Char} (h : initial label = some c) (s : String) :
    initial (label ++ s) = some c := by
  unfold initial at h ⊢
  rw [String.toList_append, List.dropWhile_append]
  split
  · next hnil =>
      rw [List.isEmpty_iff.1 hnil] at h
      cases h
  · rw [List.head?_append, h, Option.some_or]

/-- A number is told by its digits. -/
theorem natRepr_inj {m n : Nat} : m.repr = n.repr ↔ m = n := by
  refine ⟨fun h => ?_, congrArg Nat.repr⟩
  rw [Nat.repr_eq_ofList_toDigits, Nat.repr_eq_ofList_toDigits, String.ofList_inj] at h
  rw [← Nat.ofDigitChars_ten_toDigits (n := m), h, Nat.ofDigitChars_ten_toDigits]

/-- A sign is no digit, so no number without one reads like one with it. -/
theorem natRepr_ne_sign (m n : Nat) : m.repr ≠ "-" ++ n.repr := by
  intro h
  have hmem : '-' ∈ m.repr.toList := by
    rw [h, String.toList_append]
    exact List.mem_cons_self
  rw [Nat.repr_eq_ofList_toDigits, String.toList_ofList] at hmem
  exact absurd (Nat.isDigit_of_mem_toDigits (by decide) (by decide) hmem) (by decide)

/-- An integer is told by the way it is written. -/
theorem toString_inj {m n : Int} : toString m = toString n ↔ m = n := by
  refine ⟨fun h => ?_, congrArg toString⟩
  rw [Int.toString_eq_repr, Int.toString_eq_repr, Int.repr_eq_if, Int.repr_eq_if] at h
  split at h <;> split at h
  · rw [natRepr_inj] at h
    omega
  · exact absurd h (natRepr_ne_sign _ _)
  · exact absurd h.symm (natRepr_ne_sign _ _)
  · rw [String.append_right_inj, natRepr_inj] at h
    omega

/-- Is there no line break in the text? -/
def OneLine (s : String) : Prop := '\n' ∉ s.toList

instance : DecidablePred OneLine := fun s => inferInstanceAs (Decidable ('\n' ∉ s.toList))

/-- No line break comes of two texts that have none. -/
theorem OneLine.append {s s' : String} (h : OneLine s) (h' : OneLine s') : OneLine (s ++ s') := by
  unfold OneLine
  rw [String.toList_append, List.mem_append]
  exact not_or.2 ⟨h, h'⟩

/-- Nor does one come of texts side by side. -/
theorem OneLine.intercalate {separator : String} {texts : List String}
    (hseparator : OneLine separator) (h : ∀ s ∈ texts, OneLine s) :
    OneLine (separator.intercalate texts) := by
  cases texts with
  | nil => exact List.not_mem_nil
  | cons s texts =>
      rw [List.forall_mem_cons] at h
      unfold OneLine
      rw [String.toList_intercalate, List.map_cons, intercalate_cons, List.mem_append,
        List.mem_flatMap]
      rintro (hs | ⟨cs, hcs, hs⟩)
      · exact h.1 hs
      · obtain ⟨s', hs', rfl⟩ := List.mem_map.1 hcs
        exact (List.mem_append.1 hs).elim hseparator (h.2 s' hs')

/-- A number is written without a line break. -/
theorem oneLine_toString (n : Int) : OneLine (toString n) := by
  have hdigits (m : Nat) : OneLine m.repr := by
    unfold OneLine
    rw [Nat.repr_eq_ofList_toDigits, String.toList_ofList]
    intro hmem
    exact absurd (Nat.isDigit_of_mem_toDigits (by decide) (by decide) hmem) (by decide)
  have hsign : OneLine "-" := by decide
  rw [Int.toString_eq_repr, Int.repr_eq_if]
  split
  · exact hdigits n.toNat
  · exact hsign.append (hdigits (-n).toNat)

/-- Lines are told from the text that they make up. -/
theorem eq_of_intercalate_eq {ls ls' : List String} (h : ∀ l ∈ ls, OneLine l)
    (h' : ∀ l ∈ ls', OneLine l) (hne : ls ≠ []) (hne' : ls' ≠ [])
    (heq : "\n".intercalate ls = "\n".intercalate ls') : ls = ls' := by
  have hsplit : ∀ {ls : List String}, (∀ l ∈ ls, OneLine l) → ls ≠ [] →
      ("\n".intercalate ls).toList.splitOn '\n' = ls.map String.toList := by
    intro ls hls hne
    rw [String.toList_intercalate]
    exact List.splitOn_intercalate '\n' (List.forall_mem_map.2 hls) (mt List.map_eq_nil_iff.1 hne)
  have hchars : ls.map String.toList = ls'.map String.toList := by
    rw [← hsplit h hne, heq, hsplit h' hne']
  exact List.map_injective_iff.2 (fun _ _ => String.toList_inj.1) hchars

end Text

open Text

section Resolving

variable {f : Handle → Except ProvenanceError String}

/-- An ingredient whose texts have no line break is printed on one line. -/
theorem Ingredient.oneLine_text (hf : ∀ {h s}, f h = .ok s → OneLine s) {i : Ingredient Handle}
    {i' : Ingredient String} (h : i.traverse f = .ok i') : OneLine i'.text := by
  obtain ⟨name, hname, h⟩ := bind_eq_ok_iff.1 h
  obtain ⟨amount, hamount, h⟩ := bind_eq_ok_iff.1 h
  cases h
  cases hi : i.amount with
  | none =>
      rw [hi] at hamount
      cases hamount
      exact hf hname
  | some a =>
      rw [hi] at hamount
      obtain ⟨text, htext, rfl⟩ := map_eq_ok_iff.1 hamount
      exact (OneLine.append (.append (by decide) (hf htext)) (by decide)).append (hf hname)

/-- So is an action, its seasonings included. -/
theorem Action.oneLine_text (hf : ∀ {h s}, f h = .ok s → OneLine s) {a : Action Handle}
    {a' : Action String} (h : a.traverse f = .ok a') : OneLine a'.text := by
  obtain ⟨description, hdescription, h⟩ := bind_eq_ok_iff.1 h
  obtain ⟨seasonings, hseasonings, h⟩ := bind_eq_ok_iff.1 h
  cases h
  have htexts : ∀ s ∈ seasonings.map Ingredient.text, OneLine s := by
    refine List.forall_mem_map.2 fun i hi => ?_
    obtain ⟨_, -, htraverse⟩ := counterpart_of_mem_right (mapM_eq_ok_iff.1 hseasonings) hi
    exact Ingredient.oneLine_text hf htraverse
  cases seasonings with
  | nil => exact hf hdescription
  | cons i items =>
      exact ((hf hdescription).append (by decide)).append (.intercalate (by decide) htexts)

end Resolving

namespace StepTree

-- ================================================================ nodes

/-- How the ingredients of a node read side by side. -/
def ingredientsLine (items : List (Ingredient String)) : String :=
  ", ".intercalate (items.map Ingredient.text)

/-- The nodes say the same, but for their paths. -/
@[mk_iff]
structure SameLines (t u : StepTree String) : Prop where
  size : t.size = u.size
  maxDepth : t.maxDepth = u.maxDepth
  actions_nil : t.actions = [] ↔ u.actions = []
  ingredients_nil : t.ingredients = [] ↔ u.ingredients = []
  actions : actionsText ", " t.actions = actionsText ", " u.actions
  ingredients : ingredientsLine t.ingredients = ingredientsLine u.ingredients

/-- What there is to say of a node behind its first line, each with whether
the node is without it. -/
def parts (t : StepTree String) : List (Bool × String) :=
  [(false, "max_depth: " ++ toString t.maxDepth),
    (t.actions.isEmpty, "actions: [" ++ (actionsText ", " t.actions ++ "]")),
    (t.ingredients.isEmpty, "ingredients: [" ++ (ingredientsLine t.ingredients ++ "]")),
    (t.isLeaf, "paths:")]

/-- The line of a part, if the node is not without it. -/
def partLine (indent : String) (part : Bool × String) : List String :=
  if part.1 then [] else [indent ++ part.2]

/-- The lines of a tree are its first line, the parts that its node has, and
the lines of its paths. -/
theorem lines_eq (indent lead : String) (t : StepTree String) :
    t.lines indent lead = (lead ++ ("size: " ++ toString t.size))
      :: ((parts t).flatMap (partLine indent) ++ pathLines indent t.paths) := by
  obtain ⟨actions, ingredients, size, maxDepth, paths⟩ := t
  simp only [lines, ownLines, parts, partLine, ingredientsLine, String.append_assoc,
    List.flatMap_cons, List.flatMap_nil, List.append_nil, List.append_assoc, List.cons_append]
  rfl

/-- No two parts begin alike, and none begins as a path does. -/
theorem initial_parts (t : StepTree String) :
    (parts t).map (initial ·.2) = [some 'm', some 'a', some 'i', some 'p'] := by
  have hdepth : initial "max_depth: " = some 'm' := rfl
  have hactions : initial "actions: [" = some 'a' := rfl
  have hingredients : initial "ingredients: [" = some 'i' := rfl
  have hpaths : initial "paths:" = some 'p' := rfl
  simp only [parts, List.map_cons, List.map_nil, initial_label hdepth, initial_label hactions,
    initial_label hingredients, hpaths]

variable {indent : String}

/-- The line of a part begins as the part does. -/
theorem initial_of_mem_partLine (hindent : IsMargin indent) {part : Bool × String} {line : String}
    (h : line ∈ partLine indent part) : initial line = initial part.2 := by
  unfold partLine at h
  split at h
  · cases h
  · rw [List.mem_singleton.1 h, initial_append hindent]

/-- A line among those of several parts begins as one of them does. -/
theorem initial_mem_of_mem (hindent : IsMargin indent) {ps : List (Bool × String)} {line : String}
    (h : line ∈ ps.flatMap (partLine indent)) : initial line ∈ ps.map (initial ·.2) := by
  obtain ⟨part, hpart, hline⟩ := List.mem_flatMap.1 h
  exact List.mem_map.2 ⟨part, hpart, (initial_of_mem_partLine hindent hline).symm⟩

/-- Parts of which no two begin alike are told by their lines. -/
theorem partLine_eq_of_flatMap_eq (hindent : IsMargin indent) {ps qs : List (Bool × String)}
    (hinitials : ps.map (initial ·.2) = qs.map (initial ·.2))
    (hnodup : (ps.map (initial ·.2)).Nodup)
    (h : ps.flatMap (partLine indent) = qs.flatMap (partLine indent)) :
    List.Forall₂ (fun p q => partLine indent p = partLine indent q) ps qs := by
  induction ps generalizing qs with
  | nil =>
      rw [List.map_nil, eq_comm, List.map_eq_nil_iff] at hinitials
      rw [hinitials]
      exact .nil
  | cons p ps ih =>
      cases qs with
      | nil => cases hinitials
      | cons q qs =>
          rw [List.map_cons, List.map_cons] at hinitials
          obtain ⟨hpq, hinitials⟩ := List.cons.inj hinitials
          rw [List.map_cons, List.nodup_cons] at hnodup
          rw [List.flatMap_cons, List.flatMap_cons] at h
          -- What follows the first part begins otherwise, so it is seen
          -- where the part ends.
          have hothers : ∀ {rest : List (Bool × String)},
              rest.map (initial ·.2) = ps.map (initial ·.2) →
              ∀ line ∈ (rest.flatMap (partLine indent)).head?, initial line ≠ initial p.2 := by
            intro rest hrest line hline hsame
            have hmem := initial_mem_of_mem hindent (List.mem_of_mem_head? hline)
            rw [hrest, hsame] at hmem
            exact hnodup.1 hmem
          obtain ⟨hline, h⟩ := append_inj_of_head (p := fun line => initial line = initial p.2)
            (fun _ hline => initial_of_mem_partLine hindent hline)
            (fun _ hline => (initial_of_mem_partLine hindent hline).trans hpq.symm)
            (hothers rfl) (hothers hinitials.symm) h
          exact .cons hline (ih hinitials hnodup.2 h)

/-- What stands in brackets is told, and so is whether there is anything. -/
theorem text_eq_of_partLine_eq {β : Type} {text : List β → String} {xs ys : List β}
    {label closing : String}
    (h : partLine indent (xs.isEmpty, label ++ (text xs ++ closing))
      = partLine indent (ys.isEmpty, label ++ (text ys ++ closing))) :
    (xs = [] ↔ ys = []) ∧ text xs = text ys := by
  cases xs with
  | nil =>
      cases ys with
      | nil => exact ⟨Iff.rfl, rfl⟩
      | cons y ys => cases h
  | cons x xs =>
      cases ys with
      | nil => cases h
      | cons y ys =>
          have htext := (List.cons.inj h).1
          rw [String.append_right_inj, String.append_right_inj, String.append_left_inj] at htext
          exact ⟨iff_of_false (List.cons_ne_nil x xs) (List.cons_ne_nil y ys), htext⟩

/-- Nodes whose first lines and parts read the same say the same: each part
begins with a character of its own, so none is taken for another. -/
theorem sameLines_of_parts (hindent : IsMargin indent) {t u : StepTree String}
    (hsize : t.size = u.size)
    (h : (parts t).flatMap (partLine indent) = (parts u).flatMap (partLine indent)) :
    SameLines t u := by
  have hnodup : ((parts t).map (initial ·.2)).Nodup := by
    rw [initial_parts]
    decide
  have hparts := partLine_eq_of_flatMap_eq hindent
    ((initial_parts t).trans (initial_parts u).symm) hnodup h
  simp only [parts, List.forall₂_cons] at hparts
  obtain ⟨hdepth, hactions, hingredients, -⟩ := hparts
  have hnumber := (List.cons.inj hdepth).1
  rw [String.append_right_inj, String.append_right_inj, toString_inj] at hnumber
  obtain ⟨hactions_nil, hactions⟩ := text_eq_of_partLine_eq hactions
  obtain ⟨hingredients_nil, hingredients⟩ := text_eq_of_partLine_eq hingredients
  exact ⟨hsize, hnumber, hactions_nil, hingredients_nil, hactions, hingredients⟩

-- ================================================================ trees

/-- The trees have one shape, and nodes in corresponding places are
related. -/
@[mk_iff]
inductive Mirrors {α β : Type} (R : StepTree α → StepTree β → Prop) :
    StepTree α → StepTree β → Prop
  | node {t : StepTree α} {u : StepTree β} (hnode : R t u)
      (hpaths : List.Forall₂ (Mirrors R) t.paths u.paths) : Mirrors R t u

/-- The lines behind those of a node with the indentation: they are over,
or they go on with a path of a node that has a smaller one. -/
def GoesOn (indent : String) (rest : List String) : Prop :=
  ∀ line ∈ rest.head?, initial line = some '-' ∧ margin line < indent.length

/-- A hyphen behind an indentation is seen there, whatever follows it. -/
theorem initial_hyphen (hindent : IsMargin indent) (s : String) :
    initial (indent ++ ("- " ++ s)) = some '-'
      ∧ margin (indent ++ ("- " ++ s)) = indent.length := by
  rw [initial_append hindent, margin_append hindent, margin, String.toList_append]
  exact ⟨initial_label rfl s, rfl⟩

/-- The lines of paths begin with the hyphen of the first of them. -/
theorem head?_pathLines (indent : String) (t : StepTree String) (ts : List (StepTree String))
    (rest : List String) :
    (pathLines indent (t :: ts) ++ rest).head?
      = some (indent ++ ("- " ++ ("size: " ++ toString t.size))) := by
  rw [pathLines, lines_eq, String.append_assoc]
  rfl

/-- Behind a path come the other paths of the node, and then what comes
behind the node. -/
theorem GoesOn.pathLines (hindent : IsMargin indent) {rest : List String} (h : GoesOn indent rest)
    (ts : List (StepTree String)) : GoesOn (indent ++ "  ") (pathLines indent ts ++ rest) := by
  intro line hline
  rw [String.length_append, show "  ".length = 2 from rfl]
  cases ts with
  | nil =>
      obtain ⟨hinitial, hmargin⟩ := h line hline
      exact ⟨hinitial, by omega⟩
  | cons t ts =>
      rw [head?_pathLines] at hline
      cases hline
      obtain ⟨hinitial, hmargin⟩ := initial_hyphen hindent ("size: " ++ toString t.size)
      exact ⟨hinitial, by omega⟩

/-- A path of the node itself is not what comes behind the node. -/
theorem not_goesOn_pathLines (hindent : IsMargin indent) (t : StepTree String)
    (ts : List (StepTree String)) (rest : List String) :
    ¬ GoesOn indent (pathLines indent (t :: ts) ++ rest) := by
  intro h
  have hless := (h _ (head?_pathLines indent t ts rest)).2
  rw [(initial_hyphen hindent _).2] at hless
  exact Nat.lt_irrefl _ hless

/-- The lines of the tree tell it, and where they end. -/
def Told (t : StepTree String) : Prop :=
  ∀ {u : StepTree String} {indent lead : String} {rest rest' : List String}, IsMargin indent →
    GoesOn indent rest → GoesOn indent rest' →
    t.lines indent lead ++ rest = u.lines indent lead ++ rest' →
      t.Mirrors SameLines u ∧ rest = rest'

/-- Paths that are told one by one are told side by side, as each ends
before the hyphen of the next. -/
theorem pathLines_told (hindent : IsMargin indent) {rest rest' : List String}
    (hrest : GoesOn indent rest) (hrest' : GoesOn indent rest') {ts : List (StepTree String)}
    (hts : ∀ t ∈ ts, t.Told) {us : List (StepTree String)}
    (h : pathLines indent ts ++ rest = pathLines indent us ++ rest') :
    List.Forall₂ (Mirrors SameLines) ts us ∧ rest = rest' := by
  induction ts generalizing us with
  | nil =>
      cases us with
      | nil => exact ⟨.nil, h⟩
      | cons u us =>
          rw [show rest = pathLines indent (u :: us) ++ rest' from h] at hrest
          exact absurd hrest (not_goesOn_pathLines hindent u us rest')
  | cons t ts ih =>
      cases us with
      | nil =>
          rw [show rest' = pathLines indent (t :: ts) ++ rest from h.symm] at hrest'
          exact absurd hrest' (not_goesOn_pathLines hindent t ts rest)
      | cons u us =>
          rw [List.forall_mem_cons] at hts
          rw [pathLines, pathLines, List.append_assoc, List.append_assoc] at h
          obtain ⟨htu, h⟩ := hts.1 (hindent.append isMargin_two) (hrest.pathLines hindent ts)
            (hrest'.pathLines hindent us) h
          obtain ⟨hall, h⟩ := ih hts.2 h
          exact ⟨.cons htu hall, h⟩

/-- Every tree is told by its lines. -/
theorem told (t : StepTree String) : t.Told := by
  induction t using induct with
  | node actions ingredients size maxDepth paths ih =>
      intro u indent lead rest rest' hindent hrest hrest' h
      rw [lines_eq, lines_eq, List.cons_append, List.cons_append, List.append_assoc,
        List.append_assoc] at h
      obtain ⟨hsize, h⟩ := List.cons.inj h
      rw [String.append_right_inj, String.append_right_inj, toString_inj] at hsize
      -- the lines of the node itself end before the next hyphen
      have hown : ∀ {t : StepTree String}, ∀ line ∈ (parts t).flatMap (partLine indent),
          initial line ≠ some '-' := by
        intro t line hline
        have hinitial := initial_mem_of_mem hindent hline
        have hhyphen : some '-' ∉ [some 'm', some 'a', some 'i', some 'p'] := by decide
        rw [initial_parts] at hinitial
        exact ne_of_mem_of_not_mem hinitial hhyphen
      have hnext : ∀ {ts : List (StepTree String)} {rest : List String}, GoesOn indent rest →
          ∀ line ∈ (pathLines indent ts ++ rest).head?, ¬ initial line ≠ some '-' :=
        fun hrest line hline hne => hne (hrest.pathLines hindent _ line hline).1
      obtain ⟨hparts, h⟩ := append_inj_of_head hown hown (hnext hrest) (hnext hrest') h
      obtain ⟨hpaths, h⟩ := pathLines_told hindent hrest hrest' ih h
      exact ⟨.node (sameLines_of_parts hindent hsize hparts) hpaths, h⟩

-- ============================================================= listings

/-- Nodes that say the same, and both have paths or both none, have the same
parts. -/
theorem SameLines.parts_eq {t u : StepTree String} (h : t.SameLines u)
    (hpaths : t.paths = [] ↔ u.paths = []) : parts t = parts u := by
  rw [parts, parts, isLeaf, isLeaf, h.maxDepth, isEmpty_congr h.actions_nil, h.actions,
    isEmpty_congr h.ingredients_nil, h.ingredients, isEmpty_congr hpaths]

/-- Trees that say the same have the same lines. -/
theorem Mirrors.lines_eq {t : StepTree String} :
    ∀ {u : StepTree String} (indent lead : String), t.Mirrors SameLines u →
      t.lines indent lead = u.lines indent lead := by
  induction t using induct with
  | node actions ingredients size maxDepth paths ih =>
      intro u indent lead h
      obtain ⟨hnode, hpaths⟩ := (mirrors_iff _ _ _).1 h
      replace hpaths : List.Forall₂ (Mirrors SameLines) paths u.paths := hpaths
      have hbelow : pathLines indent paths = pathLines indent u.paths := by
        rw [pathLines_eq, pathLines_eq, List.flatMap_def, List.flatMap_def,
          map_eq_of_forall₂ (forall₂_mem_left hpaths) fun p q hpq =>
            ih p hpq.1 (indent ++ "  ") (indent ++ "- ") hpq.2]
      rw [StepTree.lines_eq, StepTree.lines_eq, hnode.size,
        hnode.parts_eq (nil_iff_of_forall₂ hpaths).symm, ← hbelow]
      rfl

/-- The parts of a node are on one line each if its texts are. -/
theorem oneLine_parts {t : StepTree String} (hactions : ∀ a ∈ t.actions, OneLine a.text)
    (hingredients : ∀ i ∈ t.ingredients, OneLine i.text) : ∀ part ∈ parts t, OneLine part.2 := by
  have hbracketed : ∀ {β : Type} {text : β → String} {xs : List β} {label : String},
      OneLine label → (∀ x ∈ xs, OneLine (text x)) →
        OneLine (label ++ (", ".intercalate (xs.map text) ++ "]")) := fun hlabel hxs =>
    hlabel.append (.append (.intercalate (by decide) (List.forall_mem_map.2 hxs)) (by decide))
  have hdepth : OneLine "max_depth: " := by decide
  have hpaths : OneLine "paths:" := by decide
  rw [parts, List.forall_mem_cons, List.forall_mem_cons, List.forall_mem_cons,
    List.forall_mem_singleton]
  exact ⟨hdepth.append (oneLine_toString t.maxDepth), hbracketed (by decide) hactions,
    hbracketed (by decide) hingredients, hpaths⟩

/-- A tree whose texts have no line breaks has none on its lines. -/
theorem oneLine_lines {f : Handle → Except ProvenanceError String}
    (hf : ∀ {h s}, f h = .ok s → OneLine s) {t : StepTree Handle} :
    ∀ {u : StepTree String} {indent lead : String}, t.traverse f = .ok u → OneLine indent →
      OneLine lead → ∀ line ∈ u.lines indent lead, OneLine line := by
  induction t using induct with
  | node actions ingredients size maxDepth paths ih =>
      intro u indent lead hu hindent hlead
      obtain ⟨-, -, hactions, hingredients, hpaths⟩ := traverse_eq_ok_iff.1 hu
      have hparts : ∀ part ∈ parts u, OneLine part.2 := by
        refine oneLine_parts (fun a ha => ?_) fun i hi => ?_
        · obtain ⟨_, -, ha⟩ := counterpart_of_mem_right (mapM_eq_ok_iff.1 hactions) ha
          exact Action.oneLine_text hf ha
        · obtain ⟨_, -, hi⟩ := counterpart_of_mem_right (mapM_eq_ok_iff.1 hingredients) hi
          exact Ingredient.oneLine_text hf hi
      rw [lines_eq, List.forall_mem_cons, List.forall_mem_append]
      refine ⟨hlead.append (.append (by decide) (oneLine_toString u.size)), ?_, ?_⟩
      · intro line hline
        obtain ⟨part, hpart, hline⟩ := List.mem_flatMap.1 hline
        unfold partLine at hline
        split at hline
        · cases hline
        · rw [List.mem_singleton.1 hline]
          exact hindent.append (hparts part hpart)
      · rw [pathLines_eq, List.forall_mem_flatMap]
        intro q hq
        obtain ⟨p, hp, hpq⟩ := counterpart_of_mem_right hpaths hq
        exact ih p hp hpq (hindent.append (by decide)) (hindent.append (by decide))

/-- Trees whose lines have no line breaks have one listing exactly when
they say the same, node by node. -/
theorem listing_eq_iff_mirrors {t u : StepTree String} (ht : ∀ line ∈ t.lines "" "", OneLine line)
    (hu : ∀ line ∈ u.lines "" "", OneLine line) :
    t.listing = u.listing ↔ t.Mirrors SameLines u := by
  refine ⟨fun h => ?_, fun h => congrArg ("\n".intercalate ·) (h.lines_eq "" "")⟩
  have hne : ∀ t : StepTree String, t.lines "" "" ≠ [] := fun t => by
    rw [lines_eq]
    exact List.cons_ne_nil _ _
  have hlines := eq_of_intercalate_eq ht hu (hne t) (hne u) h
  have hend : GoesOn "" [] := nofun
  exact (told t isMargin_empty hend hend (congrArg (· ++ []) hlines)).1

-- ============================================================= printing

/-- How the registry prints the actions of a node. -/
def actionsIn (r : Registry) (t : StepTree Handle) : Except ProvenanceError String :=
  actionsText ", " <$> t.actions.mapM (Action.traverse r.resolve)

/-- How the registry prints the ingredients of a node. -/
def ingredientsIn (r : Registry) (t : StepTree Handle) : Except ProvenanceError String :=
  ingredientsLine <$> t.ingredients.mapM (Ingredient.traverse r.resolve)

/-- Printed with a registry each, the nodes say the same, but for their
paths. -/
@[mk_iff]
structure ShownAlike (r r' : Registry) (t t' : StepTree Handle) : Prop where
  size : t.size = t'.size
  maxDepth : t.maxDepth = t'.maxDepth
  actions_nil : t.actions = [] ↔ t'.actions = []
  ingredients_nil : t.ingredients = [] ↔ t'.ingredients = []
  actions : ∃ line, t.actionsIn r = .ok line ∧ t'.actionsIn r' = .ok line
  ingredients : ∃ line, t.ingredientsIn r = .ok line ∧ t'.ingredientsIn r' = .ok line

/-- Where both are printed, they are printed the same exactly when they
read the same once they are resolved. -/
theorem exists_line_iff {ε β γ δ : Type} {op : β → Except ε δ} {op' : γ → Except ε δ}
    {text : List δ → String} {xs : List β} {xs' : List γ} {ys ys' : List δ}
    (h : xs.mapM op = .ok ys) (h' : xs'.mapM op' = .ok ys') :
    (∃ line, text <$> xs.mapM op = .ok line ∧ text <$> xs'.mapM op' = .ok line)
      ↔ text ys = text ys' := by
  rw [h, h']
  constructor
  · intro ⟨line, hline, hline'⟩
    exact Except.ok.inj (hline.trans hline'.symm)
  · intro htext
    exact ⟨text ys, rfl, congrArg Except.ok htext.symm⟩

variable {r r' : Registry} {t t' : StepTree Handle}

/-- Nodes are printed alike exactly when they say the same once they are
resolved. -/
theorem shownAlike_iff_sameLines {u u' : StepTree String} (hu : t.traverse r.resolve = .ok u)
    (hu' : t'.traverse r'.resolve = .ok u') : ShownAlike r r' t t' ↔ SameLines u u' := by
  obtain ⟨hsize, hdepth, hactions, hingredients, -⟩ := traverse_eq_ok_iff.1 hu
  obtain ⟨hsize', hdepth', hactions', hingredients', -⟩ := traverse_eq_ok_iff.1 hu'
  rw [shownAlike_iff, sameLines_iff, hsize, hsize', hdepth, hdepth',
    nil_iff_of_forall₂ (mapM_eq_ok_iff.1 hactions),
    nil_iff_of_forall₂ (mapM_eq_ok_iff.1 hactions'),
    nil_iff_of_forall₂ (mapM_eq_ok_iff.1 hingredients),
    nil_iff_of_forall₂ (mapM_eq_ok_iff.1 hingredients'),
    ← exists_line_iff hactions hactions', ← exists_line_iff hingredients hingredients']
  rfl

/-- Trees that are resolved are alike as their texts are. -/
theorem mirrors_shownAlike_iff :
    ∀ {t' : StepTree Handle} {u u' : StepTree String}, t.traverse r.resolve = .ok u →
      t'.traverse r'.resolve = .ok u' →
      (t.Mirrors (ShownAlike r r') t' ↔ u.Mirrors SameLines u') := by
  induction t using induct with
  | node actions ingredients size maxDepth paths ih =>
      intro t' u u' hu hu'
      obtain ⟨-, -, -, -, hpaths⟩ := traverse_eq_ok_iff.1 hu
      obtain ⟨-, -, -, -, hpaths'⟩ := traverse_eq_ok_iff.1 hu'
      rw [mirrors_iff, mirrors_iff, shownAlike_iff_sameLines hu hu']
      exact and_congr_right fun _ => forall₂_iff_of_counterparts hpaths hpaths' fun p hp => ih p hp

/-- Two trees that are printed, each with a registry that has no line break
in its texts, have one listing exactly when they have one shape, the order
of the paths included, and nodes in corresponding places agree in their
numbers, in having actions, in having ingredients, and in how these are
printed side by side. -/
theorem listing_eq_iff {text text' : String} (hr : ∀ s ∈ r.strings, OneLine s)
    (hr' : ∀ s ∈ r'.strings, OneLine s) (h : listing <$> t.traverse r.resolve = .ok text)
    (h' : listing <$> t'.traverse r'.resolve = .ok text') :
    text = text' ↔ t.Mirrors (ShownAlike r r') t' := by
  obtain ⟨u, hu, rfl⟩ := map_eq_ok_iff.1 h
  obtain ⟨u', hu', rfl⟩ := map_eq_ok_iff.1 h'
  have hresolved : ∀ {r : Registry}, (∀ s ∈ r.strings, OneLine s) →
      ∀ {h s}, r.resolve h = .ok s → OneLine s := by
    intro r hr h s hs
    obtain ⟨i, -, hget⟩ := Registry.resolve_eq_ok_iff.1 hs
    exact hr s (List.mem_of_getElem? hget)
  have hempty : OneLine "" := by decide
  rw [mirrors_shownAlike_iff hu hu']
  exact listing_eq_iff_mirrors (oneLine_lines (hresolved hr) hu hempty hempty)
    (oneLine_lines (hresolved hr') hu' hempty hempty)

/-- A registry that knows salt and pepper under one name. -/
def blendTexts : Registry where
  strings := ["grind", "salt, pepper"]

/-- A registry that knows salt and pepper each under its own name. -/
def spiceTexts : Registry where
  strings := ["salt", "pepper", "grind"]

/-- One ingredient, ground. -/
def groundBlend : StepTree Handle :=
  .node [] [] 2 1 [.node [⟨⟨0⟩, []⟩] [⟨⟨1⟩, none⟩] 2 1 []]

/-- Two ingredients, ground. -/
def groundSpices : StepTree Handle :=
  .node [] [] 2 1 [.node [⟨⟨2⟩, []⟩] [⟨⟨0⟩, none⟩, ⟨⟨1⟩, none⟩] 2 1 []]

/-- The listing of both. -/
def groundListing : String :=
  "\n".intercalate ["size: 2", "max_depth: 1", "paths:", "- size: 2", "  max_depth: 1",
    "  actions: [grind]", "  ingredients: [salt, pepper]"]

/-- Two trees that are not equal have one listing: the name of one
ingredient reads as those of two. -/
theorem listing_eq_iff_ground :
    (∀ s ∈ blendTexts.strings, OneLine s) ∧ (∀ s ∈ spiceTexts.strings, OneLine s)
      ∧ listing <$> groundBlend.traverse blendTexts.resolve = .ok groundListing
      ∧ listing <$> groundSpices.traverse spiceTexts.resolve = .ok groundListing
      ∧ groundBlend.Mirrors (ShownAlike blendTexts spiceTexts) groundSpices := by
  have hblend : ∀ s ∈ blendTexts.strings, OneLine s := by decide
  have hspices : ∀ s ∈ spiceTexts.strings, OneLine s := by decide
  have hlisting : listing <$> groundBlend.traverse blendTexts.resolve = .ok groundListing := rfl
  have hlisting' : listing <$> groundSpices.traverse spiceTexts.resolve = .ok groundListing := rfl
  exact ⟨hblend, hspices, hlisting, hlisting',
    (listing_eq_iff hblend hspices hlisting hlisting').1 rfl⟩

end StepTree

end RecipeChart
