/-
The table as HTML, read back. What the elements of a table are is told here
without the mixed contents they are made from: every row an element, every
cell an element with its class and its spans, an element for the seasonings
of a step, and one for every amount. Ingredients side by side are one text
with the amounts set off in it (`sideBySide`), so the texts next to an
amount are those of several ingredients; this is the only place where an
induction is needed.

All names in these elements are plain, so the table is read back from what
was written, but for blank texts that the layout may have changed. No text
of a cell has a say in the tags.
-/
import RecipeChart.Proofs.Markup.Layout
import RecipeChart.Table.Html

namespace RecipeChart

open Markup

-- ============================================================ contents

namespace Markup

/-- Elements side by side have no text before them. -/
theorem leadingText_map_node (ns : List Node) : leadingText (ns.map .node) = "" := by
  cases ns <;> rfl

/-- Nodes with no texts between them are the nodes of their contents. -/
theorem nodesAmong_map_node {ns : List Node} (h : ∀ n ∈ ns, n.withTail "" = n) :
    nodesAmong (ns.map .node) = ns := by
  induction ns with
  | nil => rfl
  | cons n ns ih =>
      rw [List.forall_mem_cons] at h
      rw [List.map_cons, nodesAmong, leadingText_map_node, h.1, ih h.2]

/-- Elements without a text behind them become the children of an
element. -/
theorem ofContents_map_node {ns : List Node} (h : ∀ n ∈ ns, n.withTail "" = n) (tag : String)
    (attributes : List (String × String)) :
    Node.ofContents tag attributes (ns.map .node) = .element tag attributes "" ns "" := by
  rw [Node.ofContents, leadingText_map_node, nodesAmong_map_node h]

end Markup

-- ======================================================== what is shown

namespace HtmlOptions

variable (o : HtmlOptions)

/-- Ingredients side by side: the text before the first amount, and every
amount with the text behind it. -/
def sideBySide : List (Ingredient String) → String × List (String × String)
  | [] => ("", [])
  | i :: items =>
    let (text, amounts) := sideBySide items
    let behind := i.name ++ (if items.isEmpty then "" else " ") ++ text
    match i.amount with
    | none => (behind, amounts)
    | some amount => ("", (amount, " " ++ behind) :: amounts)

/-- An amount with the text behind it. -/
def shownAmount (a : String × String) : Node :=
  .element "span" [("class", o.amountClass)] a.1 [] a.2

/-- The text and the elements that a cell shows. -/
def shownContent : CellContent String → String × List Node
  | .ingredient i => ((sideBySide [i]).1, (sideBySide [i]).2.map o.shownAmount)
  | .step a =>
    (a.description,
      if a.seasonings.isEmpty then []
      else [.element "div" [("class", o.seasoningsClass)] (sideBySide a.seasonings).1
        ((sideBySide a.seasonings).2.map o.shownAmount) ""])
  | .done => ("<>", [])

/-- The class that the options name for the kind of a cell. -/
def shownClass : CellContent String → String
  | .ingredient _ => o.ingredientClass
  | .step _ => o.actionClass
  | .done => o.doneClass

/-- A cell shows its class and its two spans, whatever stands in it. -/
def shownCell (c : Cell String) : Node :=
  .element "td"
    [("class", o.shownClass c.content), ("rowspan", toString c.rowspan),
      ("colspan", toString c.colspan)]
    (o.shownContent c.content).1 (o.shownContent c.content).2 ""

def shownRow (row : List (Cell String)) : Node := .element "tr" [] "" (row.map o.shownCell) ""

/-- The elements of a table. -/
def shownTable (t : Table String) : Node := .element "table" [] "" (t.rows.map o.shownRow) ""

-- ===================================================== mixed contents

/-- An ingredient before other contents: its amount, if it has one, is an
element, and its name the text around it. -/
theorem contents_ingredient_append (i : Ingredient String) (rest : List Content) :
    leadingText (o.ingredientContents i ++ rest)
        = (match i.amount with
          | none => i.name ++ leadingText rest
          | some _ => "")
      ∧ nodesAmong (o.ingredientContents i ++ rest)
        = (match i.amount with
          | none => nodesAmong rest
          | some amount => o.shownAmount (amount, " " ++ (i.name ++ leadingText rest))
            :: nodesAmong rest) := by
  unfold ingredientContents
  cases i.amount with
  | none => exact ⟨rfl, rfl⟩
  | some amount =>
      refine ⟨rfl, ?_⟩
      simp [nodesAmong, leadingText, Node.ofContents, Node.withTail, shownAmount,
        String.append_assoc]

/-- Seasonings stand side by side, with a blank between them. -/
theorem seasoningContents_cons (i : Ingredient String) (items : List (Ingredient String)) :
    o.seasoningContents (i :: items) = o.ingredientContents i
      ++ if items.isEmpty then [] else .text " " :: o.seasoningContents items := by
  cases items with
  | nil => simp [seasoningContents]
  | cons j items => rw [seasoningContents, List.map_cons, List.map_cons, List.intercalate_cons_cons,
      List.append_assoc]; rfl

/-- Ingredients side by side are one text with the amounts set off in it. -/
theorem contents_seasonings (items : List (Ingredient String)) :
    leadingText (o.seasoningContents items) = (sideBySide items).1
      ∧ nodesAmong (o.seasoningContents items) = (sideBySide items).2.map o.shownAmount := by
  induction items with
  | nil => exact ⟨rfl, rfl⟩
  | cons i items ih =>
      have hrest :
          leadingText (if items.isEmpty then [] else .text " " :: o.seasoningContents items)
              = (if items.isEmpty then "" else " ") ++ (sideBySide items).1
            ∧ nodesAmong (if items.isEmpty then [] else .text " " :: o.seasoningContents items)
              = (sideBySide items).2.map o.shownAmount := by
        cases items with
        | nil => exact ⟨rfl, rfl⟩
        | cons j items => exact ⟨congrArg (" " ++ ·) ih.1, ih.2⟩
      obtain ⟨htext, hnodes⟩ := o.contents_ingredient_append i
        (if items.isEmpty then [] else .text " " :: o.seasoningContents items)
      rw [seasoningContents_cons, htext, hnodes, hrest.1, hrest.2, sideBySide,
        ← String.append_assoc]
      cases i.amount with
      | none => exact ⟨rfl, rfl⟩
      | some amount => exact ⟨rfl, rfl⟩

/-- Every kind of cell is written with the class that is named for it. -/
theorem cellClass_eq (content : CellContent String) :
    o.cellClass content = o.shownClass content := by
  cases content with
  | ingredient i => rfl
  | step a => rfl
  | done => rfl

/-- The element of a cell is what the cell is to show. -/
theorem cellElement_eq (c : Cell String) : o.cellElement c = o.shownCell c := by
  have hcontents : leadingText (o.cellContents c.content) = (o.shownContent c.content).1
      ∧ nodesAmong (o.cellContents c.content) = (o.shownContent c.content).2 := by
    cases c.content with
    | ingredient i =>
        have hone := o.contents_seasonings [i]
        rw [seasoningContents, List.map_singleton, List.intercalate_singleton] at hone
        exact hone
    | step a =>
        obtain ⟨htext, hnodes⟩ := o.contents_seasonings a.seasonings
        rw [cellContents, shownContent]
        split
        · exact ⟨String.append_empty, rfl⟩
        · refine ⟨String.append_empty, ?_⟩
          rw [nodesAmong, nodesAmong, Node.ofContents, htext, hnodes]
          rfl
    | done => exact ⟨rfl, rfl⟩
  rw [cellElement, Node.ofContents, hcontents.1, hcontents.2, cellClass_eq, shownCell]

/-- The elements of a table are what it is to show. -/
theorem tableElement_eq (t : Table String) : o.tableElement t = o.shownTable t := by
  have hrow : ∀ row, o.rowElement row = o.shownRow row := by
    intro row
    have hcells : (row.map fun c => Content.node (o.cellElement c))
        = (row.map o.shownCell).map .node := by
      rw [List.map_map]
      exact List.map_congr_left fun c _ => congrArg Content.node (o.cellElement_eq c)
    have htails : ∀ n ∈ row.map o.shownCell, n.withTail "" = n := by
      rw [List.forall_mem_map]
      exact fun _ _ => rfl
    rw [rowElement, hcells, ofContents_map_node htails, shownRow]
  have hrows : (t.rows.map fun row => Content.node (o.rowElement row))
      = (t.rows.map o.shownRow).map .node := by
    rw [List.map_map]
    exact List.map_congr_left fun row _ => congrArg Content.node (hrow row)
  have htails : ∀ n ∈ t.rows.map o.shownRow, n.withTail "" = n := by
    rw [List.forall_mem_map]
    exact fun _ _ => rfl
  rw [tableElement, hrows, ofContents_map_node htails, shownTable]

end HtmlOptions

-- ================================================================ shape

/-- The ingredient without its texts: only whether it has an amount. -/
def Ingredient.shape (i : Ingredient String) : Ingredient Unit := ⟨(), i.amount.map fun _ => ()⟩

/-- The content without its texts. -/
def CellContent.shape : CellContent String → CellContent Unit
  | .ingredient i => .ingredient i.shape
  | .step a => .step ⟨(), a.seasonings.map Ingredient.shape⟩
  | .done => .done

def Cell.shape (c : Cell String) : Cell Unit := ⟨c.content.shape, c.colspan, c.rowspan⟩

/-- The table without its texts. -/
def Table.shape (t : Table String) : Table Unit := ⟨t.rows.map (·.map Cell.shape)⟩

namespace HtmlOptions

variable (o : HtmlOptions)

-- ================================================================= tags

/-- The tags of an amount, if the ingredient has one. -/
def amountTags (i : Ingredient Unit) : List Tag :=
  if i.amount.isSome then [.opening "span" [("class", o.amountClass)], .closing "span"] else []

/-- The tags of amounts depend on which ingredients have one, not on what it
says. -/
theorem tags_shownAmounts (items : List (Ingredient String)) :
    ((sideBySide items).2.map o.shownAmount).flatMap Node.tags
      = (items.map Ingredient.shape).flatMap o.amountTags := by
  induction items with
  | nil => rfl
  | cons i items ih =>
      rw [List.map_cons, List.flatMap_cons, ← ih, sideBySide, amountTags, Ingredient.shape,
        Option.isSome_map]
      cases i.amount with
      | none => rfl
      | some amount => rw [List.map_cons, List.flatMap_cons, shownAmount, Node.tags_element]; rfl

/-- The tags of what a cell shows. -/
def contentTags : CellContent Unit → List Tag
  | .ingredient i => o.amountTags i
  | .step a =>
    if a.seasonings.isEmpty then []
    else .opening "div" [("class", o.seasoningsClass)]
      :: (a.seasonings.flatMap o.amountTags ++ [.closing "div"])
  | .done => []

/-- The tags of a cell depend on its shape alone. -/
theorem tags_shownContent (content : CellContent String) :
    (o.shownContent content).2.flatMap Node.tags = o.contentTags content.shape := by
  cases content with
  | ingredient i =>
      rw [shownContent, tags_shownAmounts, List.map_singleton, List.flatMap_singleton]
      rfl
  | step a =>
      rw [shownContent, CellContent.shape, contentTags, List.isEmpty_map]
      split
      · rfl
      · rw [List.flatMap_singleton, Node.tags_element, tags_shownAmounts]
  | done => rfl

/-- The class of a cell does not depend on its texts. -/
theorem shownClass_of_shape {content content' : CellContent String}
    (h : content'.shape = content.shape) : o.shownClass content' = o.shownClass content := by
  cases content <;> cases content' <;> first | rfl | cases h

/-- The tags of a cell do not depend on its texts. -/
theorem tags_shownCell_of_shape {c c' : Cell String} (h : c'.shape = c.shape) :
    (o.shownCell c').tags = (o.shownCell c).tags := by
  obtain ⟨hcontent, hcolspan, hrowspan⟩ := Cell.mk.inj h
  rw [shownCell, shownCell, Node.tags_element, Node.tags_element, tags_shownContent,
    tags_shownContent, o.shownClass_of_shape hcontent, hcontent, hcolspan, hrowspan]

/-- The tags of a table do not depend on its texts. -/
theorem tags_shownTable_of_shape {t t' : Table String} (h : t'.shape = t.shape) :
    (o.shownTable t').tags = (o.shownTable t).tags := by
  have hrow : ∀ row' row : List (Cell String), row'.map Cell.shape = row.map Cell.shape →
      (o.shownRow row').tags = (o.shownRow row).tags := by
    intro row' row hrow
    have hcells := map_eq_of_map_eq (g := Node.tags ∘ o.shownCell)
      (fun _ _ hc => o.tags_shownCell_of_shape hc) hrow
    rw [shownRow, shownRow, Node.tags_element, Node.tags_element, List.flatMap_def,
      List.flatMap_def, List.map_map, List.map_map, hcells]
  have hrows := map_eq_of_map_eq (g := Node.tags ∘ o.shownRow) hrow (Table.mk.inj h)
  rw [shownTable, shownTable, Node.tags_element, Node.tags_element, List.flatMap_def,
    List.flatMap_def, List.map_map, List.map_map, hrows]

-- ================================================================ names

/-- The tags of an amount have plain names. -/
theorem isPlain_amountTags {i : Ingredient Unit} {tag : Tag} (h : tag ∈ o.amountTags i) :
    tag.IsPlain := by
  unfold amountTags at h
  split at h
  · rcases List.mem_pair.1 h with rfl | rfl <;> simp [Tag.IsPlain, IsPlainName]
  · cases h

/-- So have all tags of a cell. -/
theorem isPlain_contentTags {content : CellContent Unit} {tag : Tag}
    (h : tag ∈ o.contentTags content) : tag.IsPlain := by
  cases content with
  | ingredient i => exact o.isPlain_amountTags h
  | step a =>
      rw [contentTags] at h
      split at h
      · cases h
      · simp only [List.mem_cons, List.mem_append, List.mem_flatMap, List.not_mem_nil, or_false]
          at h
        rcases h with rfl | ⟨i, -, htag⟩ | rfl
        · simp [Tag.IsPlain, IsPlainName]
        · exact o.isPlain_amountTags htag
        · simp [Tag.IsPlain, IsPlainName]
  | done => cases h

/-- All names in a table are plain. -/
theorem isPlain_shownTable (t : Table String) {tag : Tag} (h : tag ∈ (o.shownTable t).tags) :
    tag.IsPlain := by
  simp only [shownTable, shownRow, shownCell, Node.tags_element, tags_shownContent,
    List.flatMap_map, List.mem_cons, List.mem_append, List.mem_flatMap, List.not_mem_nil, or_false] at h
  rcases h with rfl | ⟨row, -, rfl | ⟨c, -, rfl | htag | rfl⟩ | rfl⟩ | rfl
  case inr.inl.inr.inl.inr.inl => exact o.isPlain_contentTags htag
  all_goals simp [Tag.IsPlain, IsPlainName]

/-- What is written around the elements of a table. -/
def page (body : String) : String :=
  if o.standalone then o.header ++ body ++ "\n" ++ o.footer else body ++ "\n"

end HtmlOptions

-- ============================================================ reading

/-- Whatever the texts of a table are, it is read back from its page as the
elements it shows, but for blank texts that have become line breaks; and a
table that differs only in its texts is written with the same tags. -/
theorem Table.html_reads_back (t : Table String) (o : HtmlOptions) :
    ∃ body n, t.html o = o.page body ∧ Markup.read body = some n ∧ LaysOut (o.shownTable t) n
      ∧ ∃ tags, Markup.tags body = some tags
        ∧ ∀ t' : Table String, t'.shape = t.shape →
          ∃ body', t'.html o = o.page body' ∧ Markup.tags body' = some tags := by
  have hlaid : ∀ t : Table String, LaysOut (o.shownTable t) ((o.shownTable t).laidOut 0) :=
    fun t => laysOut_laidOut _ 0
  have hplain : ∀ t : Table String, ∀ tag ∈ ((o.shownTable t).laidOut 0).tags, tag.IsPlain := by
    intro t tag htag
    rw [(hlaid t).tags_eq] at htag
    exact o.isPlain_shownTable t htag
  have hhtml : ∀ t : Table String, t.html o = o.page ((o.shownTable t).laidOut 0).written := by
    intro t
    rw [← o.tableElement_eq]
    rfl
  refine ⟨_, _, hhtml t, read_written (hplain t), hlaid t, _, tags_written (hplain t),
    fun t' hshape => ⟨_, hhtml t', ?_⟩⟩
  rw [tags_written (hplain t'), (hlaid t').tags_eq, (hlaid t).tags_eq,
    o.tags_shownTable_of_shape hshape]

namespace Table

/-- Two eggs, fried with butter. -/
def friedTable : Table String where
  rows := [[⟨.ingredient ⟨"eggs", some "2"⟩, 1, 1⟩,
    ⟨.step ⟨"fry", [⟨"butter", none⟩, ⟨"salt", some "1"⟩]⟩, 1, 1⟩, ⟨.done, 1, 1⟩]]

/-- The same table with texts that look like markup, and with blank ones. -/
def trickyTable : Table String where
  rows := [[⟨.ingredient ⟨"</td>", some "&amp;"⟩, 1, 1⟩,
    ⟨.step ⟨" ", [⟨"<!--", none⟩, ⟨"", some "\"'>"⟩]⟩, 1, 1⟩, ⟨.done, 1, 1⟩]]

theorem html_reads_back_tricky :
    trickyTable.shape = friedTable.shape ∧ ∃ body body' n tags,
      friedTable.html {} = body ++ "\n" ∧ trickyTable.html {} = body' ++ "\n"
        ∧ Markup.read body = some n ∧ LaysOut (HtmlOptions.shownTable {} friedTable) n
        ∧ Markup.tags body = some tags ∧ Markup.tags body' = some tags := by
  have hshape : trickyTable.shape = friedTable.shape := rfl
  obtain ⟨body, n, hhtml, hread, hlaid, tags, htags, hsame⟩ := html_reads_back friedTable {}
  obtain ⟨body', hhtml', htags'⟩ := hsame trickyTable hshape
  exact ⟨hshape, body, body', n, tags, hhtml, hhtml', hread, hlaid, htags, htags'⟩

end Table

end RecipeChart
