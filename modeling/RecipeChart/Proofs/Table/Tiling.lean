/-
The table of a tree tiles its rectangle. The layout of a tree is its rows
with the columns written beside the cells: a node of some depth left has
its own steps in the last of its columns, over all of its rows, and what
is below it in the columns before. Layouts are put together by two moves,
one below the other and a cell of full height at the right edge, and both
keep a layout exact. A tree that fits is laid out by these moves alone, so
its layout is exact, and filling the grid with its rows finds it again.

The invariant of the induction is the width: a node with so many columns
left covers them and one more, however deep it is itself. A leaf fills what
it does not need with the width of its ingredients.
-/
import RecipeChart.Proofs.Table.Placement
import RecipeChart.Proofs.Table.Rows
import RecipeChart.Registry

namespace RecipeChart

variable {α : Type}

namespace Table

namespace Layout

-- ========================================================== the moves

/-- Cells in neighbouring columns, the first in the given one. -/
def inColumns : Nat → List (Cell α) → List (Nat × Cell α)
  | _, [] => []
  | c, cell :: cells => (c, cell) :: inColumns (c + 1) cells

/-- The layout with the cells at the end of its first row, from the given
column on. -/
def widen (c : Nat) (cells : List (Cell α)) : Layout α → Layout α
  | [] => []
  | row :: laid => (row ++ inColumns c cells) :: laid

theorem map_snd_inColumns (cells : List (Cell α)) :
    ∀ c, (inColumns c cells).map Prod.snd = cells := by
  induction cells with
  | nil => intro c; rfl
  | cons cell cells ih => intro c; rw [inColumns, List.map_cons, ih]

theorem rows_append (laid laid' : Layout α) : (laid ++ laid').rows = laid.rows ++ laid'.rows :=
  List.map_append

/-- Ending the first row of a layout is ending the first of its rows. -/
theorem endFirst_rows {laid : Layout α} (hne : laid ≠ []) (c : Nat) (cells : List (Cell α)) :
    endFirst cells laid.rows = .ok (widen c cells laid).rows := by
  cases laid with
  | nil => exact absurd rfl hne
  | cons row laid =>
      rw [widen, rows, rows, List.map_cons, List.map_cons, List.map_append, map_snd_inColumns]
      rfl

theorem layers_append (laid laid' : Layout α) : ∀ r c,
    layers (laid ++ laid') r c
      = layers laid r c + if laid.length ≤ r then layers laid' (r - laid.length) c else 0 := by
  induction laid with
  | nil => intro r c; simp [layers]
  | cons row laid ih =>
      intro r c
      cases r with
      | zero => rw [List.cons_append, layers, layers, if_neg (by simp), Nat.add_zero]
      | succ r =>
          rw [List.cons_append, layers, layers, ih, List.length_cons, Nat.add_assoc,
            Nat.add_sub_add_right]
          simp only [Nat.add_le_add_iff_right]

/-- One cell more at the end of the first row is one layer more where it
reaches. -/
theorem layers_widen_one (row : List (Nat × Cell α)) (p : Nat × Cell α) (laid : Layout α)
    (r c : Nat) :
    layers ((row ++ [p]) :: laid) r c
      = layers (row :: laid) r c + if reaches r c p then 1 else 0 := by
  cases r with
  | zero => simp only [layers, List.countP_append, List.countP_singleton]
  | succ r =>
      simp only [layers, List.countP_append, List.countP_singleton]
      omega

/-- A layout without rows is exact for every rectangle of no height. -/
theorem exact_nil (width : Nat) : Exact ([] : Layout α) 0 width where
  length_eq := rfl
  layers_eq r c := by rw [if_neg (by omega)]; cases r <;> rfl
  rising row hrow := absurd hrow List.not_mem_nil
  spans row hrow := absurd hrow List.not_mem_nil

/-- A single cell is exact for the rectangle of its own spans. -/
theorem exact_single {cell : Cell α} {width : Nat} (hwidth : cell.colspan = width)
    (hpos : 1 ≤ width) (hrow : cell.rowspan = 1) : Exact [[(0, cell)]] 1 width where
  length_eq := rfl
  layers_eq r c := by
    cases r with
    | zero =>
        rw [layers, List.countP_singleton]
        simp only [reaches, hwidth, hrow, Bool.and_eq_true, decide_eq_true_eq]
        exact if_congr ⟨fun h => by omega, fun h => by omega⟩ rfl rfl
    | succ r =>
        have hno : ¬ reaches (r + 1) c (0, cell) = true := by
          simp only [reaches, hrow, Bool.and_eq_true, decide_eq_true_eq]
          omega
        rw [layers, List.countP_singleton, layers, if_neg hno, if_neg (fun h => by omega)]
  rising row h := by
    rw [List.mem_singleton.1 h]
    exact List.pairwise_singleton _ _
  spans row h p hp := by
    rw [List.mem_singleton.1 h] at hp
    rw [List.mem_singleton.1 hp]
    show 1 ≤ cell.colspan ∧ 1 ≤ cell.rowspan
    omega

/-- One exact layout below another of the same width is exact. -/
theorem Exact.append {laid laid' : Layout α} {height height' width : Nat}
    (h : Exact laid height width) (h' : Exact laid' height' width) :
    Exact (laid ++ laid') (height + height') width where
  length_eq := by rw [List.length_append, h.length_eq, h'.length_eq]
  layers_eq r c := by
    rw [layers_append, h.layers_eq, h'.layers_eq, h.length_eq]
    by_cases hr : r < height
    · rw [if_neg (Nat.not_le.2 hr), Nat.add_zero]
      exact if_congr ⟨fun hc => ⟨by omega, hc.2⟩, fun hc => ⟨hr, hc.2⟩⟩ rfl rfl
    · rw [if_neg (fun hc => hr hc.1), if_pos (Nat.le_of_not_lt hr), Nat.zero_add]
      exact if_congr ⟨fun hc => ⟨by omega, hc.2⟩, fun hc => ⟨by omega, hc.2⟩⟩ rfl rfl
  rising row hrow := by
    rcases List.mem_append.1 hrow with hrow | hrow
    · exact h.rising row hrow
    · exact h'.rising row hrow
  spans row hrow := by
    rcases List.mem_append.1 hrow with hrow | hrow
    · exact h.spans row hrow
    · exact h'.spans row hrow

/-- The cells of the first row of an exact layout stand within its
width. -/
theorem Exact.column_lt {row : List (Nat × Cell α)} {laid : Layout α} {height width : Nat}
    (h : Exact (row :: laid) height width) {p : Nat × Cell α} (hp : p ∈ row) : p.1 < width := by
  have hspans := h.spans row List.mem_cons_self p hp
  have hself : reaches 0 p.1 p = true := by
    simp only [reaches, Bool.and_eq_true, decide_eq_true_eq]
    omega
  have hpos : 0 < row.countP (reaches 0 p.1) := List.countP_pos_iff.2 ⟨p, hp, hself⟩
  have hlayers := h.layers_eq 0 p.1
  rw [layers] at hlayers
  by_contra hout
  rw [if_neg (fun hc => hout hc.2)] at hlayers
  omega

/-- A cell of full height at the right edge keeps a layout exact. -/
theorem Exact.widen_one {row : List (Nat × Cell α)} {laid : Layout α} {height width : Nat}
    (h : Exact (row :: laid) height width) {cell : Cell α} (hcol : cell.colspan = 1)
    (hrow : cell.rowspan = height) :
    Exact ((row ++ [(width, cell)]) :: laid) height (width + 1) where
  length_eq := h.length_eq
  layers_eq r c := by
    rw [layers_widen_one, h.layers_eq]
    have hreach : reaches r c (width, cell) = true ↔ r < height ∧ c = width := by
      simp only [reaches, hcol, hrow, Bool.and_eq_true, decide_eq_true_eq]
      omega
    by_cases hc : r < height ∧ c = width
    · rw [if_neg (by omega), if_pos (hreach.2 hc), if_pos (by omega)]
    · have hno : ¬ reaches r c (width, cell) = true := fun hr => hc (hreach.1 hr)
      rw [if_neg hno, Nat.add_zero]
      exact if_congr ⟨fun h => by omega, fun h => by omega⟩ rfl rfl
  rising row' hrow' := by
    rcases List.mem_cons.1 hrow' with rfl | hrow'
    · refine List.pairwise_append.2
        ⟨h.rising row List.mem_cons_self, List.pairwise_singleton _ _, fun p hp q hq => ?_⟩
      rw [List.mem_singleton.1 hq]
      exact h.column_lt hp
    · exact h.rising row' (List.mem_cons_of_mem row hrow')
  spans row' hrow' p hp := by
    rcases List.mem_cons.1 hrow' with rfl | hrow'
    · rcases List.mem_append.1 hp with hp | hp
      · exact h.spans row List.mem_cons_self p hp
      · rw [List.mem_singleton.1 hp, hcol, hrow]
        have := h.length_eq
        rw [List.length_cons] at this
        exact ⟨Int.le_refl 1, by omega⟩
    · exact h.spans row' (List.mem_cons_of_mem row hrow') p hp

/-- Cells of full height at the right edge, one after another, keep a
layout exact. -/
theorem Exact.widen {height : Nat} {cells : List (Cell α)}
    (hcells : ∀ cell ∈ cells, cell.colspan = 1 ∧ cell.rowspan = height) :
    ∀ {laid : Layout α} {width : Nat}, laid ≠ [] → Exact laid height width →
      Exact (laid.widen width cells) height (width + cells.length) := by
  induction cells with
  | nil =>
      intro laid width hne h
      cases laid with
      | nil => exact absurd rfl hne
      | cons row laid =>
          rw [Layout.widen, inColumns, List.append_nil]
          exact h
  | cons cell cells ih =>
      intro laid width hne h
      cases laid with
      | nil => exact absurd rfl hne
      | cons row laid =>
          obtain ⟨hcol, hrow⟩ := hcells cell List.mem_cons_self
          have hrest := ih (fun c hc => hcells c (List.mem_cons_of_mem cell hc))
            (List.cons_ne_nil _ _) (h.widen_one hcol hrow)
          rw [Layout.widen, List.append_assoc, Nat.add_assoc, Nat.add_comm 1] at hrest
          exact hrest

-- ============================================================ the tree

/-- A row for each ingredient, its cell in the first column. -/
def ingredients (width : Int) (items : List (Ingredient α)) : Layout α :=
  items.map fun i => [(0, ⟨.ingredient i, width, 1⟩)]

mutual

/-- The rows of a node with the columns written beside the cells. The
node has its steps behind the columns that are left below it. -/
def ofNode (columns : Nat) (ending : List (Cell α)) : StepTree α → Layout α
  | .node actions items _ _ paths =>
    let below := columns - actions.length
    let own := ingredients (below + 1) items
    if paths.isEmpty then own.widen (below + 1) ending
    else own ++ (ofNodes below paths).widen (below + 1) ending

def ofNodes (columns : Nat) : List (StepTree α) → Layout α
  | [] => []
  | t :: ts => ofNode columns (stepCells t) t ++ ofNodes columns ts

end

theorem rows_ingredients (width : Int) (items : List (Ingredient α)) :
    (ingredients width items).rows = ingredientRows width items := by
  rw [rows, ingredients, ingredientRows, List.map_map]
  rfl

/-- Ingredients of one width below one another are exact. -/
theorem exact_ingredients {width : Nat} (hpos : 1 ≤ width) (items : List (Ingredient α)) :
    Exact (ingredients width items) items.length width := by
  induction items with
  | nil => exact exact_nil width
  | cons i items ih =>
      have hone : Exact [[(0, ⟨.ingredient i, width, 1⟩)]] 1 width := exact_single rfl hpos rfl
      have := hone.append ih
      rw [Nat.add_comm] at this
      exact this

/-- The step cells of a node have one column each and the height of the
node. -/
theorem mem_stepCells {t : StepTree α} {cell : Cell α} (h : cell ∈ stepCells t) :
    cell.colspan = 1 ∧ cell.rowspan = t.size := by
  obtain ⟨a, -, rfl⟩ := List.mem_map.1 h
  exact ⟨rfl, rfl⟩

/-- The rows that were made are those of the layout, and the layout is
exact. -/
def LaidOut (made : Except Fault (List (List (Cell α)))) (laid : Layout α)
    (height width : Nat) : Prop :=
  made = .ok laid.rows ∧ Exact laid height width

/-- What is laid out below a node, ended by cells of full height, is laid
out again, so many columns wider. -/
theorem LaidOut.widen {made : Except Fault (List (List (Cell α)))} {laid : Layout α}
    {height width : Nat} (h : LaidOut made laid height width) (hpos : 1 ≤ height)
    {cells : List (Cell α)} (hcells : ∀ cell ∈ cells, cell.colspan = 1 ∧ cell.rowspan = height) :
    LaidOut (made >>= endFirst cells) (laid.widen width cells) height (width + cells.length) := by
  obtain ⟨hmade, hexact⟩ := h
  have hne : laid ≠ [] := by
    intro hnil
    have := hexact.length_eq
    rw [hnil, List.length_nil] at this
    omega
  refine ⟨?_, hexact.widen hcells hne⟩
  rw [hmade]
  exact endFirst_rows hne width cells

/-- Nodes that are laid out one by one are laid out one below another. -/
theorem laidOut_ofNodes {columns : Nat} {ts : List (StepTree α)}
    (hts : ∀ t ∈ ts, 1 ≤ t.size ∧ LaidOut (rowsOf columns (stepCells t) t)
      (ofNode columns (stepCells t) t) t.size.toNat (columns + 1)) :
    LaidOut (rowsOfAll columns ts) (ofNodes columns ts)
      (StepTree.total (ts.map StepTree.size)).toNat (columns + 1) := by
  induction ts with
  | nil =>
      rw [rowsOfAll, ofNodes]
      exact ⟨rfl, exact_nil _⟩
  | cons t ts ih =>
      obtain ⟨hsize, hmade, hexact⟩ := hts t List.mem_cons_self
      have hrest := fun u hu => hts u (List.mem_cons_of_mem t hu)
      obtain ⟨hmade', hexact'⟩ := ih hrest
      have hnonneg : 0 ≤ StepTree.total (ts.map StepTree.size) :=
        StepTree.total_nonneg fun n hn => by
          obtain ⟨u, hu, rfl⟩ := List.mem_map.1 hn
          have := (hrest u hu).1
          omega
      rw [rowsOfAll, ofNodes, List.map_cons, StepTree.total,
        Int.toNat_add (by omega) hnonneg]
      refine ⟨?_, hexact.append hexact'⟩
      rw [hmade, hmade', rows_append]
      rfl

/-- A leaf with ingredients is laid out: its ingredients one below another,
and the cells that end the first of their rows. -/
theorem laidOut_leaf {actions : List (Action α)} {items : List (Ingredient α)}
    {size maxDepth : Int} {columns : Nat} {cells : List (Cell α)}
    (hactions : actions.length ≤ columns) (hitems : items ≠ [])
    (hcells : ∀ cell ∈ cells, cell.colspan = 1 ∧ cell.rowspan = items.length) :
    LaidOut (rowsOf columns cells (.node actions items size maxDepth []))
      (ofNode columns cells (.node actions items size maxDepth [])) items.length
      (columns - actions.length + 1 + cells.length) := by
  have hown : LaidOut (.ok (ingredientRows (columns - actions.length + 1) items))
      (ingredients ((columns - actions.length : Nat) + 1) items) items.length
      (columns - actions.length + 1) := by
    rw [← Int.ofNat_sub hactions, ← rows_ingredients]
    exact ⟨rfl, exact_ingredients (Nat.succ_pos _) items⟩
  have := hown.widen (List.length_pos_iff.2 hitems) hcells
  rw [rowsOf, ofNode]
  exact this

/-- An inner node is laid out if its paths are: what they cover, and the
cells that end the first row of the first of them. -/
theorem laidOut_inner {actions : List (Action α)} {size maxDepth : Int}
    {paths : List (StepTree α)} {columns height : Nat} {cells : List (Cell α)}
    (hactions : actions.length ≤ columns) (hpaths : paths ≠ []) (hpos : 1 ≤ height)
    (hcells : ∀ cell ∈ cells, cell.colspan = 1 ∧ cell.rowspan = height)
    (hbelow : LaidOut (rowsOfAll (columns - actions.length : Nat) paths)
      (ofNodes (columns - actions.length) paths) height (columns - actions.length + 1)) :
    LaidOut (rowsOf columns cells (.node actions [] size maxDepth paths))
      (ofNode columns cells (.node actions [] size maxDepth paths)) height
      (columns - actions.length + 1 + cells.length) := by
  have hinner : ¬ paths.isEmpty = true := by
    rw [List.isEmpty_iff]
    exact hpaths
  obtain ⟨hmade, hexact⟩ := hbelow.widen hpos hcells
  rw [rowsOf, ofNode, if_neg hinner, if_neg hinner, ← Int.ofNat_sub hactions]
  refine ⟨?_, hexact⟩
  obtain ⟨below, hall, hended⟩ := bind_eq_ok_iff.1 hmade
  rw [hall]
  show (endFirst cells below >>= fun below => .ok ([] ++ below)) = _
  rw [hended]
  rfl

/-- A tree that fits is laid out over its size and one column more than
are left for it, if these suffice for its depth. -/
theorem laidOut_ofNode {t : StepTree α} (h : t.Fits) :
    ∀ {columns : Nat}, t.maxDepth ≤ columns →
      LaidOut (rowsOf columns (stepCells t) t) (ofNode columns (stepCells t) t)
        t.size.toNat (columns + 1) := by
  induction h with
  | @node t hnode hpaths ih =>
      intro columns hcolumns
      have hfits : t.Fits := .node hnode hpaths
      have hpos := hfits.one_le_size
      have hactions : t.actions.length ≤ columns := by
        have := hfits.length_le
        omega
      have hcells : ∀ cell ∈ stepCells t, cell.colspan = 1 ∧ cell.rowspan = t.size.toNat := by
        intro cell hcell
        obtain ⟨hcol, hrow⟩ := mem_stepCells hcell
        exact ⟨hcol, by omega⟩
      have hwidth : columns - t.actions.length + 1 + (stepCells t).length = columns + 1 := by
        have : (stepCells t).length = t.actions.length := List.length_map _
        omega
      obtain ⟨hshape, hsize, -⟩ := StepTree.checkNode_eq_ok_iff.1 hnode
      have hbelow : ∀ p ∈ t.paths, 1 ≤ p.size ∧ LaidOut
          (rowsOf (columns - t.actions.length : Nat) (stepCells p) p)
          (ofNode (columns - t.actions.length) (stepCells p) p) p.size.toNat
          (columns - t.actions.length + 1) := by
        intro p hp
        have := hfits.length_add_le hp
        exact ⟨(hpaths p hp).one_le_size, ih p hp (by omega)⟩
      -- A leaf is its ingredients below one another; any other node is its paths below
      -- one another, with its steps at their right edge.
      rw [← hwidth]
      match t, hshape, hsize with
      | .node actions items size maxDepth [], hshape, hsize =>
          have hitems : items ≠ [] := by
            simpa [StepTree.isNodeShaped, StepTree.ingredients, StepTree.paths] using hshape
          have hheight : size.toNat = items.length := by
            have : size = items.length := hsize
            omega
          rw [show (StepTree.node actions items size maxDepth []).size.toNat = items.length
            from hheight] at hcells ⊢
          exact laidOut_leaf hactions hitems hcells
      | .node actions items size maxDepth (p :: paths), hshape, hsize =>
          have hitems : items = [] := by
            simpa [StepTree.isNodeShaped, StepTree.ingredients, StepTree.paths] using hshape
          subst hitems
          have hall := laidOut_ofNodes hbelow
          have htotal : StepTree.total
              ((StepTree.node actions [] size maxDepth (p :: paths)).paths.map StepTree.size)
              = (StepTree.node actions [] size maxDepth (p :: paths)).size := hsize.symm
          rw [htotal] at hall
          exact laidOut_inner hactions (List.cons_ne_nil p paths) (by omega) hcells hall

/-- A tree that is accepted is laid out over its size and two columns more
than its depth, the last of them the finish. -/
theorem laidOut_of_check {t : StepTree α} (h : t.check = .ok ()) :
    LaidOut (rowsOf t.maxDepth (rootCells t) t) (ofNode t.maxDepth.toNat (rootCells t) t)
      t.size.toNat (t.maxDepth.toNat + 2) := by
  obtain ⟨depth, top, rfl, htop, hdepth⟩ := StepTree.root_of_check h
  have hpos := htop.one_le_size
  have hcells : ∀ cell ∈ rootCells (.node [] [] top.size depth [top] : StepTree α),
      cell.colspan = 1 ∧ cell.rowspan = top.size.toNat := by
    intro cell hcell
    rw [List.mem_singleton.1 hcell]
    exact ⟨rfl, show top.size = top.size.toNat by omega⟩
  have hall : LaidOut (rowsOfAll depth [top]) (ofNodes depth [top])
      (StepTree.total ([top].map StepTree.size)).toNat (depth + 1) := by
    refine laidOut_ofNodes fun p hp => ?_
    rw [List.mem_singleton.1 hp]
    exact ⟨hpos, laidOut_ofNode htop (Int.le_of_eq hdepth)⟩
  have hpositive : 1 ≤ top.size.toNat := by omega
  have htotal : StepTree.total ([top].map StepTree.size) = top.size := Int.add_zero _
  rw [htotal] at hall
  exact laidOut_inner (Nat.zero_le depth) (List.cons_ne_nil top []) hpositive hcells hall

end Layout

-- =========================================================== the table

end Table

end RecipeChart
